import RethinkLog.StorageIsolation

/-!
# Where the ids of stripes lead

An id becomes a part of a path as it is, so it may leave the data directory,
or lead into the directory of another stripe. Read as a path, an id goes up a
number of levels and then down by some names. From these the directories of
two stripes are compared without a look at the disk.
-/

set_option autoImplicit false

namespace RethinkLog

namespace FramePath

def walk (w : ℕ × List Bytes) (name : Bytes) : ℕ × List Bytes :=
  if name = [] ∨ name = [46] then w
  else if name = [46,46] then (if w.2 = [] then (w.1+1, []) else (w.1, w.2.dropLast))
  else (w.1, w.2++[name])

/-- An id as a path from the data directory. -/
def reduce (id : Bytes) : ℕ × List Bytes := (segments id).foldl walk (0,[])

example : reduce (ascii "a/../..//./b/c") = (1,[ascii "b",ascii "c"]) := by decide

def climbed (base : Path) (id : Bytes) : Path := base.drop (base.length-(reduce id).1)

def own (base : Path) (id : Bytes) : Path := (reduce id).2.drop (climbed base id).length

/-- Two ids come back to the data directory by the names they went up, if they
left it, and none of them leads into the directory of the other. -/
def Apart (cwd : Path) (a b : Bytes) : Prop :=
  let base := resolve cwd dataDir
  (climbed base a <+: (reduce a).2 ∧ climbed base b <+: (reduce b).2) ∧
    ¬ own base a <+: own base b ∧ ¬ own base b <+: own base a

instance (cwd : Path) (a b : Bytes) : Decidable (Apart cwd a b) :=
  inferInstanceAs (Decidable (_ ∧ _))

def Inside (d p : Path) : Prop := d <+: p.dropLast

theorem enter_walk (base : Path) (w : ℕ × List Bytes) (name : Bytes) :
    enter (base.take (base.length-w.1) ++ w.2) name =
      base.take (base.length-(walk w name).1) ++ (walk w name).2 := by
  obtain ⟨up,names⟩ := w
  unfold enter walk
  by_cases hstay : name = [] ∨ name = [46]
  · rw [if_pos hstay, if_pos hstay]
  rw [if_neg hstay, if_neg hstay]
  by_cases hup : name = [46,46]
  · rw [if_pos hup, if_pos hup]
    by_cases hn : names = []
    · subst hn
      simp only [if_true, List.append_nil]
      rw [List.dropLast_eq_take, List.take_take, List.length_take]
      congr 1
      omega
    · rw [if_neg hn, List.dropLast_append_of_ne_nil hn]
  · rw [if_neg hup, if_neg hup, List.append_assoc]

theorem home_reduce (cwd : Path) (id : Bytes) (hid : (0:UInt8) ∉ id) : home cwd id =
    (resolve cwd dataDir).take ((resolve cwd dataDir).length-(reduce id).1) ++ (reduce id).2 := by
  have hfold (w : ℕ × List Bytes) (ss : List Bytes) (base : Path) :
      ss.foldl enter (base.take (base.length-w.1) ++ w.2) =
        base.take (base.length-(ss.foldl walk w).1) ++ (ss.foldl walk w).2 := by
    induction ss generalizing w with
    | nil => rfl
    | cons s ss ih => rw [List.foldl_cons, enter_walk, ih, List.foldl_cons]
  have h := hfold (0,[]) (segments id) (resolve cwd dataDir)
  rw [Nat.sub_zero, List.take_length, List.append_nil] at h
  rw [home_eq cwd hid, resolve_append _ _ _ (by decide) (by decide), visible_whole id hid, h,
    reduce]

theorem below_iff (cwd : Path) (id : Bytes) (hid : (0:UInt8) ∉ id) :
    resolve cwd dataDir <+: home cwd id ↔ climbed (resolve cwd dataDir) id <+: (reduce id).2 := by
  generalize hb : resolve cwd dataDir = base
  rw [home_reduce cwd id hid, hb, climbed]
  nth_rewrite 1 [← List.take_append_drop (base.length-(reduce id).1) base]
  exact List.prefix_append_right_inj _

theorem home_own (cwd : Path) (id : Bytes) (hid : (0:UInt8) ∉ id)
    (h : climbed (resolve cwd dataDir) id <+: (reduce id).2) :
    home cwd id = resolve cwd dataDir ++ own (resolve cwd dataDir) id := by
  obtain ⟨rest,hrest⟩ := h
  rw [home_reduce cwd id hid, own, ← hrest, List.drop_left, ← List.append_assoc, climbed,
    List.take_append_drop]

theorem frame_inside (d cwd : Path) (id : Bytes) (hid : (0:UInt8) ∉ id) (n : FrameName) :
    Inside d (framePath cwd id n) ↔ d <+: home cwd id := by
  rw [Inside, framePath_eq cwd hid, List.dropLast_concat]

theorem homes_apart (cwd : Path) (a b : Bytes) (hza : (0:UInt8) ∉ a) (hzb : (0:UInt8) ∉ b) :
    (resolve cwd dataDir <+: home cwd a ∧ ¬ home cwd b <+: home cwd a) ∧
      (resolve cwd dataDir <+: home cwd b ∧ ¬ home cwd a <+: home cwd b) ↔ Apart cwd a b := by
  unfold Apart
  rw [below_iff cwd a hza, below_iff cwd b hzb]
  constructor
  · rintro ⟨⟨ha,hba⟩,hb,hab⟩
    rw [home_own cwd a hza ha, home_own cwd b hzb hb, List.prefix_append_right_inj] at hba hab
    exact ⟨⟨ha,hb⟩,hab,hba⟩
  · rintro ⟨⟨ha,hb⟩,hab,hba⟩
    rw [home_own cwd a hza ha, home_own cwd b hzb hb, List.prefix_append_right_inj,
      List.prefix_append_right_inj]
    exact ⟨⟨ha,hba⟩,hb,hab⟩

end FramePath

namespace Storage
open FramePath StripeHeap LogIntegrity Machine

def frames (id : Bytes) (hist : List (Op × Option Answer)) : List FrameName :=
  (served id hist).flatMap (fun a => a.reply.opened)

def Confined (cwd : Path) (a b : Bytes) (hist : List (Op × Option Answer)) : Prop :=
  (∀ n ∈ frames a hist, Inside (resolve cwd dataDir) (framePath cwd a n) ∧
      ¬ Inside (home cwd b) (framePath cwd a n)) ∧
    ∀ n ∈ frames b hist, Inside (resolve cwd dataDir) (framePath cwd b n) ∧
      ¬ Inside (home cwd a) (framePath cwd b n)

theorem served_none (id : Bytes) (hist : List (Op × Option Answer)) (op : Op) :
    served id (hist++[(op,none)]) = served id hist := by simp [served]

theorem served_some (id : Bytes) (hist : List (Op × Option Answer)) (op : Op) (a : Answer) :
    served id (hist++[(op,some a)]) = served id hist ++ if a.id = id then [a] else [] := by
  rw [served, List.filterMap_append]
  by_cases ha : a.id = id <;> simp [served, ha, Option.filter]

theorem frames_some (id : Bytes) (hist : List (Op × Option Answer)) (op : Op) (a : Answer) :
    frames id (hist++[(op,some a)]) =
      frames id hist ++ if a.id = id then a.reply.opened else [] := by
  rw [frames, served_some, List.flatMap_append]
  by_cases ha : a.id = id <;> simp [frames, ha]

theorem records_some (id : Bytes) (hist : List (Op × Option Answer)) (op : Op) (a : Answer) :
    records id (hist++[(op,some a)]) =
      records id hist ++ if a.id = id then (stored (a.call,a.reply)).toList else [] := by
  rw [records, served_some, List.filterMap_append]
  by_cases ha : a.id = id
  · cases hs : stored (a.call,a.reply) <;> simp [records, ha, hs]
  · simp [records, ha]

theorem call_frames (W : JsonWriter) (st : Stripe) (h : Host) (c : Call) :
    let r := st.call W h c
    (r.2.2.cwd = h.cwd ∧ h.disk.files ⊆ r.2.2.disk.files ∧ ∀ n ∈ r.1.opened,
      framePath h.cwd st.id n ∈ r.2.2.disk.files ∧ (0:UInt8) ∉ st.id) ∧
    (r.2.1.frame ≠ none ∨ stored (c,r.1) ≠ none → st.frame ≠ none ∨ r.1.opened ≠ []) := by
  obtain ⟨reply,st',h',heq,he⟩ := Stripe.call_effect W st h c
  rw [heq]
  cases he with
  | rejected large => simp [Stripe.assign_frame, stored]
  | stopped e frame d small kept grown hung =>
    refine ⟨⟨rfl,grown.files,by simp⟩,?_⟩
    rcases kept with rfl | rfl <;> simp [stored]
  | appended f small isOpen fits => exact ⟨⟨rfl,subset_rfl,by simp⟩,fun _ => by simp [isOpen]⟩
  | rolled n d small needed second fresh below mem grown plain =>
    refine ⟨⟨rfl,grown.files,?_⟩,fun _ => by simp⟩
    intro m hm
    rw [List.mem_singleton.mp hm]
    exact ⟨mem,plain⟩

structure Located (cwd : Path) (s : Storage) (hist : List (Op × Option Answer)) : Prop where
  registered : Registered s
  works : s.host.cwd = cwd
  files : ∀ id, ∀ n ∈ frames id hist, framePath cwd id n ∈ s.host.disk.files ∧ (0:UInt8) ∉ id
  opened : ∀ (k : ℕ) (st : Stripe), s.heap[k]? = some st → st.frame ≠ none →
    frames st.id hist ≠ []
  wrote : ∀ id, records id hist ≠ [] → frames id hist ≠ []

variable {dir : Path} {s : Storage} {hist : List (Op × Option Answer)}

theorem located_quiet (hl : Located dir s hist) (op : Op) : Located dir s (hist++[(op,none)]) := by
  have hs (id : Bytes) := served_none id hist op
  constructor
  · exact hl.registered
  · exact hl.works
  · simpa only [frames, hs] using hl.files
  · simpa only [frames, hs] using hl.opened
  · simpa only [frames, records, hs] using hl.wrote

theorem located_stripe (hl : Located dir s hist) (id : Bytes) :
    Located dir (s.stripe id).2 hist := by
  have hreg := stripe_registered s id hl.registered
  obtain ⟨k,t,heq,hf⟩ := stripe_found s id hl.registered
  rw [heq] at hreg ⊢
  cases hf with
  | known k st get named => exact hl
  | made absent =>
    refine ⟨hreg,hl.works,hl.files,fun i st hi hframe => ?_,hl.wrote⟩
    rcases (get_append _ _ _ _).mp hi with hi | ⟨-,rfl⟩
    · exact hl.opened i st hi hframe
    · exact absurd rfl hframe

theorem located_write (W : JsonWriter) (hl : Located dir s hist) (k : ℕ) (c : Call) (op : Op) :
    Located dir (s.write W k c).2 (hist++[(op,(s.write W k c).1)]) := by
  have hreg := write_registered W s k c hl.registered
  cases hk : s.heap[k]? with
  | none =>
    rw [write_none W s k c hk]
    exact located_quiet hl op
  | some st =>
    rw [write_some W s k c hk] at hreg ⊢
    have hcall := call_frames W st s.host c
    have hname := Stripe.call_id W st s.host c
    generalize st.call W s.host c = r at hreg hcall hname ⊢
    obtain ⟨reply,su,h⟩ := r
    obtain ⟨⟨hcwd,hkeep,hnew⟩,hframe⟩ := hcall
    dsimp only at hcwd hkeep hnew hframe hname
    have hst : st.frame ≠ none ∨ reply.opened ≠ [] → frames st.id hist ++ reply.opened ≠ [] := by
      rintro (ho | ho) hnil
      · exact hl.opened k st hk ho (List.append_eq_nil_iff.mp hnil).1
      · exact ho (List.append_eq_nil_iff.mp hnil).2
    refine ⟨hreg,hcwd.trans hl.works,?_,?_,?_⟩
    · intro id n hn
      rw [frames_some, List.mem_append] at hn
      rcases hn with hn | hn
      · exact ⟨hkeep (hl.files id n hn).1,(hl.files id n hn).2⟩
      · split at hn
        · rename_i hid
          rw [← hl.works, ← hid]
          exact hnew n hn
        · simp at hn
    · intro i sv hi hsv
      rw [frames_some]
      simp only [get_set hk] at hi
      split at hi
      · obtain rfl := Option.some.inj hi
        rw [hname, if_pos rfl]
        exact hst (hframe (Or.inl hsv))
      · intro hnil
        exact hl.opened i sv hi hsv (List.append_eq_nil_iff.mp hnil).1
    · intro id hw
      rw [records_some] at hw
      rw [frames_some]
      by_cases hid : st.id = id
      · rw [if_pos hid] at hw ⊢
        subst hid
        by_cases hs : stored (c,reply) = none
        · rw [hs, Option.toList_none, List.append_nil] at hw
          intro hnil
          exact hl.wrote st.id hw (List.append_eq_nil_iff.mp hnil).1
        · exact hst (hframe (Or.inr hs))
      · rw [if_neg hid, List.append_nil] at hw ⊢
        exact hl.wrote id hw

theorem run_located (W : JsonWriter) (h : Host) (ops : List Op) :
    Located h.cwd (final (step W) (World.fresh h) ops).storage
      (history (step W) (World.fresh h) ops) := by
  induction ops using List.reverseRecOn with
  | nil =>
    constructor <;> simp [World.fresh, make, masterStripes, replicaStripes, Registered, frames,
      served, records]
  | append_singleton ops op ih =>
    rw [final_concat, history_concat]
    cases op with
    | publish id key data localtime => exact located_write W (located_stripe ih id) _ _ _
    | writer name id => exact located_quiet (located_stripe ih id) _
    | handle name c =>
      simp only [step]
      split
      · exact located_quiet ih _
      · exact located_write W ih _ c _

theorem confined_apart (cwd : Path) (a b : Bytes) (hist : List (Op × Option Answer))
    (ha : frames a hist ≠ []) (hb : frames b hist ≠ []) (hza : (0:UInt8) ∉ a)
    (hzb : (0:UInt8) ∉ b) :
    Confined cwd a b hist ↔ Apart cwd a b := by
  obtain ⟨n,hn⟩ := List.exists_mem_of_ne_nil _ ha
  obtain ⟨m,hm⟩ := List.exists_mem_of_ne_nil _ hb
  rw [← homes_apart cwd a b hza hzb]
  simp only [Confined, frame_inside _ _ _ hza, frame_inside _ _ _ hzb]
  exact ⟨fun hc => ⟨hc.1 n hn,hc.2 m hm⟩,fun hc => ⟨fun _ _ => hc.1,fun _ _ => hc.2⟩⟩

/-- In every run the frames of two stripes that have written are confined
exactly when their ids stay apart. -/
theorem confined_iff (W : JsonWriter) (h : Host) (ops : List Op) (a b : Bytes)
    (ha : records a (history (step W) (World.fresh h) ops) ≠ [])
    (hb : records b (history (step W) (World.fresh h) ops) ≠ []) :
    Confined h.cwd a b (history (step W) (World.fresh h) ops) ↔ Apart h.cwd a b := by
  have hl := run_located W h ops
  have hfa := hl.wrote a ha
  have hfb := hl.wrote b hb
  obtain ⟨n,hn⟩ := List.exists_mem_of_ne_nil _ hfa
  obtain ⟨m,hm⟩ := List.exists_mem_of_ne_nil _ hfb
  exact confined_apart h.cwd a b _ hfa hfb (hl.files a n hn).2 (hl.files b m hm).2

theorem id_escapes : ¬ ∀ (W : JsonWriter) (h : Host) (ops : List Op) (a b : Bytes), a ≠ b →
    records a (history (step W) (World.fresh h) ops) ≠ [] →
    records b (history (step W) (World.fresh h) ops) ≠ [] →
    Confined h.cwd a b (history (step W) (World.fresh h) ops) := by
  intro hall
  have hc := hall (.library true) (.still [] 0)
    [.publish (ascii "..") [] [] [],.publish (ascii "a") [] [] []] (ascii "..") (ascii "a")
    (by decide) (by decide) (by decide)
  rw [confined_apart _ _ _ _ (by decide) (by decide) (by decide) (by decide)] at hc
  exact absurd hc (by decide)

theorem confined_iff_pair :
    let hist := history (step (.library true)) (World.fresh (.still [] 0))
      [.publish (ascii "a/b") [] [] [],.publish (ascii "a/../c") [] [] []]
    Confined [] (ascii "a/b") (ascii "a/../c") hist :=
  (confined_iff (.library true) (.still [] 0) _ _ _ (by decide) (by decide)).mpr (by decide)

end Storage
end RethinkLog
