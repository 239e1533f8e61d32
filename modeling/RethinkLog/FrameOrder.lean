import RethinkLog.LogIntegrity
import Mathlib.Data.List.Sort

/-!
# Frame names keep the order of the log

A stripe may be destroyed and made again on its directory, one object at a
time, and each `buildFrame` may fail. While the clock does not go backwards,
the frames opened are named in increasing order, because every number below
an opened one is taken and stays taken. Reading a directory by name therefore
reads the log in the order in which it was written.
-/

set_option autoImplicit false

namespace RethinkLog.FrameOrder
open FramePath LogIntegrity Machine

inductive Event where
  | call (c : Call)
  | restart
  deriving DecidableEq, Repr

def step (W : JsonWriter) (s : Stripe × Host) : Event → Option Reply × Stripe × Host
  | .call c => (some (stripeStep W s c).1, (stripeStep W s c).2)
  | .restart => (none, Stripe.create s.1.id, s.2)

def reply : Event × Option Reply → Option (Call × Reply)
  | (.call c, some r) => some (c,r)
  | _ => none

def replies (hist : List (Event × Option Reply)) : List (Call × Reply) := hist.filterMap reply

theorem replies_call (hist : List (Event × Option Reply)) (c : Call) (r : Reply) :
    replies (hist++[(.call c,some r)]) = replies hist ++ [(c,r)] := by
  simp [replies, reply]

theorem replies_restart (hist : List (Event × Option Reply)) :
    replies (hist++[(.restart,none)]) = replies hist := by
  simp [replies, reply]

def Earlier (m n : FrameName) : Prop :=
  m.second < n.second ∨ m.second = n.second ∧ m.number < n.number

instance : DecidableRel Earlier := fun m n =>
  inferInstanceAs (Decidable (m.second < n.second ∨ m.second = n.second ∧ m.number < n.number))

instance : Std.Irrefl Earlier := ⟨fun n h => by unfold Earlier at h; omega⟩

instance : Std.Antisymm Earlier := ⟨fun m n h g => by unfold Earlier at h g; omega⟩

/-- Frames made one after the other and none removed: the numbers below each
one are taken, and the clock has not gone back since. -/
structure Chronicle (cwd : Path) (id : Bytes) (names : List FrameName) (h : Host) : Prop where
  ordered : names.Pairwise Earlier
  file : ∀ n ∈ names, framePath cwd id n ∈ h.disk.files
  below : ∀ n ∈ names, ∀ j < n.number, framePath cwd id ⟨n.second,j⟩ ∈ h.disk.present
  past : ∀ n ∈ names, ∀ k, n.second ≤ (h.coming k).clock
  clock : ∀ j k, j ≤ k → (h.coming j).clock ≤ (h.coming k).clock

variable {W : JsonWriter} {cwd : Path} {id : Bytes} {names : List FrameName} {h : Host}

theorem chronicle_start (cwd : Path) (id : Bytes) (h : Host)
    (hclock : ∀ j k, j ≤ k → (h.coming j).clock ≤ (h.coming k).clock) :
    Chronicle cwd id [] h :=
  ⟨List.Pairwise.nil,by simp,by simp,by simp,hclock⟩

theorem chronicle_grown (hc : Chronicle cwd id names h) {d : Disk} (hg : Disk.Grown h.disk d) :
    Chronicle cwd id names (h.next d) where
  ordered := hc.ordered
  file n hn := hg.files (hc.file n hn)
  below n hn j hj := hg.present (hc.below n hn j hj)
  past n hn k := hc.past n hn (k+1)
  clock j k hjk := hc.clock (j+1) (k+1) (Nat.succ_le_succ hjk)

theorem chronicle_write (hc : Chronicle cwd id names h) (p : Path) (pos : ℕ) (b : Bytes) :
    Chronicle cwd id names { h with disk := h.disk.write p pos b } :=
  ⟨hc.ordered,hc.file,hc.below,hc.past,hc.clock⟩

theorem chronicle_opened (hc : Chronicle cwd id names h) {d : Disk} (hg : Disk.Grown h.disk d)
    (n : FrameName) (hs : n.second = (h.coming 0).clock)
    (hfresh : framePath cwd id n ∉ h.disk.present)
    (hbelow : ∀ j < n.number, framePath cwd id ⟨n.second,j⟩ ∈ d.present)
    (hmem : framePath cwd id n ∈ d.files) : Chronicle cwd id (names++[n]) (h.next d) := by
  have hg' := chronicle_grown hc hg
  have hlast : ∀ m ∈ names, Earlier m n := by
    intro m hm
    have hpast := hc.past m hm 0
    have hne : ¬ (m.second = n.second ∧ n.number ≤ m.number) := by
      rintro ⟨hsec,hnum⟩
      apply hfresh
      rcases Nat.lt_or_eq_of_le hnum with hlt | heq
      · have hb := hc.below m hm n.number hlt
        rwa [hsec] at hb
      · have hmn : m = n := by
          cases m
          cases n
          simp_all
        exact h.disk.files_present (hmn ▸ hc.file m hm)
    unfold Earlier
    omega
  have hcases : ∀ m ∈ names ++ [n], m ∈ names ∨ m = n := by
    intro m hm
    simpa using hm
  refine ⟨?_,?_,?_,?_,hg'.clock⟩
  · rw [List.pairwise_append]
    exact ⟨hc.ordered,List.pairwise_singleton _ _,by simpa using hlast⟩
  · intro m hm
    rcases hcases m hm with hm | rfl
    · exact hg'.file m hm
    · exact hmem
  · intro m hm
    rcases hcases m hm with hm | rfl
    · exact hg'.below m hm
    · exact hbelow
  · intro m hm k
    rcases hcases m hm with hm | rfl
    · exact hg'.past m hm k
    · rw [hs]
      exact hc.clock 0 (k+1) (Nat.zero_le _)

theorem chronicle_step (s : Stripe × Host) (hc : Chronicle s.2.cwd s.1.id names s.2) (c : Call) :
    Chronicle s.2.cwd s.1.id (names++(stripeStep W s c).1.opened) (stripeStep W s c).2.2 := by
  obtain ⟨st,h⟩ := s
  obtain ⟨reply,st',h',heq,he⟩ := Stripe.call_effect W st h c
  rw [show stripeStep W (st,h) c = _ from heq]
  cases he with
  | rejected large => simpa using hc
  | stopped e last d small kept grown hung => simpa [Host.next] using chronicle_grown hc grown
  | appended f small isOpen fits => simpa using chronicle_write hc _ _ _
  | rolled n d small needed second fresh below mem grown plain =>
    exact chronicle_write (chronicle_opened hc grown n second fresh below mem) _ _ _

def Kept (W : JsonWriter) (base : Disk) (cwd : Path) (id : Bytes) (olds : List FrameName)
    (s : Stripe × Host) (hist : List (Call × Reply)) : Prop :=
  s.1.id = id ∧ s.2.cwd = cwd ∧ Chronicle cwd id (olds++opened hist) s.2 ∧
    ∃ j : Journal FrameName Record, Keeps W base s j ∧ j.names = opened hist ∧
      j.records = accepted hist

variable {base : Disk} {olds : List FrameName}

theorem kept_call (s : Stripe × Host) (hist : List (Call × Reply))
    (hk : Kept W base cwd id olds s hist) (c : Call) :
    Kept W base cwd id olds (stripeStep W s c).2 (hist++[(c,(stripeStep W s c).1)]) := by
  obtain ⟨rfl,rfl,hc,j,hj,hn,hr⟩ := hk
  obtain ⟨hi,hcwd⟩ := step_host W s c
  obtain ⟨han,har⟩ := advance_reply s hj c
  refine ⟨hi,hcwd,?_,_,keeps_step s hj c,?_,?_⟩
  · rw [opened_concat, ← List.append_assoc]
    exact chronicle_step s hc c
  · rw [han, hn, opened_concat]
  · rw [har, hr, accepted_concat]

theorem kept_restart (s : Stripe × Host) (hist : List (Call × Reply))
    (hk : Kept W base cwd id olds s hist) :
    Kept W base cwd id olds (Stripe.create s.1.id,s.2) hist := by
  obtain ⟨hi,hcwd,hc,j,hj,hn,hr⟩ := hk
  exact ⟨hi,hcwd,hc,j,represents_grown hj (Disk.Grown.refl _) none (Or.inr rfl),hn,hr⟩

theorem run_kept (W : JsonWriter) (id : Bytes) (h : Host) (events : List Event)
    (olds : List FrameName) (hc : Chronicle h.cwd id olds h) :
    Kept W h.disk h.cwd id olds (final (step W) (Stripe.create id,h) events)
      (replies (history (step W) (Stripe.create id,h) events)) := by
  apply history_invariant (step W) (fun s hist => Kept W h.disk h.cwd id olds s (replies hist))
  · exact ⟨rfl,rfl,by simpa [replies, opened] using hc,[],
      represents_start W h.cwd id h.disk,rfl,rfl⟩
  · intro s hist e hk
    cases e with
    | call c =>
      rw [show (step W s (.call c)).1 = some (stripeStep W s c).1 from rfl, replies_call]
      exact kept_call s _ hk c
    | restart =>
      rw [show (step W s .restart).1 = none from rfl, replies_restart]
      exact kept_restart s _ hk

/-- A sorted listing may also name empty files; skipping them, it is the
sorted list of the others. -/
theorem listing_skips (listing : List FrameName) (content : FrameName → Bytes)
    (hl : listing.Pairwise Earlier) (hn : names.Pairwise Earlier) (hin : ∀ n ∈ names, n ∈ listing)
    (hout : ∀ n ∈ listing, n ∉ names → content n = []) :
    listing.flatMap content = names.flatMap content := by
  have heq : listing.filter (fun n => decide (n ∈ names)) = names := by
    apply (hl.filter _).eq_of_mem_iff hn
    intro n
    simp only [List.mem_filter, decide_eq_true_eq]
    exact ⟨fun hm => hm.2,fun hm => ⟨hin n hm,hm⟩⟩
  rw [← heq]
  clear heq hl hin hn
  induction listing with
  | nil => rfl
  | cons n rest ih =>
    have ih := ih (fun m hm => hout m (by simp [hm]))
    by_cases hn : n ∈ names
    · simp [hn, ih]
    · simp [hn, ih, hout n (by simp) hn]

/-- With a clock that does not go backwards, over restarts and failures, the
frames opened are named in increasing order after the older ones, and hold
the accepted records in the order of their names. Reading the whole directory
by name gives the older frames and then every accepted record. -/
theorem names_keep_order (W : JsonWriter) (id : Bytes) (h : Host) (events : List Event)
    (olds : List FrameName) (hc : Chronicle h.cwd id olds h) :
    let s := final (step W) (Stripe.create id,h) events
    let hist := replies (history (step W) (Stripe.create id,h) events)
    let content := fun n => s.2.disk.written (framePath h.cwd id n)
    (olds++opened hist).Pairwise Earlier ∧
    Chronicle h.cwd id (olds++opened hist) s.2 ∧
    (opened hist).flatMap content = text W (accepted hist) ∧
    ((∀ n, framePath h.cwd id n ∈ h.disk.files → n ∉ olds →
        h.disk.written (framePath h.cwd id n) = []) →
      ∀ listing : List FrameName, listing.Pairwise Earlier →
        (∀ n, n ∈ listing ↔ framePath h.cwd id n ∈ s.2.disk.files) →
        listing.flatMap content =
          olds.flatMap (fun n => h.disk.written (framePath h.cwd id n)) ++
            text W (accepted hist)) := by
  intro s hist content
  obtain ⟨hid,hcwd,hch,j,hj,hn,hr⟩ := run_kept W id h events olds hc
  unfold Keeps at hj
  rw [hid, hcwd] at hj
  have hmem : ∀ n ∈ opened hist, ∃ v ∈ j, v.1 = n := by
    intro n ho
    rw [← hn] at ho
    exact List.mem_map.mp ho
  have hnew : ∀ n, n ∉ opened hist → content n = h.disk.written (framePath h.cwd id n) := by
    intro n ho
    apply hj.other
    intro v hv he
    apply ho
    have hid := hj.plain (List.ne_nil_of_mem hv)
    rw [← hn, framePath_injective _ hid he]
    exact List.mem_map_of_mem hv
  have htext : (opened hist).flatMap content = text W (accepted hist) := by
    rw [← hn, ← hr, Journal.names, Journal.records, List.flatMap_map, text, List.flatMap_assoc]
    exact List.flatMap_congr hj.content
  refine ⟨hch.ordered,hch,htext,fun hblank listing hl hfiles => ?_⟩
  have hskip := listing_skips listing content hl hch.ordered
    (fun n hm => (hfiles n).mpr (hch.file n hm)) (fun n _ hm => ?_)
  · rw [hskip, List.flatMap_append, htext]
    congr 1
    apply List.flatMap_congr
    intro n ho
    apply hnew
    intro hopen
    obtain ⟨v,hv,rfl⟩ := hmem n hopen
    exact hj.fresh v hv (h.disk.files_present (hc.file _ ho))
  · rw [List.mem_append, not_or] at hm
    rw [hnew n hm.2]
    by_cases hf : framePath h.cwd id n ∈ h.disk.files
    · exact hblank n hf hm.1
    · exact h.disk.blank _ hf

theorem names_keep_order_restart :
    let c : Call := ⟨uint64Max,[],[],[]⟩
    let run := replies (history (step (.library true)) (Stripe.create (ascii "s"),.still [] 5)
      [.call c,.restart,.call c])
    opened run = [⟨5,0⟩,⟨5,1⟩] ∧ (opened run).Pairwise Earlier := by
  intro c run
  have hn := (names_keep_order (.library true) (ascii "s") (.still [] 5)
    [.call c,.restart,.call c] [] (chronicle_start _ _ _ (fun _ _ _ => le_refl _))).1
  rw [List.nil_append] at hn
  exact ⟨by decide,hn⟩

end RethinkLog.FrameOrder
