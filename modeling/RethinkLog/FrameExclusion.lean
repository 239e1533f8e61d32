import RethinkLog.StripeHeap
import RethinkLog.FrameBuilding

/-!
# No file is opened twice

Any number of stripe objects share one disk, and their calls interleave line
by line with each `buildFrame` taken as one step. Two calls may even be inside
the same object. A frame is opened only under a name that does not exist, so
no stripe reaches a file of another one or a file that was there before. The
search for such a name is short, but for an id with a NUL byte it never ends.
-/

set_option autoImplicit false

namespace RethinkLog.FrameExclusion
open FramePath Machine BoundedSearch StripeHeap

/-- The line of `operator()` that a call in flight executes next. -/
inductive Stage where
  | opening
  | rolling
  | writing
  | done
  deriving DecidableEq, Repr

structure Flight where
  obj : ℕ
  text : Bytes
  stage : Stage
  deriving DecidableEq, Repr

structure World where
  stripes : List Stripe
  flights : List Flight
  host : Host

inductive Act where
  | create (id : Bytes)
  | enter (obj : ℕ) (c : Call)
  | advance (flight : ℕ)
  | destroy (obj : ℕ)
  deriving DecidableEq, Repr

def settle (w : World) (k : ℕ) (fl : Flight) (next : Stage) :
    Except Stop (List FrameName) × Stripe × Host → List Path × World
  | (.error _, st, h) =>
    ([], ⟨w.stripes.set fl.obj st,w.flights.set k { fl with stage := .done },h⟩)
  | (.ok ns, st, h) => (ns.map (framePath h.cwd st.id),
      ⟨w.stripes.set fl.obj st,w.flights.set k { fl with stage := next },h⟩)

def line (w : World) (k : ℕ) (fl : Flight) (st : Stripe) : List Path × World :=
  match fl.stage with
  | .opening => settle w k fl .rolling (st.ensureOpen w.host)
  | .rolling => settle w k fl .writing (st.ensureRoom fl.text.length w.host)
  | .writing => settle w k fl .done (.ok [],st.write fl.text w.host)
  | .done => ([], w)

def step (W : JsonWriter) (w : World) : Act → List Path × World
  | .create id => ([], { w with stripes := w.stripes ++ [Stripe.create id] })
  | .enter obj c => match w.stripes[obj]? with
    | none => ([], w)
    | some st =>
      let v := { w with stripes := w.stripes.set obj (st.assign c.offset).2 }
      if frameFilesize ≤ st.room W c then ([], v)
      else ([], { v with flights := w.flights ++ [⟨obj,(st.record c).encode W,.opening⟩] })
  | .advance k => match w.flights[k]? with
    | none => ([], w)
    | some fl => match w.stripes[fl.obj]? with
      | none => ([], w)
      | some st => line w k fl st
  | .destroy obj => match w.stripes[obj]? with
    | none => ([], w)
    | some st => ([], { w with stripes := w.stripes.set obj { st with frame := none } })

section Sequential
variable (W : JsonWriter) (stripes : List Stripe) (flights : List Flight) (h : Host)
variable (obj : ℕ) (b : Bytes) (st : Stripe)

theorem line_last (stage : Stage) (ho : obj < stripes.length) :
    step W ⟨stripes.set obj st,flights++[⟨obj,b,stage⟩],h⟩ (.advance flights.length) =
      line ⟨stripes.set obj st,flights++[⟨obj,b,stage⟩],h⟩ flights.length ⟨obj,b,stage⟩ st := by
  simp [step, ho]

theorem settle_last (stage next : Stage) (r : Except Stop (List FrameName) × Stripe × Host) :
    (settle ⟨stripes.set obj st,flights++[⟨obj,b,stage⟩],h⟩ flights.length ⟨obj,b,stage⟩ next r).2 =
      ⟨stripes.set obj r.2.1,flights++[⟨obj,b,if r.1.isOk then next else .done⟩],r.2.2⟩ := by
  obtain ⟨r,su,g⟩ := r
  cases r <;> simp [settle, Except.isOk, Except.toBool]

/-- A call that runs without interleaving is its lines in order. -/
theorem call_lines (c : Call) (hs : stripes[obj]? = some st) :
    let k := flights.length
    let v := final (step W) ⟨stripes,flights,h⟩ [.enter obj c,.advance k,.advance k,.advance k]
    v.stripes = stripes.set obj (st.call W h c).2.1 ∧ v.host = (st.call W h c).2.2 := by
  have ho : obj < stripes.length := (List.getElem?_eq_some_iff.mp hs).1
  have hlen : ((st.record c).encode W).length = st.room W c := rfl
  rw [Stripe.call_eq]
  simp only [final]
  by_cases hl : frameFilesize ≤ st.room W c
  · simp [step, hs, hl]
  have henter : (step W ⟨stripes,flights,h⟩ (.enter obj c)).2 =
      ⟨stripes.set obj (st.assign c.offset).2,
        flights++[⟨obj,(st.record c).encode W,.opening⟩],h⟩ := by
    simp [step, hs, hl]
  rw [henter, if_neg hl, line_last _ _ _ _ _ _ _ _ ho]
  simp only [line]
  rw [settle_last]
  rcases (st.assign c.offset).2.ensureOpen h with ⟨f | first,su,g⟩
  · simp [Except.isOk, Except.toBool, line_last, line, ho]
  · simp only [Except.isOk, Except.toBool, if_true]
    rw [line_last _ _ _ _ _ _ _ _ ho]
    simp only [line]
    rw [settle_last, hlen]
    rcases su.ensureRoom (st.room W c) g with ⟨f | second,sv,i⟩
    · simp [Except.isOk, Except.toBool, line_last, line, ho]
    · simp only [Except.isOk, Except.toBool, if_true]
      rw [line_last _ _ _ _ _ _ _ _ ho]
      simp only [line]
      rw [settle_last]
      exact ⟨rfl,rfl⟩

end Sequential

inductive Move (w : World) : List Path → World → Prop
  | quiet (v : World) (grown : Disk.Grown w.host.disk v.host.disk)
      (frames : ∀ i p, pathOf v.stripes i = some p → pathOf w.stripes i = some p) : Move w [] v
  | opened (v : World) (obj : ℕ) (p : Path) (grown : Disk.Grown w.host.disk v.host.disk)
      (fresh : p ∉ w.host.disk.present) (file : p ∈ v.host.disk.files)
      (frames : ∀ i q, pathOf v.stripes i = some q →
        if i = obj then q = p else pathOf w.stripes i = some q) : Move w [p] v
  | wrote (v : World) (obj : ℕ) (p : Path) (pos : ℕ) (b : Bytes)
      (own : pathOf w.stripes obj = some p) (disk : v.host.disk = w.host.disk.write p pos b)
      (frames : ∀ i, pathOf v.stripes i = pathOf w.stripes i) : Move w [] v

theorem build_move (w : World) (k : ℕ) (fl : Flight) (next : Stage) (st : Stripe)
    (hs : w.stripes[fl.obj]? = some st) :
    let r := settle w k fl next (Stripe.listing (st.buildFrame w.host))
    Move w r.1 r.2 := by
  have hb := st.buildFrame_built w.host
  generalize st.buildFrame w.host = b at hb ⊢
  obtain ⟨r,su,h⟩ := b
  cases hb with
  | failed e frame d kept grown hung =>
    refine .quiet _ grown (fun i p hp => ?_)
    replace hp := (pathOf_set hs _ i).symm.trans hp
    split at hp
    · rename_i hi
      rw [hi, pathOf_some hs]
      rcases kept with rfl | rfl
      · exact hp
      · cases hp
    · exact hp
  | opened n d second fresh below mem grown plain =>
    refine .opened _ fl.obj _ grown
      (fun hm => fresh ((st.prepared_grown w.host).present hm)) mem (fun i q hq => ?_)
    replace hq := (pathOf_set hs _ i).symm.trans hq
    split at hq
    · rename_i hi
      rw [if_pos hi]
      exact (Option.some.inj hq).symm
    · rename_i hi
      rwa [if_neg hi]

theorem skip_move (w : World) (k : ℕ) (fl : Flight) (next : Stage) (st : Stripe)
    (hs : w.stripes[fl.obj]? = some st) :
    let r := settle w k fl next (.ok [],st,w.host)
    Move w r.1 r.2 := by
  refine .quiet _ (Disk.Grown.refl _) (fun i p hp => ?_)
  replace hp := (pathOf_set hs _ i).symm.trans hp
  split at hp
  · rename_i hi
    rw [hi, pathOf_some hs]
    exact hp
  · exact hp

theorem step_move (W : JsonWriter) (w : World) (a : Act) :
    Move w (step W w a).1 (step W w a).2 := by
  have hstay : Move w [] w := .quiet _ (Disk.Grown.refl _) (fun _ _ hp => hp)
  cases a with
  | create id => exact .quiet _ (Disk.Grown.refl _) (pathOf_append w.stripes id)
  | enter obj c =>
    simp only [step]
    split
    · exact hstay
    · rename_i st hs
      have hq : ∀ i p, pathOf (w.stripes.set obj (st.assign c.offset).2) i = some p →
          pathOf w.stripes i = some p := by
        intro i p hp
        rw [pathOf_set hs, Stripe.assign_frame, ← pathOf_some hs] at hp
        split at hp
        · rename_i hi
          rwa [hi]
        · exact hp
      split <;> exact .quiet _ (Disk.Grown.refl _) hq
  | advance k =>
    simp only [step]
    split
    · exact hstay
    rename_i fl hf
    split
    · exact hstay
    rename_i st hs
    unfold line
    split
    · unfold Stripe.ensureOpen
      split
      · exact skip_move w k fl _ st hs
      · exact build_move w k fl _ st hs
    · unfold Stripe.ensureRoom
      split
      · exact skip_move w k fl _ st hs
      · split
        · exact build_move w k fl _ st hs
        · exact skip_move w k fl _ st hs
    · unfold Stripe.write
      split
      · exact skip_move w k fl _ st hs
      · rename_i f ho
        refine .wrote _ fl.obj f.path f.tellp fl.text (by simp [pathOf_some hs, ho]) rfl
          (fun i => (pathOf_set hs _ i).trans ?_)
        split
        · rename_i hi
          rw [hi, pathOf_some hs, ho]
          rfl
        · rfl
    · exact hstay
  | destroy obj =>
    simp only [step]
    split
    · exact hstay
    · rename_i st hs
      refine .quiet _ (Disk.Grown.refl _) (fun i p hp => ?_)
      rw [pathOf_set hs] at hp
      split at hp
      · cases hp
      · exact hp

structure Exclusive (base : Disk) (w : World) (paths : List Path) : Prop where
  nodup : paths.Nodup
  file : ∀ p ∈ paths, p ∈ w.host.disk.files
  fresh : ∀ p ∈ paths, p ∉ base.present
  own : ∀ i p, pathOf w.stripes i = some p → p ∈ paths
  apart : ∀ i j p, pathOf w.stripes i = some p → pathOf w.stripes j = some p → i = j
  older : base.present ⊆ w.host.disk.present
  same : ∀ p ∈ base.present, w.host.disk.written p = base.written p

theorem exclusive_move {base : Disk} {w v : World} {paths a : List Path}
    (he : Exclusive base w paths) (hm : Move w a v) : Exclusive base v (paths++a) := by
  cases hm with
  | quiet v grown frames =>
    rw [List.append_nil]
    exact ⟨he.nodup,fun p hp => grown.files (he.file p hp),he.fresh,
      fun i p hp => he.own i p (frames i p hp),
      fun i j p hi hj => he.apart i j p (frames i p hi) (frames j p hj),
      he.older.trans grown.present,fun p hp => by rw [grown.written, he.same p hp]⟩
  | opened v obj p grown fresh file frames =>
    have hnew : p ∉ paths := fun hp => fresh (w.host.disk.files_present (he.file p hp))
    refine ⟨?_,?_,?_,?_,?_,he.older.trans grown.present,
      fun q hq => by rw [grown.written, he.same q hq]⟩
    · rw [List.nodup_append]
      refine ⟨he.nodup,List.nodup_singleton p,fun x hx y hy => ?_⟩
      obtain rfl : y = p := by simpa using hy
      rintro rfl
      exact hnew hx
    · intro q hq
      rcases List.mem_append.mp hq with hq | hq
      · exact grown.files (he.file q hq)
      · obtain rfl : q = p := by simpa using hq
        exact file
    · intro q hq
      rcases List.mem_append.mp hq with hq | hq
      · exact he.fresh q hq
      · obtain rfl : q = p := by simpa using hq
        exact fun hb => fresh (he.older hb)
    · intro i q hi
      have hf := frames i q hi
      split at hf
      · simp [hf]
      · exact List.mem_append_left _ (he.own i q hf)
    · intro i j q hi hj
      have hfi := frames i q hi
      have hfj := frames j q hj
      split at hfi <;> split at hfj
      · omega
      · exact absurd (he.own j q hfj) (by rwa [hfi])
      · exact absurd (he.own i q hfi) (by rwa [hfj])
      · exact he.apart i j q hfi hfj
  | wrote v obj p pos b own disk frames =>
    have hp := he.own obj p own
    rw [List.append_nil]
    refine ⟨he.nodup,?_,he.fresh,?_,?_,?_,?_⟩
    · rw [disk]
      exact he.file
    · intro i q hi
      exact he.own i q (by rwa [← frames i])
    · intro i j q hi hj
      exact he.apart i j q (by rwa [← frames i]) (by rwa [← frames j])
    · rw [disk]
      exact he.older
    · intro q hq
      rw [disk, Disk.write_other _ _ _ _ _ (fun h => he.fresh p hp (by rwa [← h])), he.same q hq]

def paths (W : JsonWriter) (h : Host) (acts : List Act) : List Path :=
  (answers (step W) ⟨[],[],h⟩ acts).flatten

theorem run_exclusive (W : JsonWriter) (h : Host) (acts : List Act) :
    Exclusive h.disk (final (step W) ⟨[],[],h⟩ acts) (paths W h acts) := by
  unfold paths answers
  apply history_invariant (step W)
    (fun w hist => Exclusive h.disk w (hist.map Prod.snd).flatten)
  · exact ⟨List.nodup_nil,by simp,by simp,by simp [pathOf],by simp [pathOf],subset_rfl,
      fun _ _ => rfl⟩
  · intro w hist a he
    simpa using exclusive_move he (step_move W w a)

/-- A frame is named by the first number free in its second, and no number
above the count of the directory's entries is ever reached. -/
theorem built_number (st : Stripe) (h : Host) (n : FrameName)
    (hb : (st.buildFrame h).1 = .ok n) :
    framePath h.cwd st.id n ∉ (st.prepared h).2.present ∧
      (∀ j < n.number, framePath h.cwd st.id ⟨n.second,j⟩ ∈ (st.prepared h).2.present) ∧
      n.number ≤ ((st.prepared h).2.inside (home h.cwd st.id)).card := by
  have hid := st.buildFrame_plain h (by rw [hb]; rfl)
  unfold Stripe.buildFrame at hb
  dsimp only at hb
  split at hb
  · cases hb
  rename_i d hd
  split at hb
  · cases hb
  · cases hb
  rename_i ix hix
  obtain ⟨hfree,hbelow⟩ := st.freeNumber_found h.cwd (h.coming 0) d ix hix
  split at hb
  · cases hb
  obtain rfl := Except.ok.inj hb
  rw [hd]
  refine ⟨hfree,hbelow,?_⟩
  apply names_bound (fun j => framePath h.cwd st.id ⟨(h.coming 0).clock,j⟩)
  · intro i j he
    simpa using framePath_injective h.cwd hid he
  · exact fun j hj => Stripe.framePath_inside _ hid _ _ (hbelow j hj)

def allowed (st : Stripe) (h : Host) : ℕ :=
  ((st.prepared h).2.inside (home h.cwd st.id)).card+1

/-- The probing loop, if there is a directory to probe in, has ended after one
try more than the directory has entries. -/
def Ends (st : Stripe) (h : Host) : Prop :=
  (st.prepared h).1 = .ok () →
    search (st.probe h.cwd (h.coming 0) (st.prepared h).2) (allowed st h) 0 ≠ .ok none

def Leaves (st : Stripe) (h : Host) : Prop :=
  (st.prepared h).1 = .ok () →
    (0:UInt8) ∉ st.id ∨ ∃ k < allowed st h, (h.coming 0).fault = some (.probe k)

theorem probe_nul (st : Stripe) (h : Host) (hz : (0:UInt8) ∈ st.id)
    (hok : (st.prepared h).1 = .ok ()) (j : ℕ) :
    st.probe h.cwd (h.coming 0) (st.prepared h).2 j = .ok true ↔
      (h.coming 0).fault ≠ some (.probe j) := by
  rw [Stripe.probe_ok, framePath_stops h.cwd hz]
  simp [st.prepared_home h hok]

theorem ends_iff (st : Stripe) (h : Host) : Ends st h ↔ Leaves st h := by
  unfold Ends Leaves
  refine forall_congr' (fun hok => ?_)
  by_cases hz : (0:UInt8) ∈ st.id
  · have hprobe := probe_nul st h hz hok
    simp only [hz, not_true, false_or]
    constructor
    · intro hends
      by_contra hno
      exact hends (search_taken _ _ _ (fun j _ hj => (hprobe j).mpr
        (fun hf => hno ⟨j,by omega,hf⟩)))
    · rintro ⟨k,hk,hf⟩ hnone
      exact (hprobe k).mp (search_exhausted _ _ _ hnone k (Nat.zero_le k) (by omega)) hf
  · simp only [hz, not_false_eq_true, true_or, iff_true]
    exact st.probe_enough h.cwd (h.coming 0) _ hz

def Exclusion (W : JsonWriter) (h : Host) (acts : List Act) : Prop :=
  let w := final (step W) ⟨[],[],h⟩ acts
  (paths W h acts).Nodup ∧ (∀ p ∈ paths W h acts, p ∉ h.disk.present) ∧
  (∀ p ∈ h.disk.present, w.host.disk.written p = h.disk.written p) ∧
  (∀ i j p, pathOf w.stripes i = some p → pathOf w.stripes j = some p → i = j) ∧
  (∀ a, ∀ p ∈ (step W w a).1, p ∉ w.host.disk.present) ∧
  ∀ st ∈ w.stripes, ∀ n, (st.buildFrame w.host).1 = .ok n →
    framePath w.host.cwd st.id n ∉ (st.prepared w.host).2.present ∧
    (∀ j < n.number, framePath w.host.cwd st.id ⟨n.second,j⟩ ∈
      (st.prepared w.host).2.present) ∧
    n.number ≤ ((st.prepared w.host).2.inside (home w.host.cwd st.id)).card

theorem run_exclusion (W : JsonWriter) (h : Host) (acts : List Act) : Exclusion W h acts := by
  have he := run_exclusive W h acts
  refine ⟨he.nodup,he.fresh,he.same,he.apart,?_,?_⟩
  · intro a p hp
    have hm := step_move W (final (step W) ⟨[],[],h⟩ acts) a
    generalize step W (final (step W) ⟨[],[],h⟩ acts) a = out at hm hp
    obtain ⟨ps,v⟩ := out
    cases hm with
    | quiet => cases hp
    | opened v obj q grown fresh file frames =>
      obtain rfl : p = q := by simpa using hp
      exact fresh
    | wrote => cases hp
  · exact fun st _ n hn => built_number st _ n hn

/-- In every run of any number of stripe objects over any disk and clock, no
existing file is ever opened for a frame. A probing loop ends within one try
more than its directory has entries exactly when the id of its stripe has no
NUL byte or one of these tries throws, and one that does not end by then goes
on until a try throws. -/
theorem frames_exclusive (W : JsonWriter) (h : Host) (acts : List Act) :
    Exclusion W h acts ∧
    ∀ st ∈ (final (step W) ⟨[],[],h⟩ acts).stripes,
      let host := (final (step W) ⟨[],[],h⟩ acts).host
      (Ends st host ↔ Leaves st host) ∧
      (¬ Ends st host → (∀ k, (host.coming 0).fault ≠ some (.probe k)) →
        Endless (st.probe host.cwd (host.coming 0) (st.prepared host).2)) := by
  refine ⟨run_exclusion W h acts,fun st _ => ?_⟩
  intro host
  refine ⟨ends_iff st host,fun hends hno => ?_⟩
  rw [Ends, Classical.not_imp, not_not] at hends
  obtain ⟨hok,hnone⟩ := hends
  have hz : (0:UInt8) ∈ st.id := by
    by_contra hz
    exact st.probe_enough host.cwd (host.coming 0) _ hz hnone
  exact (endless_iff _).mpr (fun j => (probe_nul st host hz hok j).mpr (hno j))

theorem nul_probes_forever : ¬ ∀ (W : JsonWriter) (h : Host) (acts : List Act),
    Exclusion W h acts ∧ ∀ st ∈ (final (step W) ⟨[],[],h⟩ acts).stripes,
      Ends st (final (step W) ⟨[],[],h⟩ acts).host := by
  intro hall
  have he := (hall (.library true) (.still [] 0)
    [.create (ascii "a\x00b"),.enter 0 ⟨uint64Max,[],[],[]⟩]).2
  have hs := (ends_iff _ _).mp (he ⟨ascii "a\x00b",2,none⟩ (by decide)) (by decide)
  exact absurd hs (by decide)

end RethinkLog.FrameExclusion
