import RethinkLog.Storage

/-!
# The offsets a storage hands out

Every call that asks for an offset moves the counter of its stripe, also when
the record is then rejected. Over runs shorter than the counter's range the
values handed out for one id increase, through publishes and handles alike,
and each is the offset of the record that was put on the disk for it.
-/

set_option autoImplicit false

namespace RethinkLog.Storage
open StripeHeap LogIntegrity Machine

def handed (id : Bytes) (hist : List (Op × Option Answer)) : List UInt64 :=
  hist.flatMap (fun x => match x.2 with
    | some a => if a.id = id then a.results.filter (· ≠ 0) else []
    | none => [])

def Op.auto : Op → Bool
  | .handle _ c => c.offset = uint64Max
  | _ => true

def Truthful (W : JsonWriter) (d e : Disk) (a : Answer) : Prop :=
  match a.reply.outcome with
  | .stopped _ => a.results = [] ∧ e.written = d.written
  | _ => ∃ o, a.results = [o] ∧
      (o = 0 ↔ a.reply.outcome = .rejected ∧ e.written = d.written) ∧
      (o ≠ 0 → ∃ p, e.written =
        Function.update d.written p (d.written p ++ (a.call.record o).encode W))

theorem handed_none (id : Bytes) (hist : List (Op × Option Answer)) (op : Op) :
    handed id (hist++[(op,none)]) = handed id hist := by simp [handed]

theorem handed_some (id : Bytes) (hist : List (Op × Option Answer)) (op : Op) (a : Answer) :
    handed id (hist++[(op,some a)]) =
      handed id hist ++ if a.id = id then a.results.filter (· ≠ 0) else [] := by
  simp [handed]

/-- The counters of the objects bound the offsets handed out for their ids. -/
structure Counted (s : Storage) (hist : List (Op × Option Answer)) : Prop where
  sound : Sound s.heap s.host.disk
  registered : Registered s
  counter : ∀ (k : ℕ) (st : Stripe), s.heap[k]? = some st →
    st.lastOffset.toNat ≤ 1+hist.length ∧ ∀ o ∈ handed st.id hist, o ≤ st.lastOffset
  absent : ∀ id, (∀ (k : ℕ) (st : Stripe), s.heap[k]? = some st → st.id ≠ id) →
    handed id hist = []
  ordered : ∀ id, (handed id hist).Pairwise (· < ·)

theorem counted_fresh (h : Host) : Counted (make h) [] where
  sound := ⟨by simp [make, masterStripes, replicaStripes],
    by simp [make, masterStripes, replicaStripes, pathOf]⟩
  registered := by simp [make, masterStripes, replicaStripes, Registered]
  counter := by simp [make, masterStripes, replicaStripes]
  absent _ _ := rfl
  ordered _ := List.Pairwise.nil

variable {s : Storage} {hist : List (Op × Option Answer)}

theorem counted_quiet (hc : Counted s hist) (op : Op) : Counted s (hist++[(op,none)]) where
  sound := hc.sound
  registered := hc.registered
  counter k st hk := by
    obtain ⟨hu,ho⟩ := hc.counter k st hk
    rw [handed_none, List.length_append]
    exact ⟨by omega,ho⟩
  absent id ha := by rw [handed_none, hc.absent id ha]
  ordered id := by
    rw [handed_none]
    exact hc.ordered id

theorem counted_stripe (hc : Counted s hist) (id : Bytes) : Counted (s.stripe id).2 hist := by
  have hr := stripe_registered s id hc.registered
  obtain ⟨k,t,heq,hf⟩ := stripe_found s id hc.registered
  rw [heq] at hr ⊢
  cases hf with
  | known k st get named => exact hc
  | made absent =>
    refine ⟨sound_append hc.sound id,hr,?_,?_,hc.ordered⟩
    · intro i st hi
      rcases (get_append _ _ _ _).mp hi with hi | ⟨-,rfl⟩
      · exact hc.counter i st hi
      · change 1 ≤ 1+hist.length ∧ ∀ o ∈ handed id hist, o ≤ 1
        rw [hc.absent id absent]
        simp
    · intro x hx
      exact hc.absent x (fun i st hi => hx i st ((get_append _ _ _ _).mpr (Or.inl hi)))

theorem call_results (W : JsonWriter) (st : Stripe) (h : Host) (c : Call) :
    (∃ e, (st.call W h c).1.outcome = .stopped e ∧ handedOut (st.call W h c).1 = []) ∨
    ((st.call W h c).1.outcome = .rejected ∧ handedOut (st.call W h c).1 = [0]) ∨
    ((st.call W h c).1.outcome = .wrote (st.assign c.offset).1 ∧
      handedOut (st.call W h c).1 = [(st.assign c.offset).1]) := by
  obtain ⟨reply,st',h',heq,he⟩ := Stripe.call_effect W st h c
  rw [heq]
  cases he with
  | rejected large => exact Or.inr (Or.inl ⟨rfl,rfl⟩)
  | stopped e last d small kept grown hung => exact Or.inl ⟨e,rfl,rfl⟩
  | appended f small isOpen fits => exact Or.inr (Or.inr ⟨rfl,rfl⟩)
  | rolled n d small needed second fresh below mem grown plain => exact Or.inr (Or.inr ⟨rfl,rfl⟩)

theorem next_counter (st : Stripe) (n : ℕ) (hu : st.lastOffset.toNat ≤ 1+n)
    (hn : n+1 < 2^64-2) : (st.lastOffset+1).toNat = st.lastOffset.toNat+1 := by
  rw [UInt64.toNat_add]
  exact Nat.mod_eq_of_lt (by change _ + 1 < 2^64; omega)

theorem auto_results (W : JsonWriter) (st : Stripe) (h : Host) (c : Call)
    (ha : c.offset = uint64Max) : ∀ o ∈ (handedOut (st.call W h c).1).filter (· ≠ 0),
      o = st.lastOffset+1 := by
  have hassign : (st.assign c.offset).1 = st.lastOffset+1 := by simp [Stripe.assign, ha]
  intro o ho
  obtain ⟨hm,hz⟩ := List.mem_filter.mp ho
  rcases call_results W st h c with ⟨e,-,hr⟩ | ⟨-,hr⟩ | ⟨-,hr⟩
  · simp [hr] at hm
  · rw [hr, List.mem_singleton] at hm
    simp [hm] at hz
  · rwa [hr, List.mem_singleton, hassign] at hm

theorem auto_ordered (W : JsonWriter) (st : Stripe) (h : Host) (c : Call) :
    ((handedOut (st.call W h c).1).filter (· ≠ 0)).Pairwise (· < ·) := by
  apply List.Pairwise.filter
  rcases call_results W st h c with ⟨e,-,hr⟩ | ⟨-,hr⟩ | ⟨-,hr⟩ <;> simp [hr]

theorem counted_write (W : JsonWriter) (hc : Counted s hist) (k : ℕ) (c : Call) (op : Op)
    (ha : c.offset = uint64Max) (hlen : hist.length+1 < 2^64-2) :
    Counted (s.write W k c).2 (hist++[(op,(s.write W k c).1)]) := by
  have hreg := write_registered W s k c hc.registered
  cases hk : s.heap[k]? with
  | none =>
    rw [write_none W s k c hk]
    exact counted_quiet hc op
  | some st =>
    rw [write_some W s k c hk] at hreg ⊢
    obtain ⟨hu,hb⟩ := hc.counter k st hk
    have hnext := next_counter st hist.length hu hlen
    have hlast : (st.call W s.host c).2.1.lastOffset = st.lastOffset+1 := by
      rw [Stripe.call_counter]
      simp [Stripe.assign, ha]
    have hlt : ∀ o ∈ handed st.id hist, o < st.lastOffset+1 := by
      intro o ho
      have hle := UInt64.le_iff_toNat_le.mp (hb o ho)
      rw [UInt64.lt_iff_toNat_lt]
      omega
    have hsame := auto_results W st s.host c ha
    refine ⟨sound_call W s.host c hc.sound hk,hreg,?_,?_,?_⟩
    · intro i su hi
      rw [get_set hk] at hi
      rw [handed_some, List.length_append]
      split at hi
      · obtain rfl := Option.some.inj hi
        rw [Stripe.call_id, if_pos rfl, hlast]
        refine ⟨by simp only [List.length_singleton]; omega,fun o ho => ?_⟩
        rcases List.mem_append.mp ho with ho | ho
        · exact UInt64.le_of_lt (hlt o ho)
        · rw [hsame o ho]
          exact UInt64.le_refl _
      · rename_i hne
        have hid : st.id ≠ su.id := fun hid => hne (registered_unique hc.registered hi hk hid.symm)
        obtain ⟨hu',hb'⟩ := hc.counter i su hi
        rw [if_neg hid, List.append_nil]
        exact ⟨by omega,hb'⟩
    · intro id hid
      have hne : st.id ≠ id := by
        have := hid k _ (by rw [get_set hk, if_pos rfl])
        rwa [Stripe.call_id] at this
      rw [handed_some, if_neg hne, List.append_nil]
      apply hc.absent
      intro i su hi
      by_cases hik : i = k
      · rw [hik, hk] at hi
        rwa [← Option.some.inj hi]
      · exact hid i su (by rw [get_set hk, if_neg hik, hi])
    · intro id
      rw [handed_some]
      split
      · rename_i hid
        obtain rfl : st.id = id := hid
        rw [List.pairwise_append]
        refine ⟨hc.ordered st.id,auto_ordered W st s.host c,fun a ho b hb => ?_⟩
        rw [hsame b hb]
        exact hlt a ho
      · rw [List.append_nil]
        exact hc.ordered id

theorem counted_step (W : JsonWriter) (w : World) (hc : Counted w.storage hist) (op : Op)
    (ha : op.auto = true) (hlen : hist.length+1 < 2^64-2) :
    Counted (step W w op).2.storage (hist++[(op,(step W w op).1)]) := by
  cases op with
  | publish id key data localtime =>
    exact counted_write W (counted_stripe hc id) _ _ _ rfl hlen
  | writer name id => exact counted_quiet (counted_stripe hc id) _
  | handle name c =>
    unfold step
    dsimp only
    cases hn : w.handles name with
    | none => exact counted_quiet hc _
    | some k => exact counted_write W hc k c _ (by simpa [Op.auto] using ha) hlen

theorem run_counted (W : JsonWriter) (h : Host) (ops : List Op) (ha : ∀ op ∈ ops, op.auto = true)
    (hlen : ops.length < 2^64-2) :
    Counted (final (step W) (World.fresh h) ops).storage
      (history (step W) (World.fresh h) ops) := by
  induction ops using List.reverseRecOn with
  | nil => exact counted_fresh h
  | append_singleton ops op ih =>
    rw [List.length_append, List.length_singleton] at hlen
    rw [final_concat, history_concat]
    apply counted_step W _ (ih (fun o ho => ha o (by simp [ho])) (by omega)) op (ha op (by simp))
    rwa [← List.length_map, history_events]

def StepTruthful (W : JsonWriter) (w : World) (op : Op) : Prop :=
  match (step W w op).1 with
  | none => (step W w op).2.storage.host = w.storage.host
  | some a => Truthful W w.storage.host.disk (step W w op).2.storage.host.disk a

theorem call_truthful (W : JsonWriter) (st : Stripe) (h : Host) (c : Call)
    (ha : st.Aligned h.disk) (hne : (st.assign c.offset).1 ≠ 0) :
    Truthful W h.disk (st.call W h c).2.2.disk
      ⟨st.id,c,(st.call W h c).1,handedOut (st.call W h c).1⟩ := by
  have hsilent := step_silent W (st,h) c
  have hstores := call_stores W h c ha (c.record (st.assign c.offset).1)
  rw [show stripeStep W (st,h) c = st.call W h c from rfl] at hsilent
  rcases call_results W st h c with ⟨e,ho,hr⟩ | ⟨ho,hr⟩ | ⟨ho,hr⟩ <;>
    simp only [Truthful, stored, ho, hr] at hsilent hstores ⊢
  · exact ⟨trivial,hsilent trivial⟩
  · exact ⟨0,rfl,⟨fun _ => ⟨trivial,hsilent trivial⟩,fun _ => rfl⟩,fun h0 => absurd rfl h0⟩
  · refine ⟨_,rfl,⟨fun h0 => absurd h0 hne,fun hx => ?_⟩,fun _ => hstores trivial⟩
    cases hx.1

theorem write_truthful (W : JsonWriter) (hc : Counted s hist) (k : ℕ) (c : Call)
    (ha : c.offset = uint64Max) (hlen : hist.length+1 < 2^64-2) :
    match (s.write W k c).1 with
    | none => (s.write W k c).2.host = s.host
    | some a => Truthful W s.host.disk (s.write W k c).2.host.disk a := by
  cases hk : s.heap[k]? with
  | none => rw [write_none W s k c hk]
  | some st =>
    rw [write_some W s k c hk]
    apply call_truthful W st s.host c (hc.sound.aligned k st hk)
    have hnext := next_counter st hist.length (hc.counter k st hk).1 hlen
    intro h0
    simp only [Stripe.assign, ha, if_true] at h0
    rw [h0] at hnext
    exact absurd hnext (by simp)

theorem step_truthful (W : JsonWriter) (w : World) (hc : Counted w.storage hist) (op : Op)
    (ha : op.auto = true) (hlen : hist.length+1 < 2^64-2) : StepTruthful W w op := by
  cases op with
  | publish id key data localtime =>
    have hw := write_truthful W (counted_stripe hc id) (w.storage.stripe id).1
      ⟨uint64Max,key,data,localtime⟩ rfl hlen
    rwa [stripe_host] at hw
  | writer name id => exact stripe_host _ _
  | handle name c =>
    unfold StepTruthful step
    dsimp only
    cases hn : w.handles name with
    | none => rfl
    | some k => exact write_truthful W hc k c (by simpa [Op.auto] using ha) hlen

/-- In every run of publishes and handle calls that ask for offsets, the
nonzero offsets handed out for each stripe id increase. Each event is served
by the stripe it names; a value of zero means that the record was rejected
and nothing written, and any other value is the offset inside the record that
the call appended. -/
theorem offsets_assigned (W : JsonWriter) (h : Host) (ops : List Op)
    (ha : ∀ op ∈ ops, op.auto = true) (hlen : ops.length < 2^64-2) :
    (∀ id, (handed id (history (step W) (World.fresh h) ops)).Pairwise (· < ·)) ∧
    EveryStep (fun before op =>
      let w := final (step W) (World.fresh h) before
      (step W w op).1.map (fun a => (a.id,a.call)) = asked before op ∧ StepTruthful W w op)
      ops := by
  refine ⟨(run_counted W h ops ha hlen).ordered,?_⟩
  rintro before op after rfl
  simp only [List.length_append, List.length_cons] at hlen
  have hc := run_counted W h before (fun o ho => ha o (by simp [ho])) (by omega)
  refine ⟨step_serves W h before op,step_truthful W _ hc op (ha op (by simp)) ?_⟩
  rw [← List.length_map, history_events]
  omega

theorem offsets_assigned_shared :
    let ops : List Op := [.publish (ascii "s") [] [] [],.writer 0 (ascii "s"),
      .handle 0 ⟨uint64Max,[],[],[]⟩]
    let hist := history (step (.library true)) (World.fresh (.still [] 0)) ops
    handed (ascii "s") hist = [2,3] ∧ (handed (ascii "s") hist).Pairwise (· < ·) := by
  intro ops hist
  have ho := (offsets_assigned (.library true) (.still [] 0) ops (by decide) (by decide)).1
  exact ⟨by decide,ho (ascii "s")⟩

end RethinkLog.Storage
