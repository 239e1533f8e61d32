import RethinkLog.Storage

/-!
# Stripes do not interfere

What a storage answers for one stripe id depends on nothing but the calls for
that id. The run of these calls alone, on a fresh storage over any disk and
clock, gives the same results and the same records, while neither run fails
in the filesystem.
-/

set_option autoImplicit false

namespace RethinkLog.Storage
open StripeHeap LogIntegrity Machine

def concerns (id : Bytes) (held : ℕ → Option Bytes) : Op → Bool
  | .publish x _ _ _ => x = id
  | .writer _ x => x = id
  | .handle name _ => held name = some id

def only (id : Bytes) : (ℕ → Option Bytes) → List Op → List Op
  | _, [] => []
  | held, op::ops => if concerns id held op then op :: only id (hold held op) ops
      else only id (hold held op) ops

def served (id : Bytes) (hist : List (Op × Option Answer)) : List Answer :=
  hist.filterMap (fun x => x.2.filter (fun a => a.id = id))

def results (id : Bytes) (hist : List (Op × Option Answer)) : List UInt64 :=
  (served id hist).flatMap Answer.results

def records (id : Bytes) (hist : List (Op × Option Answer)) : List Record :=
  (served id hist).filterMap (fun a => stored (a.call,a.reply))

def Unfailing (o : Option Answer) : Prop := ∀ a ∈ o, a.reply.outcome.thrown = false

theorem unfailing_some (a : Answer) :
    Unfailing (some a) ↔ a.reply.outcome.thrown = false := by simp [Unfailing]

instance : DecidablePred Unfailing := fun o =>
  inferInstanceAs (Decidable (∀ a ∈ o, a.reply.outcome.thrown = false))

def counter (s : Storage) (id : Bytes) : UInt64 :=
  ((s.stripes.lookup id).bind (fun k => s.heap[k]?)).elim 1 Stripe.lastOffset

theorem counter_get {s : Storage} (hr : Registered s) {k : ℕ} {st : Stripe}
    (hk : s.heap[k]? = some st) : s.counter st.id = st.lastOffset := by
  simp only [counter, (hr st.id k).mpr ⟨st,hk,rfl⟩, Option.bind_some, hk, Option.elim_some]

theorem counter_absent {s : Storage} (hr : Registered s) {id : Bytes}
    (ha : ∀ (k : ℕ) (st : Stripe), s.heap[k]? = some st → st.id ≠ id) : s.counter id = 1 := by
  cases hl : s.stripes.lookup id with
  | none => simp only [counter, hl, Option.bind_none, Option.elim_none]
  | some k =>
    obtain ⟨st,hk,hid⟩ := (hr id k).mp hl
    exact absurd hid (ha k st hk)

theorem counter_stripe {s : Storage} (hr : Registered s) (x id : Bytes) :
    (s.stripe x).2.counter id = s.counter id := by
  have hreg := stripe_registered s x hr
  obtain ⟨k,t,heq,hf⟩ := stripe_found s x hr
  rw [heq] at hreg ⊢
  cases hf with
  | known k st get named => rfl
  | made absent =>
    by_cases hx : ∃ (k : ℕ) (st : Stripe), s.heap[k]? = some st ∧ st.id = id
    · obtain ⟨k,st,hk,rfl⟩ := hx
      rw [counter_get hr hk]
      exact counter_get hreg ((get_append _ _ _ _).mpr (Or.inl hk))
    · have ha : ∀ (k : ℕ) (st : Stripe), s.heap[k]? = some st → st.id ≠ id :=
        fun k st hk hid => hx ⟨k,st,hk,hid⟩
      rw [counter_absent hr ha]
      by_cases hid : x = id
      · subst hid
        exact counter_get hreg ((get_append _ _ _ _).mpr (Or.inr ⟨rfl,rfl⟩))
      · apply counter_absent hreg
        intro i st hi
        rcases (get_append _ _ _ _).mp hi with hi | ⟨-,rfl⟩
        · exact ha i st hi
        · exact hid

theorem counter_write (W : JsonWriter) {s : Storage} (hr : Registered s) {k : ℕ} {st : Stripe}
    (hk : s.heap[k]? = some st) (c : Call) (id : Bytes) : (s.write W k c).2.counter id =
      if st.id = id then (st.assign c.offset).2.lastOffset else s.counter id := by
  have hreg := write_registered W s k c hr
  rw [write_some W s k c hk] at hreg ⊢
  split
  · rename_i hid
    have hg := counter_get hreg ((get_set hk _ k).trans (if_pos rfl))
    rwa [Stripe.call_id, Stripe.call_counter, hid] at hg
  · rename_i hid
    simp only [counter]
    cases hl : s.stripes.lookup id with
    | none => rfl
    | some i =>
      obtain ⟨su,hi,hsu⟩ := (hr id i).mp hl
      have hik : i ≠ k := by
        rintro rfl
        rw [hk] at hi
        exact hid ((congrArg Stripe.id (Option.some.inj hi)).trans hsu)
      simp only [Option.bind_some, get_set hk, if_neg hik]

/-- What one observer of a stripe sees of an answer. -/
def seen (id : Bytes) (o : Option Answer) : List (List UInt64 × Option Record) :=
  (o.filter (fun a => a.id = id)).toList.map (fun a => (a.results,stored (a.call,a.reply)))

theorem seen_some (id : Bytes) (a : Answer) : seen id (some a) =
    if a.id = id then [(a.results,stored (a.call,a.reply))] else [] := by
  by_cases h : a.id = id <;> simp [seen, Option.filter, h]

theorem seen_served (id : Bytes) (hist : List (Op × Option Answer)) :
    (hist.map Prod.snd).flatMap (seen id) =
      (served id hist).map (fun a => (a.results,stored (a.call,a.reply))) := by
  induction hist with
  | nil => rfl
  | cons x hist ih =>
    rw [List.map_cons, List.flatMap_cons, ih]
    simp only [served, seen, List.filterMap_cons]
    cases hx : x.2.filter (fun a => a.id = id) <;> simp

theorem call_alike (W : JsonWriter) (st su : Stripe) (h h' : Host) (c : Call)
    (hn : st.Named) (hn' : su.Named) (hid : st.id = su.id)
    (hl : st.lastOffset = su.lastOffset) (hok : (st.call W h c).1.outcome.thrown = false)
    (hok' : (su.call W h' c).1.outcome.thrown = false) :
    (st.call W h c).1.outcome = (su.call W h' c).1.outcome := by
  have ha : (st.assign c.offset).1 = (su.assign c.offset).1 := by
    unfold Stripe.assign
    split <;> simp [hl]
  have hr : st.room W c = su.room W c := by rw [Stripe.room, Stripe.room, Stripe.record, ha]; rfl
  rw [Stripe.call_outcome W st h c hn hok, Stripe.call_outcome W su h' c hn' hok', ha, hr, hid]

/-- The whole storage and the one that saw one stripe's events only. -/
structure Alike (id : Bytes) (w t : World) : Prop where
  valid : Valid w
  alone : Valid t
  held : ∀ name, w.held name = some id → t.held name = some id
  counter : w.storage.counter id = t.storage.counter id

theorem write_alike (W : JsonWriter) {s t : Storage} (hs : Registered s) (ht : Registered t)
    (hn : ∀ st ∈ s.heap, st.Named) (hn' : ∀ st ∈ t.heap, st.Named)
    {i j : ℕ} {st su : Stripe} (hi : s.heap[i]? = some st) (hj : t.heap[j]? = some su)
    (hid : st.id = su.id) (hc : s.counter st.id = t.counter st.id) (c : Call)
    (hok : Unfailing (s.write W i c).1) (hok' : Unfailing (t.write W j c).1) :
    seen st.id (s.write W i c).1 = seen st.id (t.write W j c).1 ∧
      (s.write W i c).2.counter st.id = (t.write W j c).2.counter st.id := by
  have hl : st.lastOffset = su.lastOffset := by
    rw [← counter_get hs hi, ← counter_get ht hj, hc, hid]
  rw [counter_write W hs hi, counter_write W ht hj, if_pos rfl, if_pos hid.symm]
  rw [write_some W s i c hi] at hok ⊢
  rw [write_some W t j c hj] at hok' ⊢
  rw [unfailing_some] at hok hok'
  have ho := call_alike W st su s.host t.host c (hn st (List.mem_of_getElem? hi))
    (hn' su (List.mem_of_getElem? hj)) hid hl hok hok'
  constructor
  · rw [seen_some, seen_some, if_pos rfl, if_pos hid.symm]
    simp only [handedOut, stored, ho]
  · unfold Stripe.assign
    split <;> simp [hl]

theorem write_unseen (W : JsonWriter) {s : Storage} (hr : Registered s) {k : ℕ} {st : Stripe}
    (hk : s.heap[k]? = some st) (c : Call) {id : Bytes} (hid : st.id ≠ id) :
    seen id (s.write W k c).1 = [] ∧ (s.write W k c).2.counter id = s.counter id := by
  rw [counter_write W hr hk, if_neg hid, write_some W s k c hk]
  exact ⟨by rw [seen_some, if_neg hid],rfl⟩

theorem held_get {w : World} {name : ℕ} {id : Bytes} (hh : w.held name = some id) :
    ∃ k st, w.handles name = some k ∧ w.storage.heap[k]? = some st ∧ st.id = id := by
  obtain ⟨k,hk,hm⟩ := Option.bind_eq_some_iff.mp hh
  obtain ⟨st,hg,hid⟩ := Option.map_eq_some_iff.mp hm
  exact ⟨k,st,hk,hg,hid⟩

theorem alike_keep (W : JsonWriter) (id : Bytes) (w t : World) (op : Op) (ha : Alike id w t)
    (hk : concerns id w.held op = true) (hok : Unfailing (step W w op).1)
    (hok' : Unfailing (step W t op).1) :
    seen id (step W w op).1 = seen id (step W t op).1 ∧
      Alike id (step W w op).2 (step W t op).2 := by
  have hv := valid_step W w ha.valid op
  have hv' := valid_step W t ha.alone op
  have hh : ∀ name, (step W w op).2.held name = some id → (step W t op).2.held name = some id := by
    intro name
    rw [held_step W w ha.valid op, held_step W t ha.alone op]
    cases op with
    | writer n x =>
      simp only [hold, Function.update_apply]
      split
      · exact fun h => h
      · exact ha.held name
    | _ => exact ha.held name
  suffices h : seen id (step W w op).1 = seen id (step W t op).1 ∧
      (step W w op).2.storage.counter id = (step W t op).2.storage.counter id from
    ⟨h.1,hv,hv',hh,h.2⟩
  cases op with
  | publish x key data localtime =>
    obtain rfl : x = id := by simpa [concerns] using hk
    obtain ⟨st,hg,rfl⟩ := stripe_get w.storage x ha.valid.registered
    obtain ⟨su,hg',hid⟩ := stripe_get t.storage st.id ha.alone.registered
    apply write_alike W (stripe_registered _ _ ha.valid.registered)
      (stripe_registered _ _ ha.alone.registered) (stripe_named ha.valid.named _)
      (stripe_named ha.alone.named _) hg hg' hid.symm ?_ _ hok hok'
    rw [counter_stripe ha.valid.registered, counter_stripe ha.alone.registered, ha.counter]
  | writer name x =>
    refine ⟨rfl,?_⟩
    change (w.storage.stripe x).2.counter id = (t.storage.stripe x).2.counter id
    rw [counter_stripe ha.valid.registered, counter_stripe ha.alone.registered, ha.counter]
  | handle name c =>
    have hw : w.held name = some id := by simpa [concerns] using hk
    obtain ⟨k,st,hn,hg,rfl⟩ := held_get hw
    obtain ⟨i,su,hn',hg',hid⟩ := held_get (ha.held name hw)
    simp only [step, hn, hn'] at hok hok' ⊢
    exact write_alike W ha.valid.registered ha.alone.registered ha.valid.named ha.alone.named
      hg hg' hid.symm ha.counter c hok hok'

theorem alike_skip (W : JsonWriter) (id : Bytes) (w t : World) (op : Op) (ha : Alike id w t)
    (hk : concerns id w.held op = false) :
    seen id (step W w op).1 = [] ∧ Alike id (step W w op).2 t := by
  have hv := valid_step W w ha.valid op
  have hh : ∀ name, (step W w op).2.held name = some id → t.held name = some id := by
    intro name
    rw [held_step W w ha.valid op]
    cases op with
    | writer n x =>
      have hx : x ≠ id := by simpa [concerns] using hk
      simp only [hold, Function.update_apply]
      split
      · exact fun h => absurd (Option.some.inj h) hx
      · exact ha.held name
    | _ => exact ha.held name
  suffices h : seen id (step W w op).1 = [] ∧
      (step W w op).2.storage.counter id = w.storage.counter id from
    ⟨h.1,hv,ha.alone,hh,h.2.trans ha.counter⟩
  cases op with
  | publish x key data localtime =>
    have hx : x ≠ id := by simpa [concerns] using hk
    obtain ⟨st,hg,rfl⟩ := stripe_get w.storage x ha.valid.registered
    have hu := write_unseen W (stripe_registered _ _ ha.valid.registered) hg
      ⟨uint64Max,key,data,localtime⟩ hx
    rwa [counter_stripe ha.valid.registered] at hu
  | writer name x => exact ⟨rfl,counter_stripe ha.valid.registered x id⟩
  | handle name c =>
    have hw : w.held name ≠ some id := by simpa [concerns] using hk
    simp only [step]
    cases hn : w.handles name with
    | none => exact ⟨rfl,rfl⟩
    | some k =>
      have hg := List.getElem?_eq_getElem (ha.valid.bound name k hn)
      refine write_unseen W ha.valid.registered hg c (fun hid => hw ?_)
      simp only [World.held, hn, Option.bind_some, hg, Option.map_some, hid]

theorem kept_only (W : JsonWriter) (id : Bytes) (w : World) (hv : Valid w) (ops : List Op) :
    kept (step W) (fun v op => concerns id v.held op) w ops = only id w.held ops := by
  induction ops generalizing w with
  | nil => rfl
  | cons op ops ih => rw [kept, only, ih _ (valid_step W w hv op), held_step W w hv op]

/-- For every stripe id, the results and the records of a run are those of
the run of this stripe's events alone, on a fresh storage of its own, if no
filesystem call fails; and no storage ever has two objects for one id. -/
theorem stripes_isolated (W : JsonWriter) (h h' : Host) (id : Bytes) (ops : List Op)
    (hok : ∀ a ∈ answers (step W) (World.fresh h) ops, Unfailing a)
    (hok' : ∀ a ∈ answers (step W) (World.fresh h') (only id (fun _ => none) ops), Unfailing a) :
    let whole := history (step W) (World.fresh h) ops
    let alone := history (step W) (World.fresh h') (only id (fun _ => none) ops)
    results id whole = results id alone ∧ records id whole = records id alone ∧
      ((final (step W) (World.fresh h) ops).storage.heap.map Stripe.id).Nodup := by
  intro whole alone
  have hw := (run_valid W h []).1
  have ht := (run_valid W h' []).1
  have hkept := kept_only W id (World.fresh h) hw ops
  rw [show (World.fresh h).held = fun _ => none from rfl] at hkept
  have hp := projection (step W) (fun v op => concerns id v.held op) (step W) (Alike id) Unfailing
    (seen id) (alike_keep W id) (fun v t op ha hk _ => alike_skip W id v t op ha hk) ops
    (World.fresh h) (World.fresh h') ⟨hw,ht,fun _ hn => hn,rfl⟩ hok (by rwa [hkept])
  rw [hkept] at hp
  have hsame : (served id whole).map (fun a => (a.results,stored (a.call,a.reply))) =
      (served id alone).map (fun a => (a.results,stored (a.call,a.reply))) := by
    rw [← seen_served, ← seen_served]
    exact hp
  refine ⟨?_,?_,registered_nodup (run_valid W h ops).1.registered⟩
  · have hm := congrArg (List.flatMap Prod.fst) hsame
    rwa [List.flatMap_map, List.flatMap_map] at hm
  · have hm := congrArg (List.filterMap Prod.snd) hsame
    rwa [List.filterMap_map, List.filterMap_map] at hm

theorem stripes_isolated_pair :
    let ops : List Op := [.writer 0 (ascii "a"),.publish (ascii "b") [] [] [],
      .handle 0 ⟨7,[],[],[]⟩,.publish (ascii "a") [] [] [],.handle 0 ⟨uint64Max,[],[],[]⟩]
    let w := World.fresh (.still [] 0)
    let whole := history (step (.library true)) w ops
    let alone := history (step (.library true)) w (only (ascii "a") (fun _ => none) ops)
    results (ascii "a") whole = [7,2,3] ∧
      results (ascii "a") whole = results (ascii "a") alone := by
  intro ops w whole alone
  have hi := stripes_isolated (.library true) (.still [] 0) (.still [] 0) (ascii "a") ops
    (by decide) (by decide)
  exact ⟨by decide,hi.1⟩

end RethinkLog.Storage
