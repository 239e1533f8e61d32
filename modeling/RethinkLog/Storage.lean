import RethinkLog.StripeHeap

/-!
# Storage and the handles of its writers

A storage makes a stripe object when its id is first asked for, by a publish
or by a writer, and finds the same object from then on. A writer handle keeps
the object it was made for. The events of a run are publishes, new handles
under names chosen by the caller, and calls of handles.
-/

set_option autoImplicit false

namespace RethinkLog
open StripeHeap

def masterStripes : List Bytes := []

def replicaStripes : List Bytes := []

structure Storage where
  heap : List Stripe
  stripes : List (Bytes × ℕ)
  host : Host

/-- What a stripe object did for a caller: the call it received, its reply,
and the values handed out, to `whendone_` or as a return value. -/
structure Answer where
  id : Bytes
  call : Call
  reply : Reply
  results : List UInt64
  deriving DecidableEq, Repr

def handedOut (r : Reply) : List UInt64 :=
  match r.outcome.value with
  | .ok offset => [offset]
  | .error _ => []

namespace Storage

def stripe (s : Storage) (id : Bytes) : ℕ × Storage :=
  match s.stripes.lookup id with
  | some k => (k, s)
  | none => (s.heap.length,
      { s with heap := s.heap ++ [Stripe.create id], stripes := (id,s.heap.length) :: s.stripes })

/-- `Storage::Storage` -/
def make (h : Host) : Storage :=
  (masterStripes ++ replicaStripes).foldl (fun s id => (s.stripe id).2) ⟨[],[],h⟩

def write (W : JsonWriter) (s : Storage) (k : ℕ) (c : Call) : Option Answer × Storage :=
  match s.heap[k]? with
  | none => (none, s)
  | some st =>
    let r := st.call W s.host c
    (some ⟨st.id,c,r.1,handedOut r.1⟩, { s with heap := s.heap.set k r.2.1, host := r.2.2 })

def publish (W : JsonWriter) (s : Storage) (id key data localtime : Bytes) :
    Option Answer × Storage :=
  write W (s.stripe id).2 (s.stripe id).1 ⟨uint64Max,key,data,localtime⟩

def writer (s : Storage) (id : Bytes) : ℕ × Storage := s.stripe id

inductive Op where
  | publish (id key data localtime : Bytes)
  | writer (name : ℕ) (id : Bytes)
  | handle (name : ℕ) (c : Call)
  deriving DecidableEq, Repr

structure World where
  storage : Storage
  handles : ℕ → Option ℕ

def World.fresh (h : Host) : World := ⟨make h,fun _ => none⟩

def step (W : JsonWriter) (w : World) : Op → Option Answer × World
  | .publish id key data localtime =>
    ((w.storage.publish W id key data localtime).1,
      { w with storage := (w.storage.publish W id key data localtime).2 })
  | .writer name id => (none, ⟨(w.storage.writer id).2,
      Function.update w.handles name (some (w.storage.writer id).1)⟩)
  | .handle name c => match w.handles name with
    | none => (none, w)
    | some k => ((w.storage.write W k c).1, { w with storage := (w.storage.write W k c).2 })

/-- The map finds exactly the objects that exist, each under its id. -/
def Registered (s : Storage) : Prop :=
  ∀ id k, s.stripes.lookup id = some k ↔ ∃ st, s.heap[k]? = some st ∧ st.id = id

theorem registered_unique {s : Storage} (hr : Registered s) {i j : ℕ} {a b : Stripe}
    (ha : s.heap[i]? = some a) (hb : s.heap[j]? = some b) (hid : a.id = b.id) : i = j := by
  have hi := (hr a.id i).mpr ⟨a,ha,rfl⟩
  have hj := (hr a.id j).mpr ⟨b,hb,hid.symm⟩
  rw [hi] at hj
  exact Option.some.inj hj

theorem registered_nodup {s : Storage} (hr : Registered s) : (s.heap.map Stripe.id).Nodup := by
  rw [List.nodup_iff_getElem?_ne_getElem?]
  intro i j hij hj heq
  rw [List.length_map] at hj
  have hi : i < s.heap.length := by omega
  simp only [List.getElem?_map, List.getElem?_eq_getElem hi, List.getElem?_eq_getElem hj,
    Option.map_some, Option.some.injEq] at heq
  exact absurd (registered_unique hr (List.getElem?_eq_getElem hi) (List.getElem?_eq_getElem hj)
    heq) (by omega)

inductive Found (s : Storage) (id : Bytes) : ℕ → Storage → Prop
  | known (k : ℕ) (st : Stripe) (get : s.heap[k]? = some st) (named : st.id = id) :
      Found s id k s
  | made (absent : ∀ (k : ℕ) (st : Stripe), s.heap[k]? = some st → st.id ≠ id) :
      Found s id s.heap.length { s with
        heap := s.heap ++ [Stripe.create id], stripes := (id,s.heap.length) :: s.stripes }

theorem stripe_found (s : Storage) (id : Bytes) (hr : Registered s) :
    ∃ k t, s.stripe id = (k,t) ∧ Found s id k t := by
  unfold stripe
  split
  · rename_i k hk
    obtain ⟨st,hg,hn⟩ := (hr id k).mp hk
    exact ⟨_,_,rfl,.known k st hg hn⟩
  · rename_i hk
    refine ⟨_,_,rfl,.made (fun k st hg hn => ?_)⟩
    rw [(hr id k).mpr ⟨st,hg,hn⟩] at hk
    cases hk

theorem get_append (heap : List Stripe) (id : Bytes) (k : ℕ) (st : Stripe) :
    (heap ++ [Stripe.create id])[k]? = some st ↔
      heap[k]? = some st ∨ k = heap.length ∧ st = Stripe.create id := by
  rcases Nat.lt_trichotomy k heap.length with hk | rfl | hk
  · rw [List.getElem?_append_left hk]
    constructor
    · exact Or.inl
    · rintro (h | ⟨rfl,-⟩)
      · exact h
      · omega
  · simp [eq_comm]
  · rw [List.getElem?_eq_none (by simp; omega), List.getElem?_eq_none (by omega)]
    simp
    omega

theorem stripe_registered (s : Storage) (id : Bytes) (hr : Registered s) :
    Registered (s.stripe id).2 := by
  obtain ⟨k,t,heq,hf⟩ := stripe_found s id hr
  rw [heq]
  cases hf with
  | known k st get named => exact hr
  | made absent =>
    intro x i
    simp only [get_append, List.lookup_cons]
    by_cases hx : x = id
    · subst hx
      simp only [beq_self_eq_true, Option.some.injEq]
      constructor
      · rintro rfl
        exact ⟨_,Or.inr ⟨rfl,rfl⟩,rfl⟩
      · rintro ⟨st,hg | ⟨rfl,-⟩,hn⟩
        · exact absurd hn (absent i st hg)
        · rfl
    · rw [beq_eq_false_iff_ne.mpr hx]
      simp only [hr x i]
      constructor
      · rintro ⟨st,hg,hn⟩
        exact ⟨st,Or.inl hg,hn⟩
      · rintro ⟨st,hg | ⟨-,rfl⟩,hn⟩
        · exact ⟨st,hg,hn⟩
        · exact absurd hn.symm hx

theorem write_none (W : JsonWriter) (s : Storage) (k : ℕ) (c : Call) (hk : s.heap[k]? = none) :
    s.write W k c = (none,s) := by simp only [write, hk]

theorem write_some (W : JsonWriter) (s : Storage) (k : ℕ) (c : Call) {st : Stripe}
    (hk : s.heap[k]? = some st) : s.write W k c =
      (some ⟨st.id,c,(st.call W s.host c).1,handedOut (st.call W s.host c).1⟩,
        ⟨s.heap.set k (st.call W s.host c).2.1,s.stripes,(st.call W s.host c).2.2⟩) := by
  simp only [write, hk]

theorem write_registered (W : JsonWriter) (s : Storage) (k : ℕ) (c : Call) (hr : Registered s) :
    Registered (s.write W k c).2 := by
  cases hk : s.heap[k]? with
  | none => rwa [write_none W s k c hk]
  | some st =>
    rw [write_some W s k c hk]
    intro id i
    rw [show s.stripes.lookup id = some i ↔ _ from hr id i]
    simp only [get_set hk]
    split
    · rename_i hi
      subst hi
      simp [hk, Stripe.call_id]
    · rfl

structure Valid (w : World) : Prop where
  registered : Registered w.storage
  bound : ∀ name k, w.handles name = some k → k < w.storage.heap.length
  named : ∀ st ∈ w.storage.heap, st.Named

def World.held (w : World) (name : ℕ) : Option Bytes :=
  (w.handles name).bind (fun k => w.storage.heap[k]?.map Stripe.id)

def hold (held : ℕ → Option Bytes) : Op → ℕ → Option Bytes
  | .writer name id => Function.update held name (some id)
  | _ => held

def holder (ops : List Op) : ℕ → Option Bytes := ops.foldl hold (fun _ => none)

def asked (before : List Op) : Op → Option (Bytes × Call)
  | .publish id key data localtime => some (id,⟨uint64Max,key,data,localtime⟩)
  | .writer _ _ => none
  | .handle name c => (holder before name).map (fun id => (id,c))

theorem stripe_get (s : Storage) (id : Bytes) (hr : Registered s) :
    ∃ st, (s.stripe id).2.heap[(s.stripe id).1]? = some st ∧ st.id = id := by
  obtain ⟨k,t,heq,hf⟩ := stripe_found s id hr
  rw [heq]
  cases hf with
  | known k st get named => exact ⟨st,get,named⟩
  | made absent => exact ⟨_,(get_append _ _ _ _).mpr (Or.inr ⟨rfl,rfl⟩),rfl⟩

def serving (s : Storage) (id : Bytes) : Stripe :=
  ((s.stripe id).2.heap[(s.stripe id).1]?).getD (Stripe.create id)

theorem serving_get {s : Storage} (id : Bytes) (hr : Registered s) :
    (s.stripe id).2.heap[(s.stripe id).1]? = some (s.serving id) ∧ (s.serving id).id = id := by
  obtain ⟨st,hg,hid⟩ := stripe_get s id hr
  rw [serving, hg, Option.getD_some]
  exact ⟨rfl,hid⟩

theorem stripe_host (s : Storage) (id : Bytes) : (s.stripe id).2.host = s.host := by
  unfold stripe
  split <;> rfl

theorem serving_found {s : Storage} {id : Bytes} {k : ℕ} {st : Stripe} (hr : Registered s)
    (hk : s.heap[k]? = some st) (hid : st.id = id) : s.serving id = st := by
  have hl := (hr id k).mpr ⟨st,hk,hid⟩
  simp only [serving, stripe, hl, hk, Option.getD_some]

theorem publish_serves (W : JsonWriter) (s : Storage) (id key data localtime : Bytes)
    (hr : Registered s) :
    let c : Call := ⟨uint64Max,key,data,localtime⟩
    let r := (s.serving id).call W s.host c
    (s.publish W id key data localtime).1 = some ⟨id,c,r.1,handedOut r.1⟩ ∧
    (s.publish W id key data localtime).2.serving id = r.2.1 ∧
    (s.publish W id key data localtime).2.host = r.2.2 ∧
    Registered (s.publish W id key data localtime).2 := by
  intro c r
  obtain ⟨hg,hid⟩ := serving_get id hr
  have hreg := write_registered W _ (s.stripe id).1 c (stripe_registered s id hr)
  rw [write_some W _ _ c hg, stripe_host] at hreg
  have hlt := (List.getElem?_eq_some_iff.mp hg).1
  unfold publish
  rw [write_some W _ _ c hg, stripe_host, hid]
  refine ⟨rfl,?_,rfl,hreg⟩
  exact serving_found hreg ((get_set hg _ _).trans (if_pos rfl))
    ((Stripe.call_id _ _ _ _).trans hid)

theorem stripe_keeps (s : Storage) (id : Bytes) (hr : Registered s) (k : ℕ)
    (hk : k < s.heap.length) :
    (s.stripe id).2.heap[k]? = s.heap[k]? ∧ k < (s.stripe id).2.heap.length := by
  obtain ⟨i,t,heq,hf⟩ := stripe_found s id hr
  rw [heq]
  cases hf with
  | known i st get named => exact ⟨rfl,hk⟩
  | made absent =>
    exact ⟨List.getElem?_append_left hk,by simp only [List.length_append]; omega⟩

theorem write_ids (W : JsonWriter) (s : Storage) (k : ℕ) (c : Call) (i : ℕ) :
    (s.write W k c).2.heap[i]?.map Stripe.id = s.heap[i]?.map Stripe.id := by
  cases hk : s.heap[k]? with
  | none => rw [write_none W s k c hk]
  | some st =>
    rw [write_some W s k c hk]
    simp only [get_set hk]
    split
    · rename_i hi
      rw [hi, hk, Option.map_some, Option.map_some, Stripe.call_id]
    · rfl

theorem write_length (W : JsonWriter) (s : Storage) (k : ℕ) (c : Call) :
    (s.write W k c).2.heap.length = s.heap.length := by
  unfold write
  split
  · rfl
  · exact List.length_set

theorem stripe_named {s : Storage} (hn : ∀ st ∈ s.heap, st.Named) (id : Bytes) :
    ∀ st ∈ (s.stripe id).2.heap, st.Named := by
  unfold stripe
  split
  · exact hn
  · intro st hst
    rcases List.mem_append.mp hst with hst | hst
    · exact hn st hst
    · rw [List.mem_singleton.mp hst]
      exact fun hframe => absurd rfl hframe

theorem write_named (W : JsonWriter) {s : Storage} (hn : ∀ st ∈ s.heap, st.Named) (k : ℕ)
    (c : Call) : ∀ st ∈ (s.write W k c).2.heap, st.Named := by
  cases hk : s.heap[k]? with
  | none => rwa [write_none W s k c hk]
  | some st =>
    rw [write_some W s k c hk]
    intro su hsu
    rcases List.mem_or_eq_of_mem_set hsu with hsu | rfl
    · exact hn su hsu
    · exact Stripe.call_named W st s.host c (hn st (List.mem_of_getElem? hk))

theorem valid_step (W : JsonWriter) (w : World) (hv : Valid w) (op : Op) :
    Valid (step W w op).2 := by
  cases op with
  | publish id key data localtime =>
    refine ⟨write_registered W _ _ _ (stripe_registered _ id hv.registered),fun name k hk => ?_,
      write_named W (stripe_named hv.named id) _ _⟩
    have hb := (stripe_keeps w.storage id hv.registered k (hv.bound name k hk)).2
    exact hb.trans_eq (write_length W _ _ _).symm
  | writer name id =>
    refine ⟨stripe_registered _ id hv.registered,fun n k hk => ?_,stripe_named hv.named id⟩
    change Function.update w.handles name _ n = some k at hk
    by_cases hn : n = name
    · rw [hn, Function.update_self] at hk
      obtain ⟨st,hg,-⟩ := stripe_get w.storage id hv.registered
      rw [← Option.some.inj hk]
      exact (List.getElem?_eq_some_iff.mp hg).1
    · rw [Function.update_of_ne hn] at hk
      exact (stripe_keeps w.storage id hv.registered k (hv.bound n k hk)).2
  | handle name c =>
    simp only [step]
    split
    · exact hv
    · refine ⟨write_registered W _ _ c hv.registered,fun n k hk => ?_,write_named W hv.named _ c⟩
      exact (hv.bound n k hk).trans_eq (write_length W _ _ c).symm

theorem held_step (W : JsonWriter) (w : World) (hv : Valid w) (op : Op) :
    (step W w op).2.held = hold w.held op := by
  have hstripe (id : Bytes) (name : ℕ) : (w.handles name).bind
      (fun k => (w.storage.stripe id).2.heap[k]?.map Stripe.id) = w.held name := by
    unfold World.held
    cases hn : w.handles name with
    | none => rfl
    | some k =>
      have hk := stripe_keeps w.storage id hv.registered k (hv.bound name k hn)
      simp only [Option.bind_some, hk.1]
  funext name
  cases op with
  | publish id key data localtime =>
    change _ = w.held name
    rw [← hstripe id]
    simp only [World.held, step, publish, write_ids]
  | writer n id =>
    simp only [World.held, step, writer, hold]
    by_cases hn : name = n
    · obtain ⟨st,hg,hid⟩ := stripe_get w.storage id hv.registered
      simp [hn, hg, hid]
    · rw [Function.update_of_ne hn, Function.update_of_ne hn, hstripe]
  | handle n c =>
    simp only [step, hold]
    split
    · rfl
    · simp only [World.held, write_ids]

theorem run_valid (W : JsonWriter) (h : Host) (ops : List Op) :
    let w := Machine.final (step W) (World.fresh h) ops
    Valid w ∧ w.held = holder ops := by
  induction ops using List.reverseRecOn with
  | nil => exact ⟨⟨by simp [Machine.final, World.fresh, make, masterStripes, replicaStripes,
      Registered],by simp [World.fresh],
      by simp [World.fresh, make, masterStripes, replicaStripes]⟩,rfl⟩
  | append_singleton ops op ih =>
    obtain ⟨hv,hh⟩ := ih
    rw [Machine.final_concat]
    refine ⟨valid_step W _ hv op,?_⟩
    rw [held_step W _ hv op, hh, holder, holder, List.foldl_append]
    rfl

/-- Every event is served by the object of the stripe it asks for. -/
theorem step_serves (W : JsonWriter) (h : Host) (before : List Op) (op : Op) :
    (step W (Machine.final (step W) (World.fresh h) before) op).1.map (fun a => (a.id,a.call)) =
      asked before op := by
  obtain ⟨hv,hh⟩ := run_valid W h before
  generalize Machine.final (step W) (World.fresh h) before = w at hv hh ⊢
  cases op with
  | publish id key data localtime =>
    obtain ⟨st,hg,hid⟩ := stripe_get w.storage id hv.registered
    simp only [step, publish, write_some W _ _ _ hg, Option.map_some, hid, asked]
  | writer name id => rfl
  | handle name c =>
    simp only [step, asked, ← hh, World.held]
    cases hn : w.handles name with
    | none => rfl
    | some k =>
      have hk := List.getElem?_eq_getElem (hv.bound name k hn)
      simp only [write_some W _ k c hk, Option.map_some, Option.bind_some, hk]

end Storage
end RethinkLog
