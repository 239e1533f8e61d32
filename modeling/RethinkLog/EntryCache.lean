import RethinkLog.Machine
import RethinkLog.RecordStream

/-!
# The cache of a log entry over its lifetime

The fields of an entry are public, and nothing empties its cache when they are
assigned. What an entry writes is the encoding of the fields that it, or the
entry it was copied from, had when the cache was filled.
-/

set_option autoImplicit false

namespace RethinkLog.EntryCache
open Machine

inductive Field where
  | offset (value : UInt64)
  | key (value : Bytes)
  | data (value : Bytes)
  | localtime (value : Bytes)
  deriving DecidableEq, Repr

def Field.store (r : Record) : Field → Record
  | .offset value => { r with offset := value }
  | .key value => { r with key := value }
  | .data value => { r with data := value }
  | .localtime value => { r with localtime := value }

inductive Op where
  | make (offset : UInt64) (key data localtime : Bytes)
  | store (i : ℕ) (f : Field)
  | copy (i : ℕ)
  | assign (i j : ℕ)
  | size (i : ℕ)
  | write (i : ℕ)
  deriving DecidableEq, Repr

inductive Output where
  | size (n : ℕ)
  | bytes (b : Bytes)
  deriving DecidableEq, Repr

def step (W : JsonWriter) (heap : List LogEntry) : Op → Option Output × List LogEntry
  | .make offset key data localtime => (none, heap ++ [.make offset key data localtime])
  | .store i f => (none, heap.modify i (fun le => { le with toRecord := f.store le.toRecord }))
  | .copy i => (none, heap ++ heap[i]?.toList)
  | .assign i j => (none, heap.modify i (fun le => heap[j]?.getD le))
  | .size i => (heap[i]?.map (fun le => .size (le.size W).1),
      heap.modify i (fun le => (le.size W).2))
  | .write i => (heap[i]?.map (fun le => .bytes (le.output W).1),
      heap.modify i (fun le => (le.output W).2))

/-- An entry with the fields it had when its encoding was first asked for. -/
structure Traced where
  fields : Record
  used : Option Record
  deriving DecidableEq, Repr

def Traced.use (t : Traced) : Traced := { t with used := some (t.used.getD t.fields) }

def trace (heap : List Traced) : Op → List Traced
  | .make offset key data localtime => heap ++ [⟨⟨offset,key,data,localtime⟩,none⟩]
  | .store i f => heap.modify i (fun t => { t with fields := f.store t.fields })
  | .copy i => heap ++ heap[i]?.toList
  | .assign i j => heap.modify i (fun t => heap[j]?.getD t)
  | .size i => heap.modify i Traced.use
  | .write i => heap.modify i Traced.use

def traced (ops : List Op) : List Traced := ops.foldl trace []

/-- An entry is written with the fields it had when it was first used. -/
def Settled (before : List Op) (op : Op) : Prop :=
  ∀ i, op = .write i → ∀ t, (traced before)[i]? = some t → t.used.getD t.fields = t.fields

section Run
variable (W : JsonWriter)

def after (ops : List Op) : List LogEntry := final (step W) [] ops

/-- A write gives the encoding of the current fields, and a size is the number
of bytes that a write at that moment would give. -/
def Faithful (before : List Op) (op : Op) : Prop :=
  (∀ i le, op = .write i → (after W before)[i]? = some le →
    (step W (after W before) op).1 = some (.bytes (le.toRecord.encode W))) ∧
  (∀ i le, op = .size i → (after W before)[i]? = some le →
    (step W (after W before) op).1 = some (.size (le.output W).1.length))

def entry (t : Traced) : LogEntry := ⟨t.fields,(t.used.map (Record.encode W)).getD []⟩

theorem entry_built (t : Traced) : (entry W t).built W = entry W t.use := by
  cases hu : t.used with
  | none => simp [LogEntry.built, entry, Traced.use, hu]
  | some r => simp [LogEntry.built, entry, Traced.use, hu, Record.encode_ne_nil]

theorem entry_output (t : Traced) :
    ((entry W t).output W).1 = (t.used.getD t.fields).encode W := by
  rw [LogEntry.output, LogEntry.size, entry_built]
  rfl

theorem map_modify {α β : Type} (f : α → β) (g : α → α) (k : β → β)
    (h : ∀ a, f (g a) = k (f a)) (l : List α) (i : ℕ) :
    (l.modify i g).map f = (l.map f).modify i k := by
  apply List.ext_getElem?
  intro n
  simp only [List.getElem?_map, List.getElem?_modify]
  cases l[n]? with
  | none => rfl
  | some a =>
    by_cases hn : i = n <;> simp [hn, h]

theorem step_traced (heap : List Traced) (op : Op) :
    (step W (heap.map (entry W)) op).2 = (trace heap op).map (entry W) := by
  cases op with
  | make offset key data localtime => simp [step, trace, entry, LogEntry.make]
  | store i f =>
    refine (map_modify (entry W) (fun t => { t with fields := f.store t.fields }) _ ?_ heap i).symm
    exact fun t => rfl
  | copy i =>
    simp only [step, trace, List.getElem?_map, List.map_append]
    cases heap[i]? <;> rfl
  | assign i j =>
    refine (map_modify _ _ _ (fun t => ?_) heap i).symm
    rw [List.getElem?_map]
    cases heap[j]? <;> rfl
  | size i => exact (map_modify _ _ _ (fun t => (entry_built W t).symm) heap i).symm
  | write i => exact (map_modify _ _ _ (fun t => (entry_built W t).symm) heap i).symm

theorem after_traced (ops : List Op) : after W ops = (traced ops).map (entry W) := by
  induction ops using List.reverseRecOn with
  | nil => rfl
  | append_singleton ops op ih =>
    rw [after, final_concat, ← after, ih, step_traced, traced, traced, List.foldl_append]
    rfl

theorem size_output (le : LogEntry) : (le.size W).1 = (le.output W).1.length := rfl

theorem faithful_iff (before : List Op) (op : Op) : Faithful W before op ↔ Settled before op := by
  unfold Faithful Settled
  simp only [after_traced, List.getElem?_map]
  constructor
  · rintro ⟨hwrite,-⟩ i rfl t ht
    have hw := hwrite i (entry W t) rfl (by rw [ht]; rfl)
    simp only [step, List.getElem?_map, ht, Option.map_some, entry_output, Option.some.injEq,
      Output.bytes.injEq] at hw
    exact RecordStream.encode_injective W hw
  · intro hs
    constructor
    · rintro i le rfl hle
      obtain ⟨t,ht,rfl⟩ := Option.map_eq_some_iff.mp hle
      simp only [step, List.getElem?_map, ht, Option.map_some, entry_output, hs i rfl t ht]
      rfl
    · rintro i le rfl hle
      simp only [step, List.getElem?_map, hle, Option.map_some, size_output]

/-- Every write gives the current fields and every size what a write would
give, exactly when entries are only written with the fields they were first
used with. -/
theorem cache_iff (ops : List Op) : EveryStep (Faithful W) ops ↔ EveryStep Settled ops := by
  unfold EveryStep
  simp only [faithful_iff]

end Run

theorem stale_write : ¬ ∀ (W : JsonWriter) (ops : List Op), EveryStep (Faithful W) ops := by
  intro hall
  have hf := hall (.library true) [.make 0 [] [] [],.write 0,.store 0 (.key [65]),.write 0]
    [.make 0 [] [] [],.write 0,.store 0 (.key [65])] (.write 0) [] rfl
  have hs := (faithful_iff _ _ _).mp hf 0 rfl _ rfl
  exact absurd hs (by decide)

end RethinkLog.EntryCache
