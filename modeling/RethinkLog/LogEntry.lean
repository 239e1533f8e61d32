import RethinkLog.JsonWriter

/-!
# Log entries and their cached encoding

An entry carries four fields and a cache that `size` and the stream operator
fill on first use. The cache is filled only while it is empty, so its text is
the encoding of the fields at that time.
-/

set_option autoImplicit false

namespace RethinkLog

structure Record where
  offset : UInt64
  key : Bytes
  data : Bytes
  localtime : Bytes
  deriving DecidableEq, Repr

structure LogEntry extends Record where
  json : Bytes
  deriving DecidableEq, Repr

namespace Record

/-- The property tree that `size` builds, in the order of its `put` calls. -/
def tree (r : Record) : List (Bytes × Bytes) :=
  [(ascii "offset", Decimal.natural r.offset.toNat), (ascii "key", r.key),
    (ascii "localtime", r.localtime), (ascii "data", r.data)]

def encode (W : JsonWriter) (r : Record) : Bytes := W.writeJson r.tree

example : encode (.library true) ⟨2,ascii "k",[34,13,200],[]⟩ =
    [123] ++ ascii "\"offset\":\"2\",\"key\":\"k\",\"localtime\":\"\",\"data\":" ++
      [34,92,34,92,114,200,34,125,10] := by decide

theorem encode_ne_nil (W : JsonWriter) (r : Record) : r.encode W ≠ [] := by
  simp [encode, JsonWriter.writeJson]

theorem key_length (W : JsonWriter) (r : Record) : r.key.length ≤ (r.encode W).length := by
  have hq := W.quoted_length r.key
  simp only [encode, tree, JsonWriter.writeJson, JsonWriter.children, JsonWriter.child,
    List.length_append]
  omega

end Record

namespace LogEntry

def make (offset : UInt64) (key data localtime : Bytes) : LogEntry :=
  ⟨⟨offset,key,data,localtime⟩,[]⟩

def built (W : JsonWriter) (le : LogEntry) : LogEntry :=
  if le.json.length = 0 then { le with json := le.toRecord.encode W } else le

def size (W : JsonWriter) (le : LogEntry) : ℕ × LogEntry :=
  ((le.built W).json.length, le.built W)

/-- `operator <<`: the bytes given to the stream. -/
def output (W : JsonWriter) (le : LogEntry) : Bytes × LogEntry :=
  ((le.size W).2.json, (le.size W).2)

theorem built_fields (W : JsonWriter) (le : LogEntry) :
    (le.built W).toRecord = le.toRecord := by
  unfold built
  split <;> rfl

def Fresh (W : JsonWriter) (le : LogEntry) : Prop :=
  le.json = [] ∨ le.json = le.toRecord.encode W

theorem make_fresh (W : JsonWriter) (offset : UInt64) (key data localtime : Bytes) :
    (make offset key data localtime).Fresh W := Or.inl rfl

theorem built_json (W : JsonWriter) (le : LogEntry) (h : le.Fresh W) :
    (le.built W).json = le.toRecord.encode W := by
  unfold built
  split
  · rfl
  · rename_i hj
    rcases h with h | h
    · simp [h] at hj
    · exact h

theorem built_fresh (W : JsonWriter) (le : LogEntry) (h : le.Fresh W) : (le.built W).Fresh W := by
  right
  rw [built_json W le h, built_fields]

theorem size_length (W : JsonWriter) (le : LogEntry) (h : le.Fresh W) :
    (le.size W).1 = (le.toRecord.encode W).length := by
  rw [size, built_json W le h]

theorem output_text (W : JsonWriter) (le : LogEntry) (h : le.Fresh W) :
    (le.output W).1 = le.toRecord.encode W := built_json W le h

end LogEntry
end RethinkLog
