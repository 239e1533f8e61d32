import RethinkLog.LogEntry

/-!
# Frames determine their records

The encoding of a record is assembled from prefix codes: four quoted values
between fixed texts. The unused tail of a frame holds NUL bytes, on which no
record can start, so the written bytes of a frame have one reading only.
-/

set_option autoImplicit false

namespace RethinkLog.RecordStream
open Record

abbrev Fields := Bytes × Bytes × Bytes × Bytes

def fields (W : JsonWriter) : PrefixCode Fields UInt8 :=
  (W.member [] (ascii "offset")).pair ((W.member [44] (ascii "key")).pair
    ((W.member [44] (ascii "localtime")).pair (W.member [44] (ascii "data"))))

def split (r : Record) : Fields :=
  (Decimal.natural r.offset.toNat, r.key, r.localtime, r.data)

theorem split_injective : Function.Injective split := by
  rintro ⟨o,k,d,l⟩ ⟨o',k',d',l'⟩ h
  simp only [split, Prod.mk.injEq] at h
  obtain ⟨ho,rfl,rfl,rfl⟩ := h
  obtain rfl : o = o' := UInt64.toNat_inj.mp (Decimal.natural_injective ho)
  rfl

def entry (W : JsonWriter) : PrefixCode Record UInt8 :=
  PrefixCode.bracket [123] ((fields W).comap split split_injective) W.ending

theorem entry_encode (W : JsonWriter) (r : Record) : (entry W).encode r = encode W r := by
  simp [entry, PrefixCode.bracket, PrefixCode.comap, fields, PrefixCode.pair,
    JsonWriter.member_encode, split, encode, tree, JsonWriter.writeJson, JsonWriter.children]

theorem entry_stream (W : JsonWriter) (rs : List Record) :
    (entry W).stream rs = rs.flatMap (encode W) := by
  simp only [PrefixCode.stream]
  exact congrArg (fun f => rs.flatMap f) (funext (entry_encode W))

theorem padding_stops (W : JsonWriter) (n : ℕ) : (entry W).Stops (List.replicate n 0) := by
  apply PrefixCode.bracket_stops (c := 123) rfl
  cases n <;> simp [List.replicate]

theorem text_injective (W : JsonWriter) :
    Function.Injective (fun rs : List Record => rs.flatMap (encode W)) := by
  intro rs qs h
  have hs := padding_stops W 0
  refine ((entry W).stream_unique (r := []) (s := []) hs hs ?_).1
  simpa only [entry_stream, List.append_nil] using h

theorem encode_injective (W : JsonWriter) : Function.Injective (encode W) := by
  intro r q h
  have hs : [r] = [q] := text_injective W (by simpa using h)
  exact List.singleton_injective hs

/-- The written bytes of a frame and its unused tail determine the records,
whatever bytes the fields hold. -/
theorem frame_records_unique (W : JsonWriter) (rs qs : List Record) (m n : ℕ) :
    rs.flatMap (encode W) ++ List.replicate m 0 = qs.flatMap (encode W) ++ List.replicate n 0 ↔
      rs = qs ∧ m = n := by
  constructor
  · intro h
    rw [← entry_stream, ← entry_stream] at h
    obtain ⟨hr,hz⟩ := (entry W).stream_unique (padding_stops W m) (padding_stops W n) h
    exact ⟨hr,by simpa using congrArg List.length hz⟩
  · rintro ⟨rfl,rfl⟩
    rfl

end RethinkLog.RecordStream
