import RethinkLog.Decimal
import Mathlib.Data.Int.Notation

/-!
# Messages on the client wire

A message is a header of fifteen decimal digits and a body. The reader keeps
both in strings that it clears and reserves; the bytes of a read are then
written through the pointer to a string's buffer, and its size does not know
of them. A new buffer shows whatever its memory held before.
-/

set_option autoImplicit false

namespace RethinkLog

/-- A string is a buffer with room for the terminator, and a size. -/
structure StdString where
  memory : Bytes
  size : ℕ
  room : size < memory.length

namespace StdString

def text (s : StdString) : Bytes := s.memory.take s.size

def capacity (s : StdString) : ℕ := s.memory.length-1

def clear (s : StdString) : StdString where
  memory := s.memory.set 0 0
  size := 0
  room := by simpa using Nat.zero_lt_of_lt s.room

/-- A larger buffer keeps the text; `block` is what its memory held. -/
def reserve (s : StdString) (block : ℕ → UInt8) (n : ℕ) : StdString :=
  if n ≤ s.capacity then s else
    { memory := s.text ++ 0 :: (List.range n).map block
      size := s.size
      room := by
        have := s.room
        simp [text]
        omega }

/-- Bytes written through the pointer that `data()` returns. -/
def poke (s : StdString) (b : Bytes) : StdString where
  memory := b ++ s.memory.drop b.length
  size := s.size
  room := by
    have := s.room
    simp
    omega

@[simp] theorem poke_size (s : StdString) (b : Bytes) : (s.poke b).size = s.size := rfl

@[simp] theorem reserve_size (s : StdString) (block : ℕ → UInt8) (n : ℕ) :
    (s.reserve block n).size = s.size := by
  unfold reserve
  split <;> rfl

theorem clear_memory (s : StdString) (n : ℕ) :
    s.clear.memory.drop (n+1) = s.memory.drop (n+1) := by
  have hl : s.memory.length ≠ 0 := Nat.ne_of_gt (Nat.zero_lt_of_lt s.room)
  cases hm : s.memory with
  | nil => simp [hm] at hl
  | cons b bs => simp [clear, hm]

theorem reserve_room (s : StdString) (block : ℕ → UInt8) (n : ℕ) :
    n < (s.reserve block n).memory.length := by
  unfold reserve capacity
  split
  · have := s.room
    omega
  · simp only [List.length_append, List.length_cons, List.length_map, List.length_range]
    omega

theorem reserve_enough (s : StdString) (block : ℕ → UInt8) (n : ℕ) (h : n < s.memory.length) :
    s.reserve block n = s := if_pos (by unfold capacity; omega)

end StdString

def isSpace (b : UInt8) : Bool := b = 32 || (9 ≤ b && b ≤ 13)

def leading (s : Bytes) : ℕ :=
  (s.takeWhile (fun b => decide (Decimal.IsDigit b))).foldl (fun n b => 10*n+(b.toNat-48)) 0

def strtol (s : Bytes) : ℤ :=
  match s.dropWhile isSpace with
  | 45::t => max (-2^63) (-(leading t : ℤ))
  | 43::t => min (2^63-1) (leading t : ℤ)
  | t => min (2^63-1) (leading t : ℤ)

/-- A `long` cast to `int`. -/
def atoi (s : Bytes) : ℤ := (strtol s).bmod (2^32)

def headerLen : ℕ := 15

structure Msg where
  bodyLen : ℕ
  hdr : StdString
  body : StdString

namespace Msg

/-- `clear()`; the header string may have to be given a new buffer. -/
def clear (m : Msg) (block : ℕ → UInt8) : Msg where
  bodyLen := m.bodyLen
  hdr := m.hdr.clear.reserve block headerLen
  body := m.body.clear

/-- The length is stored as an `unsigned int`; no header is ever refused. -/
def decodeHeader (m : Msg) (block : ℕ → UInt8) : Bool × Msg :=
  let bodyLen := (atoi m.hdr.memory % 2^32).toNat
  (true, { m with bodyLen := bodyLen, body := m.body.reserve block bodyLen })

def pack (body : Bytes) : Bytes :=
  List.replicate (headerLen-(Decimal.natural body.length).length) (Decimal.digit 0) ++
    Decimal.natural body.length ++ body

example : pack (ascii "hi") = ascii "000000000000002hi" := by decide

theorem pack_nil : pack [] = List.replicate headerLen (Decimal.digit 0) := by decide

end Msg

theorem leading_zeros (n : ℕ) (s : Bytes) :
    leading (List.replicate n (Decimal.digit 0) ++ s) = leading s := by
  induction n with
  | zero => rfl
  | succ n ih => simpa [leading, List.replicate_succ, Decimal.digit, Decimal.IsDigit] using ih

theorem atoi_digit (b : UInt8) (s : Bytes) (hb : Decimal.IsDigit b) :
    (atoi (b::s) % 2^32).toNat = min (2^63-1) (leading (b::s)) % 2^32 := by
  have hlow : 48 ≤ b.toNat := UInt8.le_iff_toNat_le.mp hb.1
  have hspace : isSpace b = false := by
    have h32 : b ≠ 32 := by rintro rfl; simp at hlow
    have h13 : ¬ b ≤ 13 := by
      rw [UInt8.le_iff_toNat_le]
      change ¬ b.toNat ≤ 13
      omega
    simp [isSpace, h32, h13]
  have hs : strtol (b::s) = min (2^63-1) (leading (b::s) : ℤ) := by
    rw [strtol, List.dropWhile_cons_of_neg (by simp [hspace])]
    split
    · rename_i heq
      obtain ⟨rfl,-⟩ := List.cons.inj heq
      simp at hlow
    · rename_i heq
      obtain ⟨rfl,-⟩ := List.cons.inj heq
      simp at hlow
    · rfl
  rw [atoi, hs]
  have hmod := Int.bmod_emod (x := min (2^63-1) (leading (b::s) : ℤ)) (m := 2^32)
  rw [show ((2^32 : ℕ) : ℤ) = 2^32 by norm_num] at hmod
  rw [hmod]
  omega

theorem atoi_zeros (s : Bytes) :
    (atoi (List.replicate headerLen (Decimal.digit 0) ++ s) % 2^32).toNat =
      min (2^63-1) (leading s) % 2^32 := by
  have hcons : List.replicate headerLen (Decimal.digit 0) ++ s =
      Decimal.digit 0 :: (List.replicate 14 (Decimal.digit 0) ++ s) := rfl
  rw [← leading_zeros headerLen s, hcons]
  exact atoi_digit _ _ (Decimal.digit_isDigit 0 (by decide))

end RethinkLog
