import RethinkLog.ClientSession

/-!
# What a header is taken for

The decoder takes every header for a length and refuses none. A header that
`pack` can make is read to its end and further, as far as digits follow it in
the buffer. All others give a length that nobody sent.
-/

set_option autoImplicit false

namespace RethinkLog.HeaderDecoding
open Decimal (value)

/-- A header that `pack` makes: the digits of a non-negative `int`. -/
def WellFormed (data : Bytes) : Prop := (∀ b ∈ data, Decimal.IsDigit b) ∧ value data < 2^31

instance (data : Bytes) : Decidable (WellFormed data) :=
  @instDecidableAnd _ _ (List.decidableBAll _ _) (Nat.decLt _ _)

def digitRun (s : Bytes) : Bytes := s.takeWhile (fun b => decide (Decimal.IsDigit b))

def received (m : Msg) (block : ℕ → UInt8) (data : Bytes) : Msg :=
  { m.clear block with hdr := (m.clear block).hdr.poke data }

def behind (m : Msg) (block : ℕ → UInt8) : Bytes := (m.clear block).hdr.memory.drop headerLen

def Meets (m : Msg) (block space : ℕ → UInt8) (data : Bytes) : Prop :=
  let r := (received m block data).decodeHeader space
  if WellFormed data then
    r.1 = true ∧ r.2.bodyLen = value data ∧ value data ≤ r.2.body.capacity
  else r.1 = false

/-- The digits behind the header leave its value as it is, once the number is
stored as a `long`, an `int` and an `unsigned int`. -/
def Undisturbed (data rest : Bytes) : Prop :=
  min (2^63-1) (value data*10^(digitRun rest).length+value (digitRun rest)) % 2^32 = value data

instance (data rest : Bytes) : Decidable (Undisturbed data rest) :=
  inferInstanceAs (Decidable (_ = _))

theorem value_append (s t : Bytes) : value (s++t) = value s*10^t.length+value t := by
  have hacc (n : ℕ) : t.foldl (fun n b => 10*n+(b.toNat-48)) n = n*10^t.length+value t := by
    unfold value
    induction t generalizing n with
    | nil => simp
    | cons b t ih =>
      rw [List.foldl_cons, List.foldl_cons, ih, ih (10*0+_), List.length_cons, pow_succ]
      ring
  rw [value, List.foldl_append, hacc]
  rfl

theorem leading_append (data rest : Bytes) (hd : ∀ b ∈ data, Decimal.IsDigit b) :
    leading (data++rest) = value data*10^(digitRun rest).length+value (digitRun rest) := by
  rw [← value_append, leading, value, digitRun, List.takeWhile_append_of_pos]
  simpa using hd

theorem received_memory (m : Msg) (block : ℕ → UInt8) (data : Bytes)
    (hd : data.length = headerLen) :
    (received m block data).hdr.memory = data ++ behind m block := by
  rw [behind, ← hd]
  rfl

theorem decoded_room (m : Msg) (space : ℕ → UInt8) :
    (m.decodeHeader space).2.bodyLen ≤ (m.decodeHeader space).2.body.capacity := by
  have := StdString.reserve_room m.body space (m.decodeHeader space).2.bodyLen
  exact Nat.le_sub_one_of_lt this

theorem refused_ends (s : Session) (data : Bytes) :
    (s.headerRead false data).reading = s.reading ↔
      (({ s.req with hdr := s.req.hdr.poke data }).decodeHeader (s.blocks 0)).1 = false := by
  simp only [Session.headerRead, Bool.false_eq_true, if_false]
  split <;> simp [*]

/-- The decoder meets its purpose exactly for the headers that `pack` makes
whose value the digits behind them in the buffer do not disturb. -/
theorem header_iff (m : Msg) (block space : ℕ → UInt8) (data : Bytes)
    (hd : data.length = headerLen) :
    Meets m block space data ↔ WellFormed data ∧ Undisturbed data (behind m block) := by
  by_cases hw : WellFormed data
  · have hlen : ((received m block data).decodeHeader space).2.bodyLen = min (2^63-1)
        (value data*10^(digitRun (behind m block)).length+value (digitRun (behind m block))) %
          2^32 := by
      rw [← leading_append _ _ hw.1]
      cases data with
      | nil => simp [headerLen] at hd
      | cons b s =>
        rw [List.cons_append, ← atoi_digit b _ (hw.1 b (by simp)), ← List.cons_append,
          ← received_memory m block _ hd]
        rfl
    have hroom := decoded_room (received m block data) space
    rw [Meets, if_pos hw, Undisturbed, ← hlen]
    constructor
    · rintro ⟨-,hv,-⟩
      exact ⟨hw,hv⟩
    · rintro ⟨-,hv⟩
      exact ⟨rfl,hv,hv ▸ hroom⟩
  · rw [Meets, if_neg hw]
    exact ⟨fun hf => Bool.noConfusion (hf : true = false),fun h => absurd h.1 hw⟩

theorem negative_accepted : ¬ ∀ (m : Msg) (block space : ℕ → UInt8) (data : Bytes),
    data.length = headerLen → Meets m block space data := by
  intro hall
  have hm := hall Session.still.req (fun _ => 0) (fun _ => 0) (ascii "-00000000000001") rfl
  rw [Meets, if_neg (by decide)] at hm
  exact Bool.noConfusion (hm : true = false)

theorem header_iff_hundred :
    Meets Session.still.req (fun _ => 0) (fun _ => 0) (ascii "000000000000100") :=
  (header_iff _ _ _ _ rfl).mpr ⟨by decide,by decide⟩

end RethinkLog.HeaderDecoding
