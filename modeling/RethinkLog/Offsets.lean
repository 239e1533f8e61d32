import RethinkLog.LogIntegrity

/-!
# Explicit and assigned offsets on one stripe

The counter of a stripe counts the calls that ask for an offset, also those
that are rejected or fail. Explicit offsets are recorded as they are and do
not move the counter. Whether the offsets of the log increase is therefore
decided by how many offsets were asked for before each assigned one.
-/

set_option autoImplicit false

namespace RethinkLog.Offsets
open LogIntegrity Machine

def asks (c : Call) : Bool := c.offset = uint64Max

def autos (calls : List Call) : ℕ := (calls.filter asks).length

section Run
variable (W : JsonWriter) (id : Bytes) (h : Host)

def log (calls : List Call) : List (Call × Reply) :=
  history (stripeStep W) (Stripe.create id,h) calls

def after (calls : List Call) : Stripe × Host := final (stripeStep W) (Stripe.create id,h) calls

def recorded (calls : List Call) : List UInt64 :=
  (accepted (log W id h calls)).map Record.offset

def adds (calls : List Call) (c : Call) : Option Record :=
  stored (c,(stripeStep W (after W id h calls) c).1)

def Replicated (calls : List Call) : Prop :=
  EveryStep (fun before c => asks c = false → ∀ o ∈ recorded W id h before, o < c.offset) calls

def Increasing (calls : List Call) : Prop := (recorded W id h calls).Pairwise (· < ·)

/-- Whenever an offset is asked for and there is a frame for its record, the
number of offsets asked for so far has not fallen behind what is recorded. -/
def Abreast (calls : List Call) : Prop :=
  EveryStep (fun before c => asks c = true →
    (after W id h before).1.Admits W (after W id h before).2 c →
      ∀ o ∈ recorded W id h before, o < UInt64.ofNat (autos before+2)) calls

instance (calls : List Call) (c : Call) :
    Decidable (∀ o ∈ recorded W id h calls, o < c.offset) := List.decidableBAll _ _

instance (calls : List Call) : Decidable (Replicated W id h calls) :=
  inferInstanceAs (Decidable (EveryStep _ _))

instance (calls : List Call) : Decidable (Increasing W id h calls) :=
  inferInstanceAs (Decidable (List.Pairwise _ _))

theorem recorded_concat (calls : List Call) (c : Call) :
    recorded W id h (calls++[c]) =
      recorded W id h calls ++ ((adds W id h calls c).map Record.offset).toList := by
  rw [recorded, log, history_concat, accepted_concat, List.map_append]
  change _ ++ ((adds W id h calls c).toList).map Record.offset = _
  cases adds W id h calls c <;> rfl

theorem autos_concat (calls : List Call) (c : Call) :
    autos (calls++[c]) = autos calls + if asks c then 1 else 0 := by
  cases hc : asks c <;> simp [autos, hc]

theorem step_record (s : Stripe × Host) (c : Call) (r : Record)
    (hr : stored (c,(stripeStep W s c).1) = some r) : r.offset = (s.1.assign c.offset).1 := by
  obtain ⟨st,k⟩ := s
  obtain ⟨reply,st',k',heq,he⟩ := Stripe.call_effect W st k c
  rw [show stripeStep W (st,k) c = _ from heq] at hr
  cases he <;> simp only [stored, Option.some.injEq, reduceCtorEq] at hr <;> rw [← hr] <;> rfl

theorem stored_admits (s : Stripe × Host) (c : Call) :
    s.1.Admits W s.2 c ↔ stored (c,(stripeStep W s c).1) ≠ none := by
  rw [← Stripe.call_admits]
  change (∃ o, (stripeStep W s c).1.outcome = .wrote o) ↔ _
  unfold stored
  cases (stripeStep W s c).1.outcome <;> simp

theorem ofNat_succ (n : ℕ) : UInt64.ofNat n+1 = UInt64.ofNat (n+1) :=
  (UInt64.ofNat_add n 1).symm

theorem counter (calls : List Call) :
    (after W id h calls).1.lastOffset = UInt64.ofNat (autos calls+1) := by
  induction calls using List.reverseRecOn with
  | nil => rfl
  | append_singleton calls c ih =>
    rw [after, final_concat, autos_concat]
    refine (Stripe.call_counter W (after W id h calls).1 _ c).trans ?_
    unfold Stripe.assign
    by_cases hc : c.offset = uint64Max
    · simp only [hc, if_true, ih, ofNat_succ, asks, decide_true]
    · simp only [hc, if_false, ih, asks, decide_false, Bool.false_eq_true, Nat.add_zero]

theorem adds_offset (calls : List Call) (c : Call) (r : Record)
    (hr : adds W id h calls c = some r) :
    r.offset = if asks c then UInt64.ofNat (autos calls+2) else c.offset := by
  rw [step_record W _ c r hr, Stripe.assign]
  by_cases hc : c.offset = uint64Max
  · simp only [hc, if_true, counter, ofNat_succ, asks, decide_true]
  · simp only [hc, if_false, asks, decide_false, Bool.false_eq_true]

/-- With explicit offsets as a replica receives them, the log's offsets
increase exactly when no assigned offset falls behind. -/
theorem increasing_iff_abreast (calls : List Call) (hr : Replicated W id h calls) :
    Increasing W id h calls ↔ Abreast W id h calls := by
  induction calls using List.reverseRecOn with
  | nil => simp [Increasing, Abreast, recorded, log, accepted, everyStep_nil]
  | append_singleton calls c ih =>
    obtain ⟨hr,hc⟩ := (everyStep_concat _ calls c).mp hr
    have ih := ih hr
    unfold Increasing Abreast at ih ⊢
    rw [recorded_concat, everyStep_concat, List.pairwise_append, ih, stored_admits, ← adds]
    cases ha : adds W id h calls c with
    | none => simp
    | some r =>
      have ho := adds_offset W id h calls c r ha
      cases hk : asks c with
      | false =>
        have hlt := hc hk
        rw [hk] at ho
        constructor
        · exact fun hs => ⟨hs.1,by simp⟩
        · exact fun hs => ⟨hs.1,by simp,by simpa [ho] using hlt⟩
      | true =>
        rw [hk, if_pos rfl] at ho
        simp [ho]

end Run

theorem mixed_offsets_repeat : ¬ ∀ (W : JsonWriter) (id : Bytes) (h : Host) (calls : List Call),
    Replicated W id h calls → Increasing W id h calls := by
  intro hall
  have h := hall (.library true) (ascii "s") (.still [] 0) [⟨2,[],[],[]⟩,⟨uint64Max,[],[],[]⟩]
    (by decide)
  exact absurd h (by decide)

theorem increasing_iff_abreast_switch :
    let calls : List Call := [⟨uint64Max,[],[],[]⟩,⟨7,[],[],[]⟩,⟨uint64Max,[],[],[]⟩]
    Increasing (.library true) (ascii "s") (.still [] 0) calls ↔
      Abreast (.library true) (ascii "s") (.still [] 0) calls :=
  increasing_iff_abreast _ _ _ _ (by decide)

end RethinkLog.Offsets
