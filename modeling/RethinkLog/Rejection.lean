import RethinkLog.Offsets
import Mathlib.Data.Nat.ModEq
import Mathlib.Data.List.Chain

/-!
# Records that are too large

The size of a record is known only once it has its offset, so a record that is
rejected for its size has used an offset up when it asked for one. The stripe
is left as it was exactly when the offset was given. In a run of calls that
ask, every rejected call between two stored ones leaves a gap.
-/

set_option autoImplicit false

namespace RethinkLog.Rejection
open LogIntegrity Machine Offsets

section Run
variable (W : JsonWriter) (id : Bytes) (h : Host)

def Atomic (s : Stripe × Host) (c : Call) : Prop :=
  (stripeStep W s c).1.outcome.value = .ok 0 ∧ (stripeStep W s c).2 = s

def Oversized (calls : List Call) (c : Call) : Prop :=
  frameFilesize ≤ (after W id h calls).1.room W c

def storable (calls : List Call) (c : Call) : Bool :=
  decide ((after W id h calls).1.room W c < frameFilesize) && !id.contains 0

def places (calls : List Call) : List ℕ := (List.range calls.length).filter
  (fun i => (calls[i]?).any (storable W id h (calls.take i)))

def Consecutive (calls : List Call) : Prop :=
  (recorded W id h calls).IsChain (fun a b => b = a+1)

/-- Two stored calls in a row are one apart, as a counter of 64 bits counts. -/
def Gapless (calls : List Call) : Prop :=
  (places W id h calls).IsChain (fun i j => j ≡ i+1 [MOD 2^64])

theorem rejected_atomic (s : Stripe × Host) (c : Call) (hl : frameFilesize ≤ s.1.room W c) :
    Atomic W s c ↔ asks c = false := by
  obtain ⟨st,k⟩ := s
  have hs : stripeStep W (st,k) c = (⟨.rejected,[]⟩,(st.assign c.offset).2,k) := by
    rw [show stripeStep W (st,k) c = st.call W k c from rfl, Stripe.call_eq, if_pos hl]
  have hcounter : st.lastOffset+1 ≠ st.lastOffset := by simp
  rw [Atomic, hs]
  unfold Stripe.assign asks
  by_cases hc : c.offset = uint64Max
  · simp only [hc, if_true, decide_true, Bool.true_eq_false, iff_false, not_and]
    intro _ heq
    exact hcounter (congrArg (fun x => x.1.lastOffset) heq)
  · simp only [hc, if_false, decide_false, iff_true, and_true]
    rfl

theorem places_concat (calls : List Call) (c : Call) : places W id h (calls++[c]) =
    places W id h calls ++ if storable W id h calls c then [calls.length] else [] := by
  have hinit : ∀ i ∈ List.range calls.length,
      ((calls++[c])[i]?).any (storable W id h ((calls++[c]).take i)) =
        (calls[i]?).any (storable W id h (calls.take i)) := by
    intro i hi
    have hlt := List.mem_range.mp hi
    rw [List.getElem?_append_left hlt, List.take_append_of_le_length hlt.le]
  rw [places, List.length_append, List.length_singleton, List.range_succ, List.filter_append,
    List.filter_congr hinit, ← places]
  refine congrArg (places W id h calls ++ ·) ?_
  simp only [List.filter_singleton, List.getElem?_concat_length, List.take_left, Option.any_some]
  cases storable W id h calls c <;> rfl

theorem after_named (calls : List Call) :
    (after W id h calls).1.Named ∧ (after W id h calls).1.id = id := by
  induction calls using List.reverseRecOn with
  | nil => exact ⟨fun hframe => absurd rfl hframe,rfl⟩
  | append_singleton calls c ih =>
    rw [after, final_concat]
    exact ⟨Stripe.call_named W _ _ c ih.1,(Stripe.call_id W _ _ c).trans ih.2⟩

theorem adds_storable (calls : List Call) (c : Call)
    (hok : (stripeStep W (after W id h calls) c).1.outcome.thrown = false) :
    adds W id h calls c ≠ none ↔ storable W id h calls c = true := by
  obtain ⟨hn,hid⟩ := after_named W id h calls
  have hout := Stripe.call_outcome W (after W id h calls).1 (after W id h calls).2 c hn hok
  rw [hid] at hout
  unfold adds stored stripeStep storable
  rw [hout]
  by_cases hl : frameFilesize ≤ (after W id h calls).1.room W c
  · simp [hl, Nat.not_lt.mpr hl]
  · by_cases hz : (0:UInt8) ∈ id <;> simp [hl, hz, Nat.lt_of_not_le hl]

theorem autos_all (calls : List Call) (ha : ∀ c ∈ calls, asks c = true) :
    autos calls = calls.length := by
  rw [autos, List.filter_eq_self.mpr ha]

theorem recorded_places (calls : List Call) (ha : ∀ c ∈ calls, asks c = true)
    (hok : ∀ x ∈ log W id h calls, x.2.outcome.thrown = false) :
    recorded W id h calls = (places W id h calls).map (fun i => UInt64.ofNat (i+2)) := by
  induction calls using List.reverseRecOn with
  | nil => rfl
  | append_singleton calls c ih =>
    rw [log, history_concat] at hok
    have hc : asks c = true := ha c (by simp)
    have hpast := ih (fun d hd => ha d (by simp [hd]))
      (fun x hx => hok x (by simp [log] at hx; simp [hx]))
    have hlast : (stripeStep W (after W id h calls) c).1.outcome.thrown = false :=
      hok (c,(stripeStep W (after W id h calls) c).1) (by simp [after])
    have hadds := adds_storable W id h calls c hlast
    rw [recorded_concat, places_concat, List.map_append, ← hpast]
    refine congrArg (recorded W id h calls ++ ·) ?_
    cases hr : adds W id h calls c with
    | none =>
      rw [if_neg (fun hs => hadds.mpr hs hr)]
      rfl
    | some r =>
      have ho := adds_offset W id h calls c r hr
      rw [if_pos hc, autos_all calls (fun d hd => ha d (by simp [hd]))] at ho
      rw [if_pos (hadds.mp (by simp [hr]))]
      simp [ho]

theorem offset_next (i j : ℕ) :
    UInt64.ofNat (j+2) = UInt64.ofNat (i+2)+1 ↔ j ≡ i+1 [MOD 2^64] := by
  rw [ofNat_succ, UInt64.ofNat_eq_iff_mod_eq_toNat, UInt64.toNat_ofNat']
  exact Nat.ModEq.add_iff_right (Nat.ModEq.refl 2)

theorem consecutive_iff (calls : List Call) (ha : ∀ c ∈ calls, asks c = true)
    (hok : ∀ x ∈ log W id h calls, x.2.outcome.thrown = false) :
    Consecutive W id h calls ↔ Gapless W id h calls := by
  rw [Consecutive, Gapless, recorded_places W id h calls ha hok, List.isChain_map]
  simp only [offset_next]

/-- After every run, a record that is too large is rejected without a trace
exactly when its offset was given. Over every run that asks for all offsets
and has no filesystem failure, the accepted records have offsets without a gap
exactly when no rejected call lies between two stored ones. -/
theorem rejection_iff (calls : List Call) :
    (∀ c, Oversized W id h calls c → (Atomic W (after W id h calls) c ↔ asks c = false)) ∧
    ((∀ c ∈ calls, asks c = true) → (∀ x ∈ log W id h calls, x.2.outcome.thrown = false) →
      (Consecutive W id h calls ↔ Gapless W id h calls)) :=
  ⟨fun c hl => rejected_atomic W _ c hl,consecutive_iff W id h calls⟩

end Run

def longCall (offset : UInt64) : Call := ⟨offset,List.replicate frameFilesize 65,[],[]⟩

theorem long_oversized (W : JsonWriter) (id : Bytes) (h : Host) (calls : List Call)
    (offset : UInt64) : Oversized W id h calls (longCall offset) := by
  have hk := Record.key_length W ((after W id h calls).1.record (longCall offset))
  rwa [show ((after W id h calls).1.record (longCall offset)).key =
    List.replicate frameFilesize 65 from rfl, List.length_replicate] at hk

theorem rejection_moves_counter : ¬ ∀ (W : JsonWriter) (id : Bytes) (h : Host)
    (calls : List Call) (c : Call), Oversized W id h calls c → Atomic W (after W id h calls) c := by
  intro hall
  have hl := long_oversized (.library true) (ascii "s") (.still [] 0) [] uint64Max
  have ha := hall _ _ _ [] (longCall uint64Max) hl
  exact absurd ((rejected_atomic _ _ _ hl).mp ha) (by simp [asks, longCall])

theorem rejection_iff_small :
    let W : JsonWriter := .library true
    let calls : List Call := [⟨uint64Max,[],[],[]⟩,⟨uint64Max,[],[],[]⟩]
    (Atomic W (after W (ascii "s") (.still [] 0) calls) (longCall 7) ↔ asks (longCall 7) = false) ∧
      (Consecutive W (ascii "s") (.still [] 0) calls ↔
        Gapless W (ascii "s") (.still [] 0) calls) := by
  intro W calls
  obtain ⟨ha,hc⟩ := rejection_iff W (ascii "s") (.still [] 0) calls
  exact ⟨ha _ (long_oversized _ _ _ _ _),hc (by decide) (by decide)⟩

end RethinkLog.Rejection
