import Mathlib.Data.Nat.Digits.Defs
import Mathlib.Data.List.Basic

/-!
# Decimal text

Numbers are written as a C++ stream writes them in the classic locale: the
decimal digits without leading zeros, and a minus sign before a negative
number. The text determines the number, and it holds no other character.
-/

set_option autoImplicit false

namespace RethinkLog

abbrev Bytes := List UInt8

def ascii (s : String) : Bytes := s.toList.map Char.toUInt8

namespace Decimal

def digit (d : ℕ) : UInt8 := UInt8.ofNat (48+d)

def IsDigit (b : UInt8) : Prop := 48 ≤ b ∧ b ≤ 57

instance (b : UInt8) : Decidable (IsDigit b) := inferInstanceAs (Decidable (_ ∧ _))

theorem digit_toNat (d : ℕ) (h : d < 10) : (digit d).toNat = 48+d := by
  simp only [digit, UInt8.toNat_ofNat']
  omega

theorem digit_isDigit (d : ℕ) (h : d < 10) : IsDigit (digit d) := by
  have hd := digit_toNat d h
  constructor <;> rw [UInt8.le_iff_toNat_le, hd]
  · exact Nat.le_add_right 48 d
  · change 48+d ≤ 57
    omega

theorem digit_injective {c d : ℕ} (hc : c < 10) (hd : d < 10) (h : digit c = digit d) :
    c = d := by
  have hn := congrArg UInt8.toNat h
  rw [digit_toNat c hc, digit_toNat d hd] at hn
  omega

def natural (n : ℕ) : Bytes :=
  if n = 0 then [digit 0] else ((Nat.digits 10 n).reverse).map digit

def integer : ℤ → Bytes
  | .ofNat n => natural n
  | .negSucc n => 45 :: natural (n+1)

example : integer (-1507) = ascii "-1507" := by decide

theorem natural_isDigit (n : ℕ) : ∀ b ∈ natural n, IsDigit b := by
  intro b hb
  unfold natural at hb
  split at hb
  · obtain rfl : b = digit 0 := by simpa using hb
    exact digit_isDigit 0 (by decide)
  · simp only [List.mem_map, List.mem_reverse] at hb
    obtain ⟨d,hd,rfl⟩ := hb
    exact digit_isDigit d (Nat.digits_lt_base (by decide) hd)

theorem map_digit_injective {cs ds : List ℕ} (hc : ∀ c ∈ cs, c < 10) (hd : ∀ d ∈ ds, d < 10)
    (h : cs.map digit = ds.map digit) : cs = ds := by
  induction cs generalizing ds with
  | nil => simpa using h.symm
  | cons c cs ih =>
    cases ds with
    | nil => simp at h
    | cons d ds =>
      simp only [List.map_cons, List.cons.injEq] at h
      have hcd := digit_injective (hc c (by simp)) (hd d (by simp)) h.1
      have ht := ih (fun x hx => hc x (by simp [hx])) (fun x hx => hd x (by simp [hx])) h.2
      rw [hcd,ht]

theorem positive_ne_zero (n : ℕ) (hn : n ≠ 0) :
    ((Nat.digits 10 n).reverse).map digit ≠ [digit 0] := by
  intro h
  have hd : (Nat.digits 10 n).reverse = [0] :=
    map_digit_injective (fun c hc => Nat.digits_lt_base (by decide) (List.mem_reverse.mp hc))
      (by simp) h
  have hz : Nat.digits 10 n = [0] := by simpa using congrArg List.reverse hd
  have h0 : n = 0 := by simpa [hz] using (Nat.ofDigits_digits 10 n).symm
  exact hn h0

theorem natural_injective : Function.Injective natural := by
  intro m n h
  unfold natural at h
  split at h <;> split at h
  · omega
  · rename_i hn
    exact absurd h.symm (positive_ne_zero n hn)
  · rename_i hm _
    exact absurd h (positive_ne_zero m hm)
  · have hl (k : ℕ) : ∀ d ∈ (Nat.digits 10 k).reverse, d < 10 :=
      fun d hd => Nat.digits_lt_base (by decide) (List.mem_reverse.mp hd)
    exact Nat.digits_inj_iff.mp (List.reverse_injective (map_digit_injective (hl m) (hl n) h))

theorem minus_not_digit : ¬ IsDigit 45 := by decide

theorem integer_injective : Function.Injective integer := by
  intro y z h
  have hsign (n : ℕ) (t : Bytes) : natural n ≠ 45 :: t :=
    fun he => minus_not_digit (natural_isDigit n 45 (by rw [he]; simp))
  cases y with
  | ofNat m =>
    cases z with
    | ofNat n => exact congrArg Int.ofNat (natural_injective h)
    | negSucc n => exact absurd h (hsign m _)
  | negSucc m =>
    cases z with
    | ofNat n => exact absurd h.symm (hsign n _)
    | negSucc n =>
      have ht : natural (m+1) = natural (n+1) := List.tail_eq_of_cons_eq h
      have hmn := natural_injective ht
      exact congrArg Int.negSucc (by omega)

theorem integer_plain (z : ℤ) (c : UInt8) (hc : ¬ IsDigit c) (hm : c ≠ 45) : c ∉ integer z := by
  intro h
  cases z with
  | ofNat n => exact hc (natural_isDigit n c h)
  | negSucc n =>
    rcases List.mem_cons.mp h with h | h
    · exact hm h
    · exact hc (natural_isDigit _ c h)

theorem separated {c : UInt8} {xs ys us vs : Bytes} (hx : c ∉ xs) (hy : c ∉ ys)
    (h : xs ++ c::us = ys ++ c::vs) : xs = ys ∧ us = vs := by
  induction xs generalizing ys with
  | nil =>
    cases ys with
    | nil => simpa using h
    | cons y ys => exact absurd (by simp [(List.cons_eq_cons.mp h).1]) hy
  | cons x xs ih =>
    cases ys with
    | nil => exact absurd (by simp [(List.cons_eq_cons.mp h).1]) hx
    | cons y ys =>
      obtain ⟨hxy,ht⟩ := List.cons_eq_cons.mp h
      obtain ⟨hs,hu⟩ := ih (fun hc => hx (by simp [hc])) (fun hc => hy (by simp [hc])) ht
      exact ⟨by rw [hxy,hs],hu⟩

theorem digits_fold (b n : ℕ) : ((Nat.digits b n).reverse).foldl (fun v d => b*v+d) 0 = n := by
  rw [List.foldl_reverse]
  have hfold := Nat.ofDigits_eq_foldr b (Nat.digits b n)
  rw [Nat.ofDigits_digits] at hfold
  refine Eq.trans ?_ hfold.symm
  congr 1
  funext d v
  exact Nat.add_comm _ _

def value (w : Bytes) : ℕ := w.foldl (fun n b => 10*n+(b.toNat-48)) 0

@[simp] theorem value_nil : value [] = 0 := rfl

theorem value_concat (w : Bytes) (c : UInt8) : value (w++[c]) = value w*10+(c.toNat-48) := by
  simp [value, Nat.mul_comm]

theorem value_natural (n : ℕ) : value (natural n) = n := by
  unfold value natural
  by_cases hn : n = 0
  · subst hn
    rfl
  · rw [if_neg hn, List.foldl_map]
    have hlt : ∀ d ∈ (Nat.digits 10 n).reverse, d < 10 :=
      fun d hd => Nat.digits_lt_base (by decide) (List.mem_reverse.mp hd)
    have hcongr (v : ℕ) : ((Nat.digits 10 n).reverse).foldl
        (fun n d => 10*n+((digit d).toNat-48)) v =
          ((Nat.digits 10 n).reverse).foldl (fun v d => 10*v+d) v := by
      apply List.foldl_ext
      intro v d hd
      rw [digit_toNat d (hlt d hd), Nat.add_sub_cancel_left]
    rw [hcongr, digits_fold]

theorem natural_ne_nil (n : ℕ) : natural n ≠ [] := by
  unfold natural
  split
  · simp
  · rename_i hn
    simpa [Nat.digits_eq_nil_iff_eq_zero] using hn

end Decimal

end RethinkLog
