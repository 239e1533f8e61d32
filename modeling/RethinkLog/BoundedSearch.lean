import Mathlib.Data.Finset.Card
import Mathlib.Data.Finset.Image

/-!
# Searching the first free number

The search tries consecutive numbers with a test that may fail. Fuel bounds
it from outside. When the numbers name distinct members of a finite set as
long as the test succeeds, one try more than the set has members is enough.
A search for which no fuel is enough never ends.
-/

set_option autoImplicit false

namespace RethinkLog.BoundedSearch

variable {ε α : Type*}

def search (test : ℕ → Except ε Bool) : ℕ → ℕ → Except ε (Option ℕ)
  | 0, _ => .ok none
  | fuel+1, ix => match test ix with
    | .error e => .error e
    | .ok true => search test fuel (ix+1)
    | .ok false => .ok (some ix)

theorem search_found (test : ℕ → Except ε Bool) (fuel ix n : ℕ)
    (h : search test fuel ix = .ok (some n)) :
    ix ≤ n ∧ n < ix+fuel ∧ test n = .ok false ∧ ∀ j, ix ≤ j → j < n → test j = .ok true := by
  induction fuel generalizing ix with
  | zero => simp [search] at h
  | succ fuel ih =>
    simp only [search] at h
    split at h
    · cases h
    · rename_i ht
      obtain ⟨h1,h2,h3,h4⟩ := ih (ix+1) h
      refine ⟨by omega,by omega,h3,fun j hj hjn => ?_⟩
      rcases Nat.eq_or_lt_of_le hj with rfl | hlt
      · exact ht
      · exact h4 j hlt hjn
    · rename_i ht
      obtain rfl : ix = n := by simpa using h
      exact ⟨le_refl _,by omega,ht,fun j _ _ => by omega⟩

theorem search_exhausted (test : ℕ → Except ε Bool) (fuel ix : ℕ)
    (h : search test fuel ix = .ok none) : ∀ j, ix ≤ j → j < ix+fuel → test j = .ok true := by
  induction fuel generalizing ix with
  | zero => intro j _ _; omega
  | succ fuel ih =>
    simp only [search] at h
    split at h
    · cases h
    · rename_i ht
      intro j hj hjn
      rcases Nat.eq_or_lt_of_le hj with rfl | hlt
      · exact ht
      · exact ih (ix+1) h j hlt (by omega)
    · simp at h

theorem search_taken (test : ℕ → Except ε Bool) (fuel ix : ℕ)
    (h : ∀ j, ix ≤ j → j < ix+fuel → test j = .ok true) : search test fuel ix = .ok none := by
  induction fuel generalizing ix with
  | zero => rfl
  | succ fuel ih =>
    rw [search, h ix (le_refl _) (by omega)]
    exact ih (ix+1) (fun j hj hjn => h j (by omega) (by omega))

def Endless (test : ℕ → Except ε Bool) : Prop := ∀ fuel, search test fuel 0 = .ok none

theorem endless_iff (test : ℕ → Except ε Bool) : Endless test ↔ ∀ j, test j = .ok true :=
  ⟨fun h j => search_exhausted test (j+1) 0 (h _) j (Nat.zero_le j) (by omega),
    fun h fuel => search_taken test fuel 0 (fun j _ _ => h j)⟩

theorem search_error (test : ℕ → Except ε Bool) (fuel ix : ℕ) (e : ε)
    (h : search test fuel ix = .error e) :
    ∃ n, ix ≤ n ∧ test n = .error e ∧ ∀ j, ix ≤ j → j < n → test j = .ok true := by
  induction fuel generalizing ix with
  | zero => simp [search] at h
  | succ fuel ih =>
    simp only [search] at h
    split at h
    · rename_i ht
      obtain rfl := Except.error.inj h
      exact ⟨ix,le_refl _,ht,fun j _ _ => by omega⟩
    · rename_i ht
      obtain ⟨n,hn,he,hbefore⟩ := ih (ix+1) h
      refine ⟨n,by omega,he,fun j hj hjn => ?_⟩
      rcases Nat.eq_or_lt_of_le hj with rfl | hlt
      · exact ht
      · exact hbefore j hlt hjn
    · simp at h

theorem names_bound (names : ℕ → α) (hinj : Function.Injective names) (taken : Finset α)
    (n : ℕ) (h : ∀ j < n, names j ∈ taken) : n ≤ taken.card := by
  have hsub : (Finset.range n).map ⟨names,hinj⟩ ⊆ taken := by
    intro x hx
    obtain ⟨j,hj,rfl⟩ := Finset.mem_map.mp hx
    exact h j (Finset.mem_range.mp hj)
  simpa using Finset.card_le_card hsub

theorem search_enough (test : ℕ → Except ε Bool) (names : ℕ → α)
    (hinj : Function.Injective names) (taken : Finset α)
    (ht : ∀ j, test j = .ok true → names j ∈ taken) :
    search test (taken.card+1) 0 ≠ .ok none := by
  intro h
  have hall := search_exhausted test _ 0 h
  have hb := names_bound names hinj taken (taken.card+1)
    (fun j hj => ht j (hall j (by omega) (by omega)))
  omega

end RethinkLog.BoundedSearch
