import Mathlib.Data.List.Induction
import Mathlib.Data.List.Chain
import Mathlib.Algebra.GroupWithZero.Nat

/-!
# Next-fit packing

Items arrive one after the other and only the last bin is open. An item that
the open bin has no room for begins the next bin, so two bins in a row always
hold more than one of them could.
-/

set_option autoImplicit false

namespace RethinkLog.Packing

variable {α : Type*} (size : α → ℕ) (capacity : ℕ)

def load (bin : List α) : ℕ := (bin.map size).sum

def place : List (List α) → α → List (List α)
  | [], x => [[x]]
  | [bin], x => if load size bin + size x ≤ capacity then [bin++[x]] else [bin,[x]]
  | bin::next::rest, x => bin :: place (next::rest) x

def nextFit (xs : List α) : List (List α) := xs.foldl (place size capacity) []

example : nextFit id 10 [6,3,2,8,1,1] = [[6,3],[2,8],[1,1]] := by decide

theorem place_last (bins : List (List α)) (bin : List α) (x : α) :
    place size capacity (bins++[bin]) x = if load size bin + size x ≤ capacity
      then bins ++ [bin++[x]] else bins ++ [bin,[x]] := by
  induction bins with
  | nil => rfl
  | cons first bins ih =>
    have hc : place size capacity (first :: (bins++[bin])) x =
        first :: place size capacity (bins++[bin]) x := by
      cases bins <;> rfl
    rw [List.cons_append, hc, ih]
    split <;> rfl

theorem nextFit_concat (xs : List α) (x : α) :
    nextFit size capacity (xs++[x]) = place size capacity (nextFit size capacity xs) x := by
  simp [nextFit]

/-- No bin is empty, and two bins in a row could not have been one. -/
structure Tight (bins : List (List α)) : Prop where
  filled : ∀ bin ∈ bins, bin ≠ []
  adjacent : bins.IsChain (fun a b => capacity < load size a + load size b)

theorem place_tight (bins : List (List α)) (x : α) (ht : Tight size capacity bins) :
    Tight size capacity (place size capacity bins x) := by
  induction bins using List.reverseRecOn with
  | nil => exact ⟨by simp [place],by simp [place]⟩
  | append_singleton bins bin _ =>
    obtain ⟨hf,ha⟩ := ht
    have hinit : ∀ b ∈ bins, b ≠ [] := fun b hb => hf b (by simp [hb])
    rw [List.isChain_append] at ha
    rw [place_last]
    by_cases hx : load size bin + size x ≤ capacity
    · rw [if_pos hx]
      have hgrown : load size bin ≤ load size (bin++[x]) := by simp [load]
      refine ⟨?_,?_⟩
      · intro b hb
        rcases List.mem_append.mp hb with hb | hb
        · exact hinit b hb
        · simp [List.mem_singleton.mp hb]
      · rw [List.isChain_append]
        refine ⟨ha.1,List.isChain_singleton _,?_⟩
        intro a hl b hb
        obtain rfl : bin++[x] = b := by simpa using hb
        have h := ha.2.2 a hl bin (by simp)
        omega
    · rw [if_neg hx]
      have hsize : load size [x] = size x := by simp [load]
      refine ⟨?_,?_⟩
      · intro b hb
        rcases List.mem_append.mp hb with hb | hb
        · exact hinit b hb
        · rcases List.mem_pair.mp hb with rfl | rfl
          · exact hf b (by simp)
          · simp
      · rw [List.isChain_append]
        refine ⟨ha.1,?_,?_⟩
        · rw [List.isChain_pair, hsize]
          omega
        · intro a hl b hb
          obtain rfl : bin = b := by simpa using hb
          exact ha.2.2 a hl bin (by simp)

theorem nextFit_tight (xs : List α) : Tight size capacity (nextFit size capacity xs) := by
  induction xs using List.reverseRecOn with
  | nil => exact ⟨by simp [nextFit],by simp [nextFit]⟩
  | append_singleton xs x ih =>
    rw [nextFit_concat]
    exact place_tight size capacity _ x ih

end RethinkLog.Packing
