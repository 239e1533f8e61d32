import Mathlib.Data.List.Induction

/-!
# Journals of named volumes

A journal is a list of volumes in the order in which they were begun. Records
are appended to the last volume only. Forgetting the volumes leaves the log.
-/

set_option autoImplicit false

namespace RethinkLog

abbrev Journal (ν ρ : Type*) := List (ν × List ρ)

namespace Journal

variable {ν ρ : Type*}

def names (j : Journal ν ρ) : List ν := j.map Prod.fst

def records (j : Journal ν ρ) : List ρ := j.flatMap Prod.snd

def roll (j : Journal ν ρ) (n : ν) : Journal ν ρ := j ++ [(n,[])]

def append (r : ρ) : Journal ν ρ → Journal ν ρ
  | [] => []
  | [v] => [(v.1,v.2++[r])]
  | v::w::rest => v :: append r (w::rest)

@[simp] theorem names_roll (j : Journal ν ρ) (n : ν) : names (roll j n) = names j ++ [n] := by
  simp [names, roll]

@[simp] theorem records_roll (j : Journal ν ρ) (n : ν) : records (roll j n) = records j := by
  simp [records, roll]

theorem append_last (j : Journal ν ρ) (v : ν × List ρ) (r : ρ) :
    append r (j++[v]) = j ++ [(v.1,v.2++[r])] := by
  induction j with
  | nil => rfl
  | cons w j ih =>
    cases j with
    | nil => rfl
    | cons x j => exact congrArg (w :: ·) ih

theorem names_append (j : Journal ν ρ) (r : ρ) : names (append r j) = names j := by
  induction j using List.reverseRecOn with
  | nil => rfl
  | append_singleton j v _ => simp [append_last, names]

theorem records_append (j : Journal ν ρ) (r : ρ) (h : j ≠ []) :
    records (append r j) = records j ++ [r] := by
  induction j using List.reverseRecOn with
  | nil => exact absurd rfl h
  | append_singleton j v _ => simp [append_last, records]

end Journal
end RethinkLog
