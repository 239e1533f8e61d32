import Mathlib.Data.List.Basic

/-!
# Prefix codes and the streams written with them

A code word ends where it ends: whatever is written behind two words, equal
streams begin with equal words. The combinators keep this property, so a
record format is assembled from symbol codes and needs no separate parser.
A stream may be followed by padding on which no word can start.
-/

set_option autoImplicit false

namespace RethinkLog

structure PrefixCode (α β : Type*) where
  encode : α → List β
  unique : ∀ {a b : α} {u v : List β}, encode a ++ u = encode b ++ v → a = b

namespace PrefixCode

variable {α β γ δ : Type*}

theorem rest_unique (C : PrefixCode α γ) {a b : α} {u v : List γ}
    (h : C.encode a ++ u = C.encode b ++ v) : u = v := by
  have hab := C.unique h
  subst hab
  exact List.append_cancel_left h

def stream (C : PrefixCode α γ) (xs : List α) : List γ := xs.flatMap C.encode

@[simp] theorem stream_nil (C : PrefixCode α γ) : C.stream [] = [] := rfl

@[simp] theorem stream_cons (C : PrefixCode α γ) (x : α) (xs : List α) :
    C.stream (x::xs) = C.encode x ++ C.stream xs := rfl

def Stops (C : PrefixCode α γ) (r : List γ) : Prop := ∀ a u, C.encode a ++ u ≠ r

/-- A stream determines its words, whatever the code cannot read behind it. -/
theorem stream_unique (C : PrefixCode α γ) {xs ys : List α} {r s : List γ}
    (hr : C.Stops r) (hs : C.Stops s) (h : C.stream xs ++ r = C.stream ys ++ s) :
    xs = ys ∧ r = s := by
  induction xs generalizing ys with
  | nil =>
    cases ys with
    | nil => exact ⟨rfl,h⟩
    | cons y ys => exact absurd h.symm (by simpa [List.append_assoc] using hr y _)
  | cons x xs ih =>
    cases ys with
    | nil => exact absurd h (by simpa [List.append_assoc] using hs x _)
    | cons y ys =>
      simp only [stream_cons, List.append_assoc] at h
      have hxy := C.unique h
      obtain ⟨hxs,hrs⟩ := ih (C.rest_unique h)
      exact ⟨by rw [hxy,hxs],hrs⟩

def delimited (C : PrefixCode α γ) (d : List γ) (hd : ∀ r, C.Stops (d++r)) :
    PrefixCode (List α) γ where
  encode xs := C.stream xs ++ d
  unique h := by
    simp only [List.append_assoc] at h
    exact (C.stream_unique (hd _) (hd _) h).1

def pair (C : PrefixCode α γ) (D : PrefixCode β γ) : PrefixCode (α × β) γ where
  encode x := C.encode x.1 ++ D.encode x.2
  unique h := by
    simp only [List.append_assoc] at h
    exact Prod.ext (C.unique h) (D.unique (C.rest_unique h))

def comap (C : PrefixCode β γ) (f : α → β) (hf : Function.Injective f) : PrefixCode α γ where
  encode a := C.encode (f a)
  unique h := hf (C.unique h)

def bracket (lead : List γ) (C : PrefixCode α γ) (trail : List γ) : PrefixCode α γ where
  encode a := lead ++ C.encode a ++ trail
  unique h := by
    simp only [List.append_assoc] at h
    exact C.unique (List.append_cancel_left h)

theorem bracket_stops {lead : List γ} {C : PrefixCode α γ} {trail r : List γ} {c : γ}
    (hlead : lead.head? = some c) (hr : r.head? ≠ some c) : (bracket lead C trail).Stops r := by
  intro a u h
  apply hr
  rw [← h]
  simp [bracket, List.head?_append, hlead]

end PrefixCode
end RethinkLog
