import Mathlib.Logic.Function.Basic
import Mathlib.Data.List.Induction

/-!
# Deterministic machines and their histories

A machine answers each event and moves to its next state. The history of a
run pairs every event with its answer. Invariants may read the history, so
a property of everything answered so far needs one step lemma only. A run
can be projected to the events that concern one observer; the last section
compares the projection with a second machine that sees nothing else.
-/

set_option autoImplicit false

namespace RethinkLog.Machine

variable {σ τ ε ω α : Type*}

def final (step : σ → ε → ω × σ) : σ → List ε → σ
  | s, [] => s
  | s, e::es => final step (step s e).2 es

def history (step : σ → ε → ω × σ) : σ → List ε → List (ε × ω)
  | _, [] => []
  | s, e::es => (e, (step s e).1) :: history step (step s e).2 es

def answers (step : σ → ε → ω × σ) (s : σ) (es : List ε) : List ω :=
  (history step s es).map Prod.snd

section Runs
variable (step : σ → ε → ω × σ)

@[simp] theorem final_nil (s : σ) : final step s [] = s := rfl

@[simp] theorem history_nil (s : σ) : history step s [] = [] := rfl

theorem final_append (s : σ) (es fs : List ε) :
    final step s (es++fs) = final step (final step s es) fs := by
  induction es generalizing s with
  | nil => rfl
  | cons e es ih => exact ih _

theorem history_append (s : σ) (es fs : List ε) :
    history step s (es++fs) = history step s es ++ history step (final step s es) fs := by
  induction es generalizing s with
  | nil => rfl
  | cons e es ih => simp [history, final, ih]

theorem final_concat (s : σ) (es : List ε) (e : ε) :
    final step s (es++[e]) = (step (final step s es) e).2 := by
  rw [final_append]
  rfl

theorem history_concat (s : σ) (es : List ε) (e : ε) :
    history step s (es++[e]) = history step s es ++ [(e, (step (final step s es) e).1)] := by
  rw [history_append]
  rfl

theorem history_events (s : σ) (es : List ε) : (history step s es).map Prod.fst = es := by
  induction es generalizing s with
  | nil => rfl
  | cons e es ih => simp [history, ih]

theorem answers_cons (s : σ) (e : ε) (es : List ε) :
    answers step s (e::es) = (step s e).1 :: answers step (step s e).2 es := rfl

/-- The invariant rule. The invariant speaks of the state and of the whole
history that led to it, and each step may assume it of everything before. -/
theorem history_invariant (I : σ → List (ε × ω) → Prop) (s : σ) (es : List ε)
    (hinit : I s [])
    (hstep : ∀ t h e, I t h → I (step t e).2 (h++[(e, (step t e).1)])) :
    I (final step s es) (history step s es) := by
  induction es using List.reverseRecOn with
  | nil => exact hinit
  | append_singleton es e ih =>
    rw [final_concat, history_concat]
    exact hstep _ _ e ih

end Runs

def EveryStep (P : List ε → ε → Prop) (es : List ε) : Prop :=
  ∀ before e after, es = before ++ e::after → P before e

theorem everyStep_nil (P : List ε → ε → Prop) : EveryStep P [] := by
  intro before e after h
  simp at h

theorem everyStep_concat (P : List ε → ε → Prop) (es : List ε) (e : ε) :
    EveryStep P (es++[e]) ↔ EveryStep P es ∧ P es e := by
  constructor
  · intro h
    refine ⟨fun before f after he => h before f (after++[e]) ?_,h es e [] rfl⟩
    rw [he, List.append_assoc]
    rfl
  · rintro ⟨hes,he⟩ before f after h
    rcases List.eq_nil_or_concat after with rfl | ⟨rest,x,rfl⟩
    · obtain ⟨rfl,hx⟩ := List.append_inj' h rfl
      obtain rfl : e = f := by simpa using hx
      exact he
    · rw [List.concat_eq_append, ← List.cons_append, ← List.append_assoc] at h
      obtain ⟨rfl,-⟩ := List.append_inj' h rfl
      exact hes before f rest rfl

theorem everyStep_iff_get (P : List ε → ε → Prop) (es : List ε) :
    (∀ i : Fin es.length, P (es.take i) (es.get i)) ↔ EveryStep P es := by
  constructor
  · rintro h before e after rfl
    simpa using h ⟨before.length,by simp⟩
  · intro h i
    exact h _ _ (es.drop (i+1)) (by simp)

instance (P : List ε → ε → Prop) [∀ before e, Decidable (P before e)] (es : List ε) :
    Decidable (EveryStep P es) := decidable_of_iff _ (everyStep_iff_get P es)

section Projection
variable (step : σ → ε → ω × σ) (keep : σ → ε → Bool)

def kept : σ → List ε → List ε
  | _, [] => []
  | s, e::es => if keep s e then e :: kept (step s e).2 es else kept (step s e).2 es

/-- Two machines say the same to one observer, as long as neither answers
outside `ok`. Only the observer's view of the answers is compared, so the
machines may differ in everything it cannot see. -/
theorem projection (other : τ → ε → ω × τ) (R : σ → τ → Prop) (ok : ω → Prop)
    (view : ω → List α)
    (hkeep : ∀ s t e, R s t → keep s e = true → ok (step s e).1 → ok (other t e).1 →
      view (step s e).1 = view (other t e).1 ∧ R (step s e).2 (other t e).2)
    (hskip : ∀ s t e, R s t → keep s e = false → ok (step s e).1 →
      view (step s e).1 = [] ∧ R (step s e).2 t)
    (es : List ε) (s : σ) (t : τ) (hR : R s t)
    (hfirst : ∀ a ∈ answers step s es, ok a)
    (hsecond : ∀ a ∈ answers other t (kept step keep s es), ok a) :
    (answers step s es).flatMap view = (answers other t (kept step keep s es)).flatMap view := by
  induction es generalizing s t with
  | nil => rfl
  | cons e es ih =>
    rw [answers_cons, List.forall_mem_cons] at hfirst
    rw [answers_cons, List.flatMap_cons]
    cases hk : keep s e with
    | false =>
      obtain ⟨hv,hr⟩ := hskip s t e hR hk hfirst.1
      simp only [kept, hk, Bool.false_eq_true, if_false] at hsecond ⊢
      rw [hv, List.nil_append]
      exact ih _ _ hr hfirst.2 hsecond
    | true =>
      simp only [kept, hk, if_true] at hsecond ⊢
      rw [answers_cons, List.forall_mem_cons] at hsecond
      obtain ⟨hv,hr⟩ := hkeep s t e hR hk hfirst.1 hsecond.1
      rw [answers_cons, List.flatMap_cons, hv, ih _ _ hr hfirst.2 hsecond.2]

end Projection

end RethinkLog.Machine
