import Mathlib.Data.List.Basic

/-!
# Items that leave in the order they came

An outbox keeps its items until they are settled. The item in front is
delivered or fails, and when it fails everything behind it is dropped. No item
is settled twice or forgotten, and the order stays.
-/

set_option autoImplicit false

namespace RethinkLog

inductive Fate where
  | delivered
  | failed
  | dropped
  deriving DecidableEq, Repr

structure Outbox (α : Type*) where
  settled : List (α × Fate)
  waiting : List α

namespace Outbox

variable {α : Type*}

inductive Op (α : Type*) where
  | put (x : α)
  | deliver
  | fail

def empty : Outbox α := ⟨[],[]⟩

def step (b : Outbox α) : Op α → Outbox α
  | .put x => ⟨b.settled,b.waiting++[x]⟩
  | .deliver => ⟨b.settled++(b.waiting.take 1).map (·,.delivered),b.waiting.drop 1⟩
  | .fail => ⟨b.settled++(b.waiting.take 1).map (·,.failed)++(b.waiting.drop 1).map (·,.dropped),[]⟩

def run (b : Outbox α) (ops : List (Op α)) : Outbox α := ops.foldl step b

def Op.item : Op α → Option α
  | .put x => some x
  | _ => none

def puts (ops : List (Op α)) : List α := ops.filterMap Op.item

def items (b : Outbox α) : List α := b.settled.map Prod.fst ++ b.waiting

def fated (b : Outbox α) (p : Fate → Bool) : List α :=
  (b.settled.filter (fun x => p x.2)).map Prod.fst

theorem run_concat (b : Outbox α) (ops : List (Op α)) (op : Op α) :
    b.run (ops++[op]) = (b.run ops).step op := by
  rw [run, List.foldl_append]
  rfl

theorem step_items (b : Outbox α) (op : Op α) : (b.step op).items = b.items ++ puts [op] := by
  have hwaiting : b.waiting.take 1 ++ b.waiting.tail = b.waiting := by
    rw [← List.drop_one, List.take_append_drop]
  cases op with
  | put x => simp [items, step, puts, Op.item]
  | deliver => simp [items, step, puts, Op.item, Function.comp_def, hwaiting]
  | fail => simp [items, step, puts, Op.item, Function.comp_def, hwaiting]

theorem run_items (b : Outbox α) (ops : List (Op α)) :
    (b.run ops).items = b.items ++ puts ops := by
  induction ops generalizing b with
  | nil => simp [run, puts]
  | cons op ops ih =>
    have hrun : b.run (op::ops) = (b.step op).run ops := rfl
    have hputs : puts (op::ops) = puts [op] ++ puts ops := List.filterMap_append (l := [op])
    rw [hrun, ih, step_items, hputs, List.append_assoc]

theorem fated_step (b : Outbox α) (q : Fate → Bool) (op : Op α) {p : α} {rest : List α}
    (h : b.waiting = p::rest) : (b.step op).fated q = b.fated q ++ match op with
      | .put _ => []
      | .deliver => if q .delivered then [p] else []
      | .fail => (if q .failed then [p] else []) ++ if q .dropped then rest else [] := by
  cases op with
  | put x => simp [fated, step]
  | deliver =>
    cases hd : q .delivered <;> simp [fated, step, h, hd]
  | fail =>
    cases hf : q .failed <;> cases hd : q .dropped <;>
      simp [fated, step, h, hf, hd, List.filter_map, Function.comp_def]

theorem run_delivered (b : Outbox α) (ops : List (Op α)) (hb : ∀ x ∈ b.settled, x.2 = .delivered)
    (h : ∀ op ∈ ops, op ≠ .fail) : ∀ x ∈ (b.run ops).settled, x.2 = .delivered := by
  induction ops generalizing b with
  | nil => exact hb
  | cons op ops ih =>
    refine ih (b.step op) ?_ (fun o ho => h o (by simp [ho]))
    cases op with
    | put x => exact hb
    | deliver =>
      intro x hx
      rcases List.mem_append.mp hx with hx | hx
      · exact hb x hx
      · obtain ⟨y,-,rfl⟩ := List.mem_map.mp hx
        rfl
    | fail => exact absurd rfl (h .fail (by simp))

end Outbox

end RethinkLog
