import RethinkLog.Decimal
import RethinkLog.Machine
import Mathlib.Data.List.Nodup
import Mathlib.Data.Int.Notation

/-!
# Building objects in a mapped file

A loop builds one named object in each iteration. When the file has no room
left it is closed, grown and mapped again, and the loop goes on with the next
object. The iteration that failed is not made up for, so the object it was
building stays as far as it had come.
-/

set_option autoImplicit false

namespace RethinkLog.MappedObjects

structure SubEntry where
  id : ℤ
  name : Bytes
  deriving DecidableEq, Repr

structure RootObject2 where
  id : ℤ
  name2 : Bytes
  other : Option ℤ
  docs : List SubEntry
  deriving DecidableEq, Repr

structure Placed where
  place : ℤ
  object : RootObject2
  deriving DecidableEq, Repr

/-- The named objects of `data.bin`. -/
abbrev DataFile := Bytes → Option Placed

def kind : Bytes := ascii "object of its kind"

def objName (x : ℕ) : Bytes := ascii "obj" ++ Decimal.natural x

inductive Point where
  | construct
  | name
  | entry (k : Fin 3)
  | push (k : Fin 3)
  deriving DecidableEq, Repr

/-- What an iteration meets: the place for a new object, the allocation that
fails, and the address at which the file is mapped after it has grown. -/
structure Luck where
  place : ℤ
  fault : Option Point
  base : ℤ

structure Mapping where
  file : DataFile
  base : ℤ
  pp : Option ℤ

def mapped (file : DataFile) (base : ℤ) : Mapping := ⟨file,base,none⟩

def findOrConstruct (file : DataFile) (name : Bytes) (l : Luck) : Option Placed :=
  match file name with
  | some q => some q
  | none => if l.fault = some .construct then none else some ⟨l.place,⟨0,[],none,[]⟩⟩

/-- The calls of `push_back`, up to the first that fails. -/
def pushBack (fault : Option Point) (name : Bytes) :
    List (Fin 3) → List SubEntry → Bool × List SubEntry
  | [], docs => (true, docs)
  | k::ks, docs => if fault = some (.entry k) ∨ fault = some (.push k) then (false, docs)
      else pushBack fault name ks (docs++[⟨k+1,name⟩])

def build (fault : Option Point) (x : ℕ) (other : Option ℤ) (p : RootObject2) :
    Bool × RootObject2 :=
  let p := { p with id := x }
  if fault = some .name then (false, p)
  else
    let docs := pushBack fault (objName x) [0,1,2] []
    let p := { p with name2 := kind, other := other, docs := docs.2 }
    if docs.1 then (true, { p with docs := p.docs.dropLast }) else (false, p)

section Loop
variable (field : ℤ) (luck : ℕ → Luck)

/-- One iteration, and whether it came to its end. The pointer `_other` lies
`field` behind the start of its object. -/
def step (s : Mapping) (x : ℕ) : Bool × Mapping :=
  match findOrConstruct s.file (objName x) (luck x) with
  | none => (false, { s with base := (luck x).base })
  | some q =>
    let r := build (luck x).fault x (s.pp.map (fun a => a-(s.base+q.place+field))) q.object
    let file := Function.update s.file (objName x) (some ⟨q.place,r.2⟩)
    if r.1 then (true, ⟨file,s.base,some (s.base+q.place)⟩)
    else (false, ⟨file,(luck x).base,s.pp⟩)

def testWrite (s : Mapping) (bound : ℕ) : Mapping :=
  Machine.final (step field luck) s (List.range' 1 (bound-1))

def Filled (p : RootObject2) (x : ℕ) : Prop :=
  p.name2 = kind ∧ p.docs = [⟨1,objName x⟩,⟨2,objName x⟩]

def Whole (file : DataFile) (x : ℕ) : Prop :=
  ∃ q, file (objName x) = some q ∧ q.object.id = x ∧ Filled q.object x

/-- The assignments leave an object filled when they fail at its last
sub-entry, or fail to name an object that was filled before. -/
def Stands (p : RootObject2) (x : ℕ) : Option Point → Prop
  | some .name => Filled p x
  | some (.entry k) => k = 2
  | some (.push k) => k = 2
  | _ => True

def Survives (file : DataFile) (x : ℕ) (l : Luck) : Prop :=
  ∃ q, findOrConstruct file (objName x) l = some q ∧ Stands q.object x l.fault

theorem objName_injective : Function.Injective objName := by
  intro x y h
  exact Decimal.natural_injective (List.append_cancel_left h)

theorem step_frame (s : Mapping) (x y : ℕ) (hy : y ≠ x) :
    (step field luck s x).2.file (objName y) = s.file (objName y) := by
  have hn : objName y ≠ objName x := fun h => hy (objName_injective h)
  unfold step
  split
  · rfl
  · dsimp only
    split <;> exact Function.update_of_ne hn _ _

theorem run_frame (s : Mapping) (xs : List ℕ) (y : ℕ) (hy : y ∉ xs) :
    (Machine.final (step field luck) s xs).file (objName y) = s.file (objName y) := by
  induction xs generalizing s with
  | nil => rfl
  | cons x xs ih =>
    rw [List.mem_cons, not_or] at hy
    exact (ih _ hy.2).trans (step_frame field luck s x y hy.1)

theorem whole_congr {f g : DataFile} {x : ℕ} (h : f (objName x) = g (objName x)) :
    Whole f x ↔ Whole g x := by simp only [Whole, h]

theorem survives_congr {f g : DataFile} {x : ℕ} (h : f (objName x) = g (objName x)) (l : Luck) :
    Survives f x l ↔ Survives g x l := by simp only [Survives, findOrConstruct, h]

theorem build_filled (fault : Option Point) (x : ℕ) (other : Option ℤ) (p : RootObject2) :
    (build fault x other p).2.id = x ∧ (Filled (build fault x other p).2 x ↔ Stands p x fault) := by
  rcases fault with _ | _ | _ | k | k
  · simp [build, pushBack, Filled, Stands]
  · simp [build, pushBack, Filled, Stands]
  · simp [build, Filled, Stands]
  · obtain rfl | rfl | rfl : k = 0 ∨ k = 1 ∨ k = 2 := by omega
    all_goals simp [build, pushBack, Filled, Stands]
  · obtain rfl | rfl | rfl : k = 0 ∨ k = 1 ∨ k = 2 := by omega
    all_goals simp [build, pushBack, Filled, Stands]

theorem step_found (s : Mapping) (x : ℕ) {q : Placed}
    (hq : findOrConstruct s.file (objName x) (luck x) = some q) :
    (step field luck s x).2.file (objName x) = some ⟨q.place,(build (luck x).fault x
      (s.pp.map (fun a => a-(s.base+q.place+field))) q.object).2⟩ := by
  simp only [step, hq]
  split <;> exact Function.update_self _ _ _

theorem step_whole (s : Mapping) (x : ℕ) :
    Whole (step field luck s x).2.file x ↔ Survives s.file x (luck x) := by
  cases hq : findOrConstruct s.file (objName x) (luck x) with
  | none =>
    have habsent : s.file (objName x) = none := by
      unfold findOrConstruct at hq
      split at hq
      · cases hq
      · assumption
    simp [Whole, Survives, step, hq, habsent]
  | some q =>
    obtain ⟨hid,hfilled⟩ := build_filled (luck x).fault x
      (s.pp.map (fun a => a-(s.base+q.place+field))) q.object
    simp only [Whole, step_found field luck s x hq, Option.some.injEq, exists_eq_left',
      hid, true_and, hfilled, Survives, hq]

/-- The loop leaves every object whole exactly when each survives the failure
of its own iteration. -/
theorem built_iff (file : DataFile) (base : ℤ) (bound : ℕ) :
    (∀ x, 1 ≤ x → x < bound → Whole (testWrite field luck (mapped file base) bound).file x) ↔
      ∀ x, 1 ≤ x → x < bound → Survives file x (luck x) := by
  refine forall_congr' fun x => forall_congr' fun h1 => forall_congr' fun hx => ?_
  have hsplit : List.range' 1 (bound-1) =
      List.range' 1 (x-1) ++ x :: List.range' (x+1) (bound-1-x) := by
    have happend := List.range'_append_1 (s := 1) (m := x-1) (n := bound-1-x+1)
    rw [Nat.add_sub_cancel' h1, show x-1+(bound-1-x+1) = bound-1 by omega] at happend
    exact happend.symm
  have hbefore : x ∉ List.range' 1 (x-1) := by simp [List.mem_range']; omega
  have hafter : x ∉ List.range' (x+1) (bound-1-x) := by simp [List.mem_range']; omega
  rw [testWrite, hsplit, Machine.final_append, Machine.final,
    whole_congr (run_frame field luck _ _ x hafter), step_whole,
    survives_congr (run_frame field luck _ _ x hbefore)]
  rfl

end Loop

theorem object_lost : ¬ ∀ (field : ℤ) (luck : ℕ → Luck) (file : DataFile) (base : ℤ) (bound x : ℕ),
    1 ≤ x → x < bound → Whole (testWrite field luck (mapped file base) bound).file x := by
  intro hall
  have hw := hall 0 (fun x => ⟨0,if x = 1 then some .construct else none,0⟩) (fun _ => none) 0 2 1
    (by decide) (by decide)
  obtain ⟨q,hq,-⟩ := (step_whole _ _ _ _).mp hw
  exact absurd hq (by simp [findOrConstruct, mapped])

end RethinkLog.MappedObjects
