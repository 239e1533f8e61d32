import RethinkLog.MappedObjects

/-!
# Links between mapped objects

The loop keeps the address of the object it completed last, while the file may
be mapped elsewhere before the next object is linked to it. A stored link is a
distance, so it moves with the file. It is right exactly when both objects
were built in mappings at one address.
-/

set_option autoImplicit false

namespace RethinkLog.MappedObjects
open Machine

def completes (file : DataFile) (luck : ℕ → Luck) (x : ℕ) : Bool :=
  match (luck x).fault with
  | none => true
  | some .construct => (file (objName x)).isSome
  | some _ => false

def baseAfter (file : DataFile) (luck : ℕ → Luck) (base : ℤ) (xs : List ℕ) : ℤ :=
  xs.foldl (fun b x => if completes file luck x then b else (luck x).base) base

section Loop
variable (field : ℤ) (luck : ℕ → Luck) (file : DataFile) (base : ℤ)

def completed (xs : List ℕ) : List ℕ :=
  ((history (step field luck) (mapped file base) xs).filter Prod.snd).map Prod.fst

def Mapping.address (s : Mapping) (x : ℕ) : Option ℤ :=
  (s.file (objName x)).map (fun q => s.base+q.place)

def PointsTo (s : Mapping) (x : ℕ) (target : Option ℤ) : Prop :=
  ∃ q, s.file (objName x) = some q ∧
    q.object.other.map (fun d => s.base+q.place+field+d) = target

def Linked (s : Mapping) (xs : List ℕ) : Prop :=
  EveryStep (fun before x => PointsTo field s x (before.getLast?.bind s.address)) xs

def baseAt (x : ℕ) : ℤ := baseAfter file luck base (List.range' 1 (x-1))

def Steady (bound : ℕ) : Prop :=
  EveryStep (fun before x =>
      ∀ a, before.getLast? = some a → baseAt luck file base a = baseAt luck file base x)
    ((List.range' 1 (bound-1)).filter (completes file luck))

def placeOf (f : DataFile) (x : ℕ) : ℤ := ((f (objName x)).map Placed.place).getD 0

def link (f : DataFile) (before : List ℕ) (x : ℕ) : Option ℤ := before.getLast?.map
  (fun a => baseAt luck file base a+placeOf f a-(baseAt luck file base x+placeOf f x+field))

/-- What the run keeps: the pointer to the last object is an address in the
mapping that object was built in, and so are the links. -/
structure Kept (n : ℕ) (s : Mapping) (done : List ℕ) : Prop where
  mapping : s.base = baseAt luck file base (n+1)
  members : done = (List.range' 1 n).filter (completes file luck)
  pp : s.pp = done.getLast?.map (fun a => baseAt luck file base a+placeOf s.file a)
  there : ∀ x ∈ done, ∃ q, s.file (objName x) = some q
  links : EveryStep (fun before x => ∀ q, s.file (objName x) = some q →
    q.object.other = link field luck file base s.file before x) done

theorem build_completes (fault : Option Point) (x : ℕ) (other : Option ℤ) (p : RootObject2) :
    ((build fault x other p).1 = true ↔ fault = none ∨ fault = some .construct) ∧
      ((build fault x other p).1 = true → (build fault x other p).2.other = other) := by
  rcases fault with _ | _ | _ | k | k
  · simp [build, pushBack]
  · simp [build, pushBack]
  · simp [build]
  · obtain rfl | rfl | rfl : k = 0 ∨ k = 1 ∨ k = 2 := by omega
    all_goals simp [build, pushBack]
  · obtain rfl | rfl | rfl : k = 0 ∨ k = 1 ∨ k = 2 := by omega
    all_goals simp [build, pushBack]

theorem completes_congr {f g : DataFile} {x : ℕ} (h : f (objName x) = g (objName x)) :
    completes f luck x = completes g luck x := by simp only [completes, h]

theorem completes_absent {f : DataFile} {x : ℕ}
    (hq : findOrConstruct f (objName x) (luck x) = none) : completes f luck x = false := by
  unfold findOrConstruct at hq
  split at hq
  · cases hq
  · rename_i hf
    split at hq
    · rename_i hc
      simp [completes, hc, hf]
    · cases hq

theorem completes_found {f : DataFile} {x : ℕ} {q : Placed}
    (hq : findOrConstruct f (objName x) (luck x) = some q) :
    completes f luck x = true ↔ (luck x).fault = none ∨ (luck x).fault = some .construct := by
  unfold findOrConstruct at hq
  unfold completes
  rcases hl : (luck x).fault with _ | _ | _ | k | k
  · simp
  · cases hf : f (objName x) with
    | none => simp [hf, hl] at hq
    | some q => simp
  · simp
  · simp
  · simp

/-- An iteration completes its object in the current mapping, or it leaves the
pointer to the last one and has the file mapped anew. -/
theorem step_outcome (s : Mapping) (x : ℕ) (hs : s.file (objName x) = file (objName x)) :
    (completes file luck x = true ∧ ∃ q, (step field luck s x).2.file (objName x) = some q ∧
      q.object.other = s.pp.map (fun a => a-(s.base+q.place+field)) ∧
      (step field luck s x).1 = true ∧ (step field luck s x).2.base = s.base ∧
      (step field luck s x).2.pp = some (s.base+q.place)) ∨
    (completes file luck x = false ∧ (step field luck s x).1 = false ∧
      (step field luck s x).2.base = (luck x).base ∧ (step field luck s x).2.pp = s.pp) := by
  rw [← completes_congr luck hs]
  cases hq : findOrConstruct s.file (objName x) (luck x) with
  | none =>
    refine Or.inr ⟨completes_absent luck hq,?_,?_,?_⟩ <;> simp only [step, hq]
  | some q =>
    have hc := completes_found luck hq
    have hfile := step_found field luck s x hq
    obtain ⟨hdone,hother⟩ := build_completes (luck x).fault x
      (s.pp.map (fun a => a-(s.base+q.place+field))) q.object
    rw [← hdone] at hc
    by_cases hb : completes s.file luck x = true
    · refine Or.inl ⟨hb,_,hfile,hother (hc.mp hb),?_,?_,?_⟩ <;>
        simp only [step, hq, hc.mp hb, if_true]
    · have hf := mt hc.mpr hb
      refine Or.inr ⟨by simpa using hb,?_,?_,?_⟩ <;> simp only [step, hq, if_neg hf]

theorem baseAt_next (n : ℕ) : baseAt luck file base (n+1+1) =
    if completes file luck (n+1) then baseAt luck file base (n+1) else (luck (n+1)).base := by
  simp only [baseAt, Nat.add_sub_cancel, List.range'_1_concat, baseAfter, List.foldl_append,
    List.foldl_cons, List.foldl_nil, Nat.add_comm 1 n]

variable {luck file base} in
theorem link_congr {f g : DataFile} {before : List ℕ} {x : ℕ} (hx : placeOf f x = placeOf g x)
    (hbefore : ∀ a ∈ before, placeOf f a = placeOf g a) :
    link field luck file base f before x = link field luck file base g before x := by
  unfold link
  cases hl : before.getLast? with
  | none => rfl
  | some a => rw [Option.map_some, Option.map_some, hx, hbefore a (List.mem_of_getLast? hl)]

theorem kept_frame (n : ℕ) (s : Mapping) (done : List ℕ)
    (hk : Kept field luck file base n s done) :
    let f := (step field luck s (n+1)).2.file
    s.pp = done.getLast?.map (fun a => baseAt luck file base a+placeOf f a) ∧
    (∀ x ∈ done, ∃ q, f (objName x) = some q) ∧
    EveryStep (fun before x => ∀ q, f (objName x) = some q →
      q.object.other = link field luck file base f before x) done := by
  intro f
  have hold : ∀ x ∈ done, f (objName x) = s.file (objName x) := by
    intro x hx
    rw [hk.members, List.mem_filter, List.mem_range'_1] at hx
    exact step_frame field luck s (n+1) x (by omega)
  have hplace : ∀ x ∈ done, placeOf f x = placeOf s.file x := by
    intro x hx
    rw [placeOf, hold x hx, placeOf]
  refine ⟨?_,?_,?_⟩
  · rw [hk.pp]
    cases hl : done.getLast? with
    | none => rfl
    | some a => rw [Option.map_some, Option.map_some, hplace a (List.mem_of_getLast? hl)]
  · intro x hx
    rw [hold x hx]
    exact hk.there x hx
  · intro before x after heq q hq
    have hx : x ∈ done := by simp [heq]
    rw [hold x hx] at hq
    rw [link_congr field (hplace x hx) (fun a ha => hplace a (by simp [heq, ha]))]
    exact hk.links before x after heq q hq

theorem kept_step (n : ℕ) (s : Mapping) (done : List ℕ) (hk : Kept field luck file base n s done)
    (hs : s.file (objName (n+1)) = file (objName (n+1))) :
    Kept field luck file base (n+1) (step field luck s (n+1)).2
      (done++(if (step field luck s (n+1)).1 then [n+1] else [])) := by
  obtain ⟨hpp,hthere,hlinks⟩ := kept_frame field luck file base n s done hk
  rcases step_outcome field luck file s (n+1) hs with
    ⟨hc,q,hq,hother,htrue,hbase,hptr⟩ | ⟨hc,hfalse,hbase,hptr⟩
  · have hq' : placeOf (step field luck s (n+1)).2.file (n+1) = q.place := by simp [placeOf, hq]
    rw [htrue, if_pos rfl]
    constructor
    · rw [hbase, hk.mapping, baseAt_next, if_pos hc]
    · rw [List.range'_1_concat, List.filter_append, ← hk.members, Nat.add_comm 1 n]
      simp [hc]
    · rw [hptr, List.getLast?_concat, Option.map_some, hq', hk.mapping]
    · intro x hx
      rcases List.mem_append.mp hx with hx | hx
      · exact hthere x hx
      · rw [List.mem_singleton.mp hx]
        exact ⟨q,hq⟩
    · rw [everyStep_concat]
      refine ⟨hlinks,fun r hr => ?_⟩
      obtain rfl : q = r := Option.some.inj (hq.symm.trans hr)
      rw [hother, hpp, Option.map_map, link, hq', hk.mapping]
      rfl
  · rw [hfalse, if_neg Bool.false_ne_true, List.append_nil]
    constructor
    · rw [hbase, baseAt_next, hc]
      rfl
    · rw [List.range'_1_concat, List.filter_append, ← hk.members, Nat.add_comm 1 n]
      simp [hc]
    · rw [hptr, hpp]
    · exact hthere
    · exact hlinks

theorem run_kept (n : ℕ) : Kept field luck file base n
    (final (step field luck) (mapped file base) (List.range' 1 n))
    (completed field luck file base (List.range' 1 n)) := by
  induction n with
  | zero => exact ⟨rfl,rfl,rfl,by simp [completed],everyStep_nil _⟩
  | succ n ih =>
    have hs := run_frame field luck (mapped file base) (List.range' 1 n) (n+1)
      (by rw [List.mem_range'_1]; omega)
    have hk := kept_step field luck file base n _ _ ih hs
    rw [List.range'_1_concat, Nat.add_comm 1 n, final_concat, completed, history_concat,
      List.filter_append, List.map_append, ← completed]
    cases hb : (step field luck (final (step field luck) (mapped file base) (List.range' 1 n))
      (n+1)).1 <;> simpa [hb] using hk

/-- The loop's links are right exactly when each completed object was built
where the one completed before it was. -/
theorem linked_iff (bound : ℕ) :
    Linked field (testWrite field luck (mapped file base) bound)
        (completed field luck file base (List.range' 1 (bound-1))) ↔
      Steady luck file base bound := by
  have hk : Kept field luck file base (bound-1) (testWrite field luck (mapped file base) bound)
    (completed field luck file base (List.range' 1 (bound-1))) := run_kept _ _ _ _ _
  rw [Steady, ← hk.members, Linked]
  refine forall_congr' fun before => forall_congr' fun x => forall_congr' fun after =>
    forall_congr' fun heq => ?_
  have hmem : ∀ a ∈ before++x::after, ∃ q, (testWrite field luck (mapped file base) bound).file
      (objName a) = some q := heq ▸ hk.there
  obtain ⟨q,hq⟩ := hmem x (by simp)
  have hother := hk.links before x after heq q hq
  have hplace : placeOf (testWrite field luck (mapped file base) bound).file x = q.place := by
    simp [placeOf, hq]
  change PointsTo field _ x (before.getLast?.bind _) ↔
    ∀ a, before.getLast? = some a → baseAt luck file base a = baseAt luck file base x
  rw [link] at hother
  cases hl : before.getLast? with
  | none =>
    rw [hl] at hother
    exact ⟨fun _ a ha => absurd ha (by simp),fun _ => ⟨q,hq,by rw [hother]; rfl⟩⟩
  | some a =>
    obtain ⟨p,hp⟩ := hmem a (by simp [List.mem_of_getLast? hl])
    have hplaced : placeOf (testWrite field luck (mapped file base) bound).file a = p.place := by
      simp [placeOf, hp]
    rw [hl, Option.map_some, hplace, hplaced] at hother
    simp only [PointsTo, hq, Option.some.injEq, exists_eq_left', hother, Option.map_some,
      Option.bind_some, Mapping.address, hp, forall_eq']
    constructor <;> omega

end Loop

theorem link_dangles : ¬ ∀ (field : ℤ) (luck : ℕ → Luck) (file : DataFile) (base : ℤ) (bound : ℕ),
    Linked field (testWrite field luck (mapped file base) bound)
      (completed field luck file base (List.range' 1 (bound-1))) := by
  intro hall
  have hl := hall 8 (fun x => ⟨64*x,if x = 2 then some .construct else none,4096⟩)
    (fun _ => none) 0 4
  obtain ⟨q,hq,ht⟩ := hl [1] 3 [] (by decide)
  have hlink : (testWrite 8 (fun x => ⟨64*x,if x = 2 then some .construct else none,4096⟩)
      (mapped (fun _ => none) 0) 4).file (objName 3) =
        some ⟨192,⟨3,kind,some (-4232),[⟨1,objName 3⟩,⟨2,objName 3⟩]⟩⟩ := by decide
  obtain rfl := Option.some.inj (hq.symm.trans hlink)
  exact absurd ht (by decide)

end RethinkLog.MappedObjects
