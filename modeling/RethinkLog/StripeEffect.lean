import RethinkLog.Stripe

/-!
# What one call of a stripe can do

Every path through `buildFrame` and `operator()` is listed here once. Later
results read these lists and never open the definitions again. The open frame
of an aligned stripe ends where its file ends.
-/

set_option autoImplicit false

namespace RethinkLog
open FramePath BoundedSearch

namespace Stripe

theorem probe_ok (st : Stripe) (cwd : Path) (a : Attempt) (d : Disk) (ix : ℕ) (b : Bool) :
    st.probe cwd a d ix = .ok b ↔ a.fault ≠ some (.probe ix) ∧
      b = decide (framePath cwd st.id ⟨a.clock,ix⟩ ∈ d.present) := by
  unfold probe
  by_cases hf : a.fault = some (.probe ix)
  · simp [hf]
  · simp [hf, eq_comm]

theorem freeNumber_found (st : Stripe) (cwd : Path) (a : Attempt) (d : Disk) (ix : ℕ)
    (h : st.freeNumber cwd a d = .ok (some ix)) :
    framePath cwd st.id ⟨a.clock,ix⟩ ∉ d.present ∧
      ∀ j < ix, framePath cwd st.id ⟨a.clock,j⟩ ∈ d.present := by
  obtain ⟨-,-,hfree,htaken⟩ := search_found _ _ _ _ h
  exact ⟨of_decide_eq_false ((st.probe_ok _ _ _ _ _).mp hfree).2.symm,fun j hj =>
    of_decide_eq_true ((st.probe_ok _ _ _ _ _).mp (htaken j (Nat.zero_le j) hj)).2.symm⟩

theorem freeNumber_endless (st : Stripe) (cwd : Path) (a : Attempt) (d : Disk) :
    st.freeNumber cwd a d = .ok none ↔ Endless (st.probe cwd a d) := by
  refine ⟨fun h => ?_,fun h => h _⟩
  have htaken := search_exhausted _ _ _ h
  have hid : (0:UInt8) ∈ st.id := by
    by_contra hid
    exact st.probe_enough cwd a d hid (search_taken _ _ _
      (fun j hj hlt => htaken j hj (by unfold tries; omega)))
  -- all probes ask for one directory, and the tries go beyond one that throws
  obtain ⟨-,hhome⟩ := (st.probe_ok _ _ _ _ _).mp (htaken 0 (le_refl 0) (by unfold tries; omega))
  rw [endless_iff]
  intro j
  rw [probe_ok]
  refine ⟨fun hf => ?_,?_⟩
  · have hj := htaken j (Nat.zero_le j) (by simp only [tries, hf]; omega)
    exact ((st.probe_ok _ _ _ _ _).mp hj).1 hf
  · rw [hhome, framePath_stops cwd hid, framePath_stops cwd hid]

theorem freeNumber_hung (st : Stripe) (cwd : Path) (a : Attempt) (d : Disk)
    (h : st.freeNumber cwd a d = .ok none) : (0:UInt8) ∈ st.id := by
  by_contra hid
  exact st.probe_enough cwd a d hid ((st.freeNumber_endless cwd a d).mp h _)

theorem prepared_home (st : Stripe) (h : Host) (hok : (st.prepared h).1 = .ok ()) :
    home h.cwd st.id ∈ (st.prepared h).2.present :=
  (createDirectories_present _ _ _ _ hok _).mpr (Or.inr (resolve_trail _ _))

/-- `buildFrame` fails, with the old frame still open or already closed, or it
never ends, or it opens a file that did not exist before. -/
inductive Built (st : Stripe) (h : Host) : Except Stop FrameName → Stripe → Host → Prop
  | failed (e : Stop) (frame : Option Frame) (d : Disk)
      (kept : frame = st.frame ∨ frame = none) (grown : Disk.Grown h.disk d)
      (hung : e = .hung → (0:UInt8) ∈ st.id ∧ frame = st.frame) :
      Built st h (.error e) { st with frame := frame } (h.next d)
  | opened (n : FrameName) (d : Disk) (second : n.second = (h.coming 0).clock)
      (fresh : framePath h.cwd st.id n ∉ (st.prepared h).2.present)
      (below : ∀ j < n.number, framePath h.cwd st.id ⟨n.second,j⟩ ∈ d.present)
      (mem : framePath h.cwd st.id n ∈ d.files) (grown : Disk.Grown h.disk d)
      (plain : (0:UInt8) ∉ st.id) :
      Built st h (.ok n) { st with frame := some ⟨framePath h.cwd st.id n,0⟩ } (h.next d)

theorem prepared_grown (st : Stripe) (h : Host) : Disk.Grown h.disk (st.prepared h).2 :=
  createDirectories_grown _ _ _ _

theorem buildFrame_built (st : Stripe) (h : Host) :
    Built st h (st.buildFrame h).1 (st.buildFrame h).2.1 (st.buildFrame h).2.2 := by
  have hp := st.prepared_grown h
  have hhome := st.prepared_home h
  unfold buildFrame
  dsimp only
  split
  · rename_i f d he
    rw [he] at hp
    exact .failed _ st.frame d (Or.inl rfl) hp nofun
  · rename_i d he
    rw [he] at hp hhome
    split
    · rename_i f hf
      exact .failed _ st.frame d (Or.inl rfl) hp nofun
    · rename_i hn
      exact .failed _ st.frame d (Or.inl rfl) hp (fun _ => ⟨st.freeNumber_hung _ _ _ hn,rfl⟩)
    · rename_i ix hix
      obtain ⟨hfree,hbelow⟩ := st.freeNumber_found h.cwd (h.coming 0) d ix hix
      have hfile : framePath h.cwd st.id ⟨(h.coming 0).clock,ix⟩ ∉ d.files :=
        fun hm => hfree (d.files_present hm)
      have hc := d.create_grown _ hfile
      split
      · rename_i leaves hl
        refine .failed _ none _ (Or.inr rfl) ?_ nofun
        split
        · exact hp.trans hc
        · exact hp
      · refine .opened ⟨_,ix⟩ _ rfl ?_ ?_ (Finset.mem_insert_self _ _) (hp.trans hc) ?_
        · rwa [he]
        · exact fun j hj => hc.present (hbelow j hj)
        · intro hid
          rw [framePath_stops h.cwd hid] at hfree
          exact hfree (hhome rfl)

def Aligned (st : Stripe) (d : Disk) : Prop :=
  ∀ f, st.frame = some f → f.path ∈ d.files ∧ f.tellp = (d.written f.path).length

theorem aligned_grown {st : Stripe} {d e : Disk} (h : st.Aligned d) (g : Disk.Grown d e) :
    st.Aligned e := by
  intro f hf
  obtain ⟨hm,ht⟩ := h f hf
  exact ⟨g.files hm,by rw [g.written,ht]⟩

def record (st : Stripe) (c : Call) : Record := c.record (st.assign c.offset).1

def room (W : JsonWriter) (st : Stripe) (c : Call) : ℕ := ((st.record c).encode W).length

/-- The four ways through `operator()`. -/
inductive Effect (W : JsonWriter) (st : Stripe) (h : Host) (c : Call) :
    Reply → Stripe → Host → Prop
  | rejected (large : frameFilesize ≤ st.room W c) :
      Effect W st h c ⟨.rejected,[]⟩ (st.assign c.offset).2 h
  | stopped (e : Stop) (frame : Option Frame) (d : Disk) (small : st.room W c < frameFilesize)
      (kept : frame = st.frame ∨ frame = none) (grown : Disk.Grown h.disk d)
      (hung : e = .hung → (0:UInt8) ∈ st.id ∧ frame = st.frame) :
      Effect W st h c ⟨.stopped e,[]⟩ { (st.assign c.offset).2 with frame := frame } (h.next d)
  | appended (f : Frame) (small : st.room W c < frameFilesize) (isOpen : st.frame = some f)
      (fits : f.tellp+st.room W c < frameFilesize) :
      Effect W st h c ⟨.wrote (st.assign c.offset).1,[]⟩
        { (st.assign c.offset).2 with frame := some ⟨f.path,f.tellp+st.room W c⟩ }
        { h with disk := h.disk.write f.path f.tellp ((st.record c).encode W) }
  | rolled (n : FrameName) (d : Disk) (small : st.room W c < frameFilesize)
      (needed : ∀ f, st.frame = some f → frameFilesize ≤ f.tellp+st.room W c)
      (second : n.second = (h.coming 0).clock)
      (fresh : framePath h.cwd st.id n ∉ h.disk.present)
      (below : ∀ j < n.number, framePath h.cwd st.id ⟨n.second,j⟩ ∈ d.present)
      (mem : framePath h.cwd st.id n ∈ d.files) (grown : Disk.Grown h.disk d)
      (plain : (0:UInt8) ∉ st.id) :
      Effect W st h c ⟨.wrote (st.assign c.offset).1,[n]⟩
        { (st.assign c.offset).2 with frame := some ⟨framePath h.cwd st.id n,st.room W c⟩ }
        (h.next (d.write (framePath h.cwd st.id n) 0 ((st.record c).encode W)))

theorem assign_frame (st : Stripe) (o : UInt64) : (st.assign o).2.frame = st.frame := by
  unfold assign
  split <;> rfl

theorem assign_id (st : Stripe) (o : UInt64) : (st.assign o).2.id = st.id := by
  unfold assign
  split <;> rfl

/-- The entry made by a call has the same size at both checks, and the bytes
written are its encoding. -/
theorem entry_sizes (W : JsonWriter) (o : UInt64) (k d l : Bytes) :
    let le := LogEntry.make o k d l
    let text := Record.encode W ⟨o,k,d,l⟩
    (le.size W).1 = text.length ∧ ((le.size W).2.size W).1 = text.length ∧
      (((le.size W).2.size W).2.output W).1 = text := by
  intro le text
  have h0 := LogEntry.make_fresh W o k d l
  have h1 := LogEntry.built_fresh W le h0
  have h2 := LogEntry.built_fresh W (le.built W) h1
  have hf : ((le.built W).built W).toRecord = le.toRecord := by
    rw [LogEntry.built_fields, LogEntry.built_fields]
  refine ⟨LogEntry.size_length W le h0,?_,?_⟩
  · exact (LogEntry.size_length W _ h1).trans (by rw [LogEntry.built_fields]; rfl)
  · exact (LogEntry.output_text W _ h2).trans (by rw [hf]; rfl)

theorem call_eq (W : JsonWriter) (st : Stripe) (h : Host) (c : Call) :
    st.call W h c =
      if frameFilesize ≤ st.room W c then (⟨.rejected,[]⟩, (st.assign c.offset).2, h)
      else match ensureOpen (st.assign c.offset).2 h with
        | (.error e, st₂, h₂) => (⟨.stopped e,[]⟩, st₂, h₂)
        | (.ok first, st₂, h₂) => match ensureRoom (st.room W c) st₂ h₂ with
          | (.error e, st₃, h₃) => (⟨.stopped e,first⟩, st₃, h₃)
          | (.ok second, st₃, h₃) => (⟨.wrote (st.assign c.offset).1,first++second⟩,
              write ((st.record c).encode W) st₃ h₃) := by
  obtain ⟨h1,h2,h3⟩ := entry_sizes W (st.assign c.offset).1 c.key c.data c.localtime
  simp only [call, h1, h2, h3]
  rfl

def afterBuild (W : JsonWriter) (st : Stripe) (c : Call) :
    Except Stop FrameName × Stripe × Host → Reply × Stripe × Host
  | (.error e, st', h') => (⟨.stopped e,[]⟩, st', h')
  | (.ok n, st', h') => (⟨.wrote (st.assign c.offset).1,[n]⟩,
      write ((st.record c).encode W) st' h')

theorem call_closed (W : JsonWriter) (st : Stripe) (h : Host) (c : Call)
    (hs : st.room W c < frameFilesize) (hc : st.frame = none) :
    st.call W h c = afterBuild W st c ((st.assign c.offset).2.buildFrame h) := by
  have hc' : (st.assign c.offset).2.frame = none := by rw [assign_frame, hc]
  have hb := buildFrame_built (st.assign c.offset).2 h
  rw [call_eq, if_neg (Nat.not_le.mpr hs)]
  simp only [ensureOpen, hc', Option.isSome_none, Bool.false_eq_true, if_false]
  generalize (st.assign c.offset).2.buildFrame h = b at hb ⊢
  obtain ⟨r,st',h'⟩ := b
  cases hb with
  | failed e frame d kept grown hung => rfl
  | opened n d second fresh below mem grown plain =>
    simp [listing, ensureRoom, Nat.not_le.mpr hs, afterBuild]

theorem call_full (W : JsonWriter) (st : Stripe) (h : Host) (c : Call) (f : Frame)
    (hs : st.room W c < frameFilesize) (ho : st.frame = some f)
    (hf : frameFilesize ≤ f.tellp+st.room W c) :
    st.call W h c = afterBuild W st c ((st.assign c.offset).2.buildFrame h) := by
  have ho' : (st.assign c.offset).2.frame = some f := by rw [assign_frame, ho]
  rw [call_eq, if_neg (Nat.not_le.mpr hs)]
  simp only [ensureOpen, ho', Option.isSome_some, if_true, ensureRoom, hf]
  generalize (st.assign c.offset).2.buildFrame h = b
  obtain ⟨r,st',h'⟩ := b
  cases r <;> rfl

theorem call_fits (W : JsonWriter) (st : Stripe) (h : Host) (c : Call) (f : Frame)
    (hs : st.room W c < frameFilesize) (ho : st.frame = some f)
    (hf : f.tellp+st.room W c < frameFilesize) :
    st.call W h c = (⟨.wrote (st.assign c.offset).1,[]⟩,
      write ((st.record c).encode W) (st.assign c.offset).2 h) := by
  have ho' : (st.assign c.offset).2.frame = some f := by rw [assign_frame, ho]
  rw [call_eq, if_neg (Nat.not_le.mpr hs)]
  simp [ensureOpen, ho', ensureRoom, Nat.not_le.mpr hf]

theorem afterBuild_effect (W : JsonWriter) (st : Stripe) (h : Host) (c : Call)
    (hs : st.room W c < frameFilesize)
    (hn : ∀ f, st.frame = some f → frameFilesize ≤ f.tellp+st.room W c) :
    let r := afterBuild W st c ((st.assign c.offset).2.buildFrame h)
    Effect W st h c r.1 r.2.1 r.2.2 := by
  have hb := buildFrame_built (st.assign c.offset).2 h
  have hp := (st.assign c.offset).2.prepared_grown h
  generalize (st.assign c.offset).2.buildFrame h = b at hb ⊢
  obtain ⟨r,st',h'⟩ := b
  cases hb with
  | failed e frame d kept grown hung =>
    rw [assign_frame] at kept hung
    rw [assign_id] at hung
    exact .stopped e frame d hs kept grown hung
  | opened n d second fresh below mem grown plain =>
    rw [assign_id] at fresh mem plain
    simp only [assign_id] at below
    have he : Effect W st h c _ _ _ := .rolled n d hs hn second
      (fun hm => fresh (hp.present hm)) below mem grown plain
    simpa [afterBuild, write, assign_id, room, Host.next] using he

theorem call_effect (W : JsonWriter) (st : Stripe) (h : Host) (c : Call) :
    ∃ reply st' h', st.call W h c = (reply,st',h') ∧ Effect W st h c reply st' h' := by
  by_cases hl : frameFilesize ≤ st.room W c
  · rw [call_eq, if_pos hl]
    exact ⟨_,_,_,rfl,.rejected hl⟩
  have hs : st.room W c < frameFilesize := Nat.lt_of_not_le hl
  cases ho : st.frame with
  | none =>
    rw [call_closed W st h c hs ho]
    exact ⟨_,_,_,rfl,afterBuild_effect W st h c hs (by simp [ho])⟩
  | some f =>
    by_cases hf : frameFilesize ≤ f.tellp+st.room W c
    · rw [call_full W st h c f hs ho hf]
      exact ⟨_,_,_,rfl,afterBuild_effect W st h c hs (by simp [ho, hf])⟩
    · have hf' := Nat.lt_of_not_le hf
      rw [call_fits W st h c f hs ho hf']
      have he : Effect W st h c _ _ _ := .appended f hs ho hf'
      exact ⟨_,_,_,rfl,by simpa [write, assign_frame, ho, room] using he⟩

theorem call_id (W : JsonWriter) (st : Stripe) (h : Host) (c : Call) :
    (st.call W h c).2.1.id = st.id := by
  obtain ⟨reply,st',h',heq,he⟩ := call_effect W st h c
  rw [heq]
  cases he <;> exact assign_id _ _

theorem call_counter (W : JsonWriter) (st : Stripe) (h : Host) (c : Call) :
    (st.call W h c).2.1.lastOffset = (st.assign c.offset).2.lastOffset := by
  obtain ⟨reply,st',h',heq,he⟩ := call_effect W st h c
  rw [heq]
  cases he <;> rfl

def Named (st : Stripe) : Prop := st.frame ≠ none → (0:UInt8) ∉ st.id

theorem call_named (W : JsonWriter) (st : Stripe) (h : Host) (c : Call) (hn : st.Named) :
    (st.call W h c).2.1.Named := by
  obtain ⟨reply,st',h',heq,he⟩ := call_effect W st h c
  rw [heq]
  unfold Named at hn ⊢
  cases he with
  | rejected large => rwa [assign_frame, assign_id]
  | stopped e frame d small kept grown hung =>
    intro hframe
    rw [assign_id]
    rcases kept with rfl | rfl
    · exact hn hframe
    · exact absurd rfl hframe
  | appended f small isOpen fits =>
    rw [assign_id]
    exact fun _ => hn (by simp [isOpen])
  | rolled n d small needed second fresh below mem grown plain =>
    rw [assign_id]
    exact fun _ => plain

theorem call_outcome (W : JsonWriter) (st : Stripe) (h : Host) (c : Call) (hn : st.Named)
    (hok : (st.call W h c).1.outcome.thrown = false) : (st.call W h c).1.outcome =
      if frameFilesize ≤ st.room W c then .rejected
      else if st.id.contains 0 then .stopped .hung else .wrote (st.assign c.offset).1 := by
  obtain ⟨reply,st',h',heq,he⟩ := call_effect W st h c
  rw [heq] at hok ⊢
  cases he with
  | rejected large => rw [if_pos large]
  | stopped e frame d small kept grown hung =>
    cases e with
    | threw f => cases hok
    | hung => simp [Nat.not_le.mpr small, (hung rfl).1]
  | appended f small isOpen fits => simp [Nat.not_le.mpr small, hn (by simp [isOpen])]
  | rolled n d small needed second fresh below mem grown plain =>
    simp [Nat.not_le.mpr small, plain]

/-- The record is shorter than a frame, and it fits the open frame or a new
frame can be built for it. -/
def Admits (W : JsonWriter) (st : Stripe) (h : Host) (c : Call) : Prop :=
  st.room W c < frameFilesize ∧
    ((∃ f, st.frame = some f ∧ f.tellp+st.room W c < frameFilesize) ∨
      (st.buildFrame h).1.isOk = true)

theorem buildFrame_same (st su : Stripe) (h : Host) (hid : st.id = su.id) :
    (st.buildFrame h).1 = (su.buildFrame h).1 := by
  obtain ⟨id,m,f⟩ := st
  obtain ⟨id',n,g⟩ := su
  obtain rfl : id = id' := hid
  have hp : prepared ⟨id,m,f⟩ h = prepared ⟨id,n,g⟩ h := rfl
  have hf (a : Attempt) (d : Disk) :
      freeNumber ⟨id,m,f⟩ h.cwd a d = freeNumber ⟨id,n,g⟩ h.cwd a d := rfl
  unfold buildFrame
  dsimp only
  rw [hp]
  rcases prepared ⟨id,n,g⟩ h with ⟨e | u,d⟩
  · rfl
  · dsimp only
    rw [hf]
    rcases freeNumber ⟨id,n,g⟩ h.cwd (h.coming 0) d with e | ⟨- | ix⟩
    · rfl
    · rfl
    · dsimp only
      split <;> rfl

theorem afterBuild_wrote (W : JsonWriter) (st : Stripe) (c : Call)
    (b : Except Stop FrameName × Stripe × Host) :
    (∃ o, (afterBuild W st c b).1.outcome = .wrote o) ↔ b.1.isOk = true := by
  obtain ⟨r,st',h'⟩ := b
  cases r <;> simp [afterBuild, Except.isOk, Except.toBool]

theorem call_admits (W : JsonWriter) (st : Stripe) (h : Host) (c : Call) :
    (∃ o, (st.call W h c).1.outcome = .wrote o) ↔ st.Admits W h c := by
  unfold Admits
  by_cases hl : frameFilesize ≤ st.room W c
  · rw [call_eq, if_pos hl]
    simp [Nat.not_lt.mpr hl]
  have hs : st.room W c < frameFilesize := Nat.lt_of_not_le hl
  cases ho : st.frame with
  | none =>
    rw [call_closed W st h c hs ho, afterBuild_wrote, buildFrame_same _ st h (st.assign_id _)]
    simp [hs]
  | some f =>
    by_cases hf : frameFilesize ≤ f.tellp+st.room W c
    · rw [call_full W st h c f hs ho hf, afterBuild_wrote, buildFrame_same _ st h (st.assign_id _)]
      simp [hs, Nat.not_lt.mpr hf]
    · have hf' := Nat.lt_of_not_le hf
      rw [call_fits W st h c f hs ho hf']
      simp [hs, hf']

theorem call_returns (W : JsonWriter) (st : Stripe) (h : Host) (c : Call) :
    (st.call W h c).1.outcome.returned = true ↔
      frameFilesize ≤ st.room W c ∨ st.Admits W h c := by
  have ha := call_admits W st h c
  obtain ⟨reply,st',h',heq,he⟩ := call_effect W st h c
  rw [heq] at ha ⊢
  cases he with
  | rejected large => exact ⟨fun _ => Or.inl large,fun _ => rfl⟩
  | stopped e frame d small kept grown hung =>
    constructor
    · intro hreturned
      cases hreturned
    · rintro (hl | hadmits)
      · omega
      · obtain ⟨o,ho⟩ := ha.mpr hadmits
        cases ho
  | appended f small isOpen fits => exact ⟨fun _ => Or.inr (ha.mp ⟨_,rfl⟩),fun _ => rfl⟩
  | rolled n d small => exact ⟨fun _ => Or.inr (ha.mp ⟨_,rfl⟩),fun _ => rfl⟩

end Stripe
end RethinkLog
