import RethinkLog.Host
import RethinkLog.LogEntry

/-!
# One stripe of the log

A stripe appends records to its open frame and builds the next frame when
none is open or the record would fill the open one. Every filesystem call may
throw, and the loop that probes the names of frames need not end; the stripe
and the disk are then left as they were at that point. The two lines that can
build a frame are definitions of their own, so that they can also be
interleaved with the calls of other stripes.
-/

set_option autoImplicit false

namespace RethinkLog
open FramePath BoundedSearch

def frameFilesize : ℕ := 64*1024*1024

def uint64Max : UInt64 := 18446744073709551615

structure Frame where
  path : Path
  tellp : ℕ
  deriving DecidableEq, Repr

structure Stripe where
  id : Bytes
  lastOffset : UInt64
  frame : Option Frame
  deriving DecidableEq, Repr

structure Call where
  offset : UInt64
  key : Bytes
  data : Bytes
  localtime : Bytes
  deriving DecidableEq, Repr

/-- Why a line of `operator()` is not completed: a filesystem call throws, or
every name that is probed exists, without end. -/
inductive Stop where
  | threw (fault : Fault)
  | hung
  deriving DecidableEq, Repr

/-- What becomes of a call of `operator()`: it ends with `return false`, or
with the offset of the record it wrote, or it does not return. -/
inductive Outcome where
  | rejected
  | wrote (offset : UInt64)
  | stopped (stop : Stop)
  deriving DecidableEq, Repr

def Outcome.value : Outcome → Except Stop UInt64
  | .rejected => .ok 0
  | .wrote offset => .ok offset
  | .stopped s => .error s

def Outcome.thrown : Outcome → Bool
  | .stopped (.threw _) => true
  | _ => false

def Outcome.returned : Outcome → Bool
  | .stopped _ => false
  | _ => true

structure Reply where
  outcome : Outcome
  opened : List FrameName
  deriving DecidableEq, Repr

def Call.record (c : Call) (offset : UInt64) : Record := ⟨offset,c.key,c.data,c.localtime⟩

namespace Stripe

def create (id : Bytes) : Stripe := ⟨id,1,none⟩

/-- One round of the probing loop of `buildFrame`. -/
def probe (st : Stripe) (cwd : Path) (a : Attempt) (d : Disk) (ix : ℕ) : Except Fault Bool :=
  if a.fault = some (.probe ix) then .error (.probe ix)
  else .ok (decide (framePath cwd st.id ⟨a.clock,ix⟩ ∈ d.present))

theorem framePath_inside (cwd : Path) {id : Bytes} (hid : (0:UInt8) ∉ id) (n : FrameName)
    (d : Disk) (h : framePath cwd id n ∈ d.present) :
    framePath cwd id n ∈ d.inside (home cwd id) := by
  simp only [Disk.inside, Finset.mem_filter]
  refine ⟨h,?_,?_⟩ <;> simp [framePath_eq cwd hid]

theorem probe_enough (st : Stripe) (cwd : Path) (a : Attempt) (d : Disk)
    (hid : (0:UInt8) ∉ st.id) :
    search (st.probe cwd a d) ((d.inside (home cwd st.id)).card+1) 0 ≠ .ok none := by
  apply search_enough _ (fun ix => framePath cwd st.id ⟨a.clock,ix⟩)
  · intro i j h
    simpa using framePath_injective cwd hid h
  · intro ix h
    unfold probe at h
    split at h
    · cases h
    · exact framePath_inside _ hid _ _ (by simpa using h)

/-- Enough tries to tell whether the probing loop ends: one more than the
directory has entries, and those up to a probe that throws. -/
def tries (st : Stripe) (cwd : Path) (a : Attempt) (d : Disk) : ℕ :=
  (d.inside (home cwd st.id)).card+1 + match a.fault with
    | some (.probe k) => k+1
    | _ => 0

def freeNumber (st : Stripe) (cwd : Path) (a : Attempt) (d : Disk) : Except Fault (Option ℕ) :=
  search (st.probe cwd a d) (st.tries cwd a d) 0

def prepared (st : Stripe) (h : Host) : Except Fault Unit × Disk :=
  createDirectories (h.coming 0).fault (trail h.cwd (directory st.id)) 0 h.disk

def buildFrame (st : Stripe) (h : Host) : Except Stop FrameName × Stripe × Host :=
  let a := h.coming 0
  match st.prepared h with
  | (.error f, d) => (.error (.threw f), st, h.next d)
  | (.ok _, d) => match st.freeNumber h.cwd a d with
    | .error f => (.error (.threw f), st, h.next d)
    | .ok none => (.error .hung, st, h.next d)
    | .ok (some ix) =>
      let sfn := framePath h.cwd st.id ⟨a.clock,ix⟩
      match a.fault with
      | some (.openFrame leaves) =>
        (.error (.threw (.openFrame leaves)), { st with frame := none },
          h.next (if leaves then d.create sfn else d))
      | _ => (.ok ⟨a.clock,ix⟩, { st with frame := some ⟨sfn,0⟩ }, h.next (d.create sfn))

def listing : Except Stop FrameName × Stripe × Host → Except Stop (List FrameName) × Stripe × Host
  | (.error e, s) => (.error e, s)
  | (.ok n, s) => (.ok [n], s)

def ensureOpen (st : Stripe) (h : Host) : Except Stop (List FrameName) × Stripe × Host :=
  if st.frame.isSome then (.ok [], st, h) else listing (st.buildFrame h)

/-- A closed stream tells no position; the source then adds the size to the
largest unsigned value, which wraps below the limit. -/
def ensureRoom (n : ℕ) (st : Stripe) (h : Host) :
    Except Stop (List FrameName) × Stripe × Host :=
  match st.frame with
  | none => (.ok [], st, h)
  | some f => if frameFilesize ≤ f.tellp+n then listing (st.buildFrame h) else (.ok [], st, h)

def write (b : Bytes) (st : Stripe) (h : Host) : Stripe × Host :=
  match st.frame with
  | none => (st, h)
  | some f => ({ st with frame := some { f with tellp := f.tellp+b.length } },
      { h with disk := h.disk.write f.path f.tellp b })

def assign (st : Stripe) (offset : UInt64) : UInt64 × Stripe :=
  if offset = uint64Max then (st.lastOffset+1, { st with lastOffset := st.lastOffset+1 })
  else (offset, st)

/-- `operator()` -/
def call (W : JsonWriter) (st : Stripe) (h : Host) (c : Call) : Reply × Stripe × Host :=
  let (offset, st₁) := st.assign c.offset
  let le := (LogEntry.make offset c.key c.data c.localtime).size W
  if frameFilesize ≤ le.1 then (⟨.rejected,[]⟩, st₁, h)
  else match ensureOpen st₁ h with
    | (.error e, st₂, h₂) => (⟨.stopped e,[]⟩, st₂, h₂)
    | (.ok first, st₂, h₂) => match ensureRoom (le.2.size W).1 st₂ h₂ with
      | (.error e, st₃, h₃) => (⟨.stopped e,first⟩, st₃, h₃)
      | (.ok second, st₃, h₃) =>
        (⟨.wrote offset,first++second⟩, write ((le.2.size W).2.output W).1 st₃ h₃)

end Stripe

def stripeStep (W : JsonWriter) (s : Stripe × Host) (c : Call) : Reply × Stripe × Host :=
  s.1.call W s.2 c

end RethinkLog
