import RethinkLog.FramePath
import RethinkLog.BoundedSearch
import Mathlib.Data.Finset.Insert
import Mathlib.Logic.Function.Basic

/-!
# Disk, clock and failures of the machine under the log

A disk knows which directories and files exist and the written part of each
file; the rest of a frame file is unwritten zero bytes. Opening a file for a
frame truncates it. What the outside does at the coming calls of `buildFrame`
is a stream of clock readings and failures on which nothing is assumed.
-/

set_option autoImplicit false

namespace RethinkLog

/-- A filesystem call that throws: on the way to the stripe directory, at one
probe of a name, or when the frame is opened, perhaps leaving an empty file. -/
inductive Fault where
  | createDirectories (made : ℕ)
  | probe (number : ℕ)
  | openFrame (leaves : Bool)
  deriving DecidableEq, Repr

structure Attempt where
  clock : ℤ
  fault : Option Fault
  deriving DecidableEq, Repr

structure Disk where
  directories : Finset Path
  files : Finset Path
  written : Path → Bytes
  blank : ∀ p, p ∉ files → written p = []

structure Host where
  cwd : Path
  disk : Disk
  coming : ℕ → Attempt

def Disk.empty : Disk := ⟨∅,∅,fun _ => [],fun _ _ => rfl⟩

def Host.still (cwd : Path) (clock : ℤ) : Host := ⟨cwd,.empty,fun _ => ⟨clock,none⟩⟩

def Host.next (h : Host) (d : Disk) : Host :=
  { h with disk := d, coming := fun n => h.coming (n+1) }

namespace Disk

def present (d : Disk) : Finset Path := d.directories ∪ d.files

def inside (d : Disk) (p : Path) : Finset Path :=
  d.present.filter (fun q => q.dropLast = p ∧ q ≠ [])

def mkdir (d : Disk) (p : Path) : Disk := { d with directories := insert p d.directories }

def create (d : Disk) (p : Path) : Disk where
  directories := d.directories
  files := insert p d.files
  written := Function.update d.written p []
  blank q hq := by
    have hqp : q ≠ p := fun h => hq (by simp [h])
    rw [Function.update_of_ne hqp]
    exact d.blank q (fun h => hq (by simp [h]))

def overwrite (w : Bytes) (pos : ℕ) (b : Bytes) : Bytes :=
  (w ++ List.replicate (pos-w.length) 0).take pos ++ b ++ w.drop (pos+b.length)

def write (d : Disk) (p : Path) (pos : ℕ) (b : Bytes) : Disk where
  directories := d.directories
  files := d.files
  written := if p ∈ d.files then Function.update d.written p (overwrite (d.written p) pos b)
    else d.written
  blank q hq := by
    split
    · rename_i hp
      rw [Function.update_of_ne (fun h => hq (by rwa [h]))]
      exact d.blank q hq
    · exact d.blank q hq

theorem overwrite_end (w b : Bytes) : overwrite w w.length b = w ++ b := by
  simp [overwrite]

theorem write_end (d : Disk) (p : Path) (b : Bytes) (hp : p ∈ d.files) :
    (d.write p (d.written p).length b).written =
      Function.update d.written p (d.written p ++ b) := by
  simp [write, hp, overwrite_end]

theorem write_other (d : Disk) (p q : Path) (pos : ℕ) (b : Bytes) (h : q ≠ p) :
    (d.write p pos b).written q = d.written q := by
  unfold write
  dsimp only
  split
  · exact Function.update_of_ne h _ _
  · rfl

theorem create_written (d : Disk) (p : Path) (h : p ∉ d.files) :
    (d.create p).written = d.written := by
  change Function.update d.written p [] = d.written
  rw [← d.blank p h, Function.update_eq_self]

theorem mem_present (d : Disk) (p : Path) : p ∈ d.present ↔ p ∈ d.directories ∨ p ∈ d.files := by
  simp [present]

theorem files_present (d : Disk) {p : Path} (h : p ∈ d.files) : p ∈ d.present :=
  (d.mem_present p).mpr (Or.inr h)

structure Grown (d e : Disk) : Prop where
  directories : d.directories ⊆ e.directories
  files : d.files ⊆ e.files
  written : e.written = d.written

theorem Grown.refl (d : Disk) : Grown d d := ⟨subset_rfl,subset_rfl,rfl⟩

theorem Grown.trans {d e f : Disk} (h : Grown d e) (g : Grown e f) : Grown d f :=
  ⟨h.directories.trans g.directories,h.files.trans g.files,g.written.trans h.written⟩

theorem Grown.present {d e : Disk} (h : Grown d e) : d.present ⊆ e.present :=
  Finset.union_subset_union h.directories h.files

theorem mkdir_grown (d : Disk) (p : Path) : Grown d (d.mkdir p) :=
  ⟨Finset.subset_insert _ _,subset_rfl,rfl⟩

theorem create_grown (d : Disk) (p : Path) (h : p ∉ d.files) : Grown d (d.create p) :=
  ⟨subset_rfl,Finset.subset_insert _ _,d.create_written p h⟩

end Disk

def createDirectories (fault : Option Fault) :
    List Path → ℕ → Disk → Except Fault Unit × Disk
  | [], _, d => (.ok (), d)
  | p::ps, i, d => if fault = some (.createDirectories i) ∨ p ∈ d.files
      then (.error (.createDirectories i), d)
      else createDirectories fault ps (i+1) (d.mkdir p)

theorem createDirectories_grown (fault : Option Fault) (ps : List Path) (i : ℕ) (d : Disk) :
    Disk.Grown d (createDirectories fault ps i d).2 := by
  induction ps generalizing i d with
  | nil => exact Disk.Grown.refl d
  | cons p ps ih =>
    simp only [createDirectories]
    split
    · exact Disk.Grown.refl d
    · exact (d.mkdir_grown p).trans (ih _ _)

theorem createDirectories_ok (fault : Option Fault) (ps : List Path) (i : ℕ) (d : Disk) :
    (createDirectories fault ps i d).1 = .ok () ↔
      (∀ p ∈ ps, p ∉ d.files) ∧ ∀ k < ps.length, fault ≠ some (.createDirectories (i+k)) := by
  induction ps generalizing i d with
  | nil => simp [createDirectories]
  | cons p ps ih =>
    rw [createDirectories]
    by_cases hp : fault = some (.createDirectories i) ∨ p ∈ d.files
    · rw [if_pos hp]
      simp only [reduceCtorEq, false_iff, not_and]
      rintro hfiles hfault
      rcases hp with hp | hp
      · exact hfault 0 (by simp) hp
      · exact hfiles p (by simp) hp
    · rw [if_neg hp, ih]
      obtain ⟨hi,hpf⟩ := not_or.mp hp
      constructor
      · rintro ⟨hfiles,hfault⟩
        refine ⟨List.forall_mem_cons.mpr ⟨hpf,hfiles⟩,fun k hk => ?_⟩
        cases k with
        | zero => exact hi
        | succ k =>
          rw [show i+(k+1) = i+1+k by omega]
          exact hfault k (by simpa using hk)
      · rintro ⟨hfiles,hfault⟩
        refine ⟨fun q hq => hfiles q (by simp [hq]),fun k hk => ?_⟩
        rw [show i+1+k = i+(k+1) by omega]
        exact hfault (k+1) (by simpa using hk)

theorem createDirectories_present (fault : Option Fault) (ps : List Path) (i : ℕ) (d : Disk)
    (hok : (createDirectories fault ps i d).1 = .ok ()) (q : Path) :
    q ∈ (createDirectories fault ps i d).2.present ↔ q ∈ d.present ∨ q ∈ ps := by
  induction ps generalizing i d with
  | nil => simp [createDirectories]
  | cons p ps ih =>
    rw [createDirectories] at hok ⊢
    split at hok
    · cases hok
    · rename_i hp
      rw [if_neg hp, ih _ _ hok]
      simp only [Disk.mem_present, Disk.mkdir, Finset.mem_insert, List.mem_cons]
      tauto

end RethinkLog
