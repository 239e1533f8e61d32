import RethinkLog.Decimal
import Mathlib.Data.List.Infix

/-!
# Where the frames of a stripe lie

A stripe's directory and its frame files are named by concatenating strings.
The system reads such a string up to its first NUL byte and resolves it segment
by segment from the working directory: empty segments and single dots stay,
double dots leave, all others enter. The names of one directory's frames are
distinct entries of it, unless the id of the stripe has a NUL byte: then all of
them name the directory itself.
-/

set_option autoImplicit false

namespace RethinkLog

abbrev Path := List Bytes

namespace FramePath

def segments : Bytes → List Bytes
  | [] => [[]]
  | b::bs => if b = 47 then [] :: segments bs else
      match segments bs with
      | [] => [[b]]
      | s::ss => (b::s)::ss

def enter (p : Path) (name : Bytes) : Path :=
  if name = [] ∨ name = [46] then p else if name = [46,46] then p.dropLast else p ++ [name]

/-- What the system sees of the segments of a string. -/
def visible : List Bytes → List Bytes
  | [] => []
  | s::ss => if s.contains 0 then [s.takeWhile (· ≠ 0)] else s :: visible ss

def start (cwd : Path) (s : Bytes) : Path := if s.head? = some 47 then [] else cwd

def resolve (cwd : Path) (s : Bytes) : Path := (visible (segments s)).foldl enter (start cwd s)

def trail (cwd : Path) (s : Bytes) : List Path :=
  ((segments s).inits).map (fun ss => (visible ss).foldl enter (start cwd s))

theorem segments_plain (s : Bytes) (h : (47:UInt8) ∉ s) : segments s = [s] := by
  induction s with
  | nil => rfl
  | cons b bs ih =>
    have hb : b ≠ 47 := fun he => h (by simp [he])
    simp [segments, hb, ih (fun hm => h (by simp [hm]))]

theorem segments_ne_nil (s : Bytes) : segments s ≠ [] := by
  cases s with
  | nil => simp [segments]
  | cons b bs =>
    simp only [segments]
    split
    · simp
    · split <;> simp

theorem segments_append (s t : Bytes) : segments (s ++ 47::t) = segments s ++ segments t := by
  induction s with
  | nil => simp [segments]
  | cons b bs ih =>
    by_cases hb : b = 47
    · simp [segments, hb, ih]
    · cases hs : segments bs with
      | nil => exact absurd hs (segments_ne_nil bs)
      | cons u us => simp [segments, hb, ih, hs]

theorem segments_mem (s : Bytes) (b : UInt8) (hb : b ≠ 47) :
    (∃ t ∈ segments s, b ∈ t) ↔ b ∈ s := by
  induction s with
  | nil => simp [segments]
  | cons c cs ih =>
    by_cases hc : c = 47
    · simp [segments, hc, hb, ih]
    · cases hs : segments cs with
      | nil => exact absurd hs (segments_ne_nil cs)
      | cons u us =>
        rw [hs] at ih
        simp [segments, hc, hs, ← ih, or_assoc]

theorem visible_append (ss ts : List Bytes) (h : ∀ s ∈ ss, (0:UInt8) ∉ s) :
    visible (ss++ts) = ss ++ visible ts := by
  induction ss with
  | nil => rfl
  | cons s ss ih =>
    obtain ⟨hs,hrest⟩ := List.forall_mem_cons.mp h
    simp [visible, hs, ih hrest]

theorem visible_stops (ss ts : List Bytes) (h : ∃ s ∈ ss, (0:UInt8) ∈ s) :
    visible (ss++ts) = visible ss := by
  induction ss with
  | nil => simp at h
  | cons s ss ih =>
    by_cases hs : (0:UInt8) ∈ s
    · simp [visible, hs]
    · simp only [List.mem_cons, exists_eq_or_imp, hs, false_or] at h
      simp [visible, hs, ih h]

theorem start_append (cwd : Path) (s t : Bytes) (hs : s ≠ []) :
    start cwd (s++t) = start cwd s := by
  cases s with
  | nil => exact absurd rfl hs
  | cons b bs => rfl

theorem segments_whole (s : Bytes) (hz : (0:UInt8) ∉ s) : ∀ t ∈ segments s, (0:UInt8) ∉ t :=
  fun t ht h0 => hz ((segments_mem s 0 (by decide)).mp ⟨t,ht,h0⟩)

theorem visible_whole (s : Bytes) (hz : (0:UInt8) ∉ s) : visible (segments s) = segments s := by
  simpa [visible] using visible_append (segments s) [] (segments_whole s hz)

theorem resolve_append (cwd : Path) (s t : Bytes) (hs : s ≠ []) (hz : (0:UInt8) ∉ s) :
    resolve cwd (s ++ 47::t) = (visible (segments t)).foldl enter (resolve cwd s) := by
  rw [resolve, segments_append, visible_append _ _ (segments_whole s hz), List.foldl_append,
    start_append cwd s _ hs, resolve, visible_whole s hz]

theorem resolve_stops (cwd : Path) (s t : Bytes) (hs : s ≠ []) (hz : (0:UInt8) ∈ s) :
    resolve cwd (s ++ 47::t) = resolve cwd s := by
  rw [resolve, segments_append, visible_stops _ _ ((segments_mem s 0 (by decide)).mpr hz),
    start_append cwd s _ hs, resolve]

theorem resolve_trail (cwd : Path) (s : Bytes) : resolve cwd s ∈ trail cwd s :=
  List.mem_map.mpr ⟨segments s,(List.mem_inits _ _).mpr List.prefix_rfl,rfl⟩

def dataDir : Bytes := ascii "./_logz"

def directory (id : Bytes) : Bytes := dataDir ++ [47] ++ id ++ [47]

structure FrameName where
  second : ℤ
  number : ℕ
  deriving DecidableEq, Repr

def fileName (n : FrameName) : Bytes :=
  Decimal.integer n.second ++ [95] ++ Decimal.natural n.number ++ ascii ".log"

def frameFile (id : Bytes) (n : FrameName) : Bytes := directory id ++ fileName n

def home (cwd : Path) (id : Bytes) : Path := resolve cwd (directory id)

def framePath (cwd : Path) (id : Bytes) (n : FrameName) : Path := resolve cwd (frameFile id n)

example : framePath [ascii "srv"] (ascii "a//../b") ⟨7,0⟩ =
    [ascii "srv", ascii "_logz", ascii "b", ascii "7_0.log"] := by decide

example : framePath [ascii "srv"] (ascii "a\x00b") ⟨7,0⟩ =
    [ascii "srv", ascii "_logz", ascii "a"] := by decide

theorem fileName_injective : Function.Injective fileName := by
  rintro ⟨t,i⟩ ⟨u,j⟩ h
  simp only [fileName, List.append_assoc, List.cons_append, List.nil_append] at h
  have hu (z : ℤ) : (95:UInt8) ∉ Decimal.integer z :=
    Decimal.integer_plain z 95 (by decide) (by decide)
  obtain ⟨ht,hi⟩ := Decimal.separated (hu t) (hu u) h
  obtain rfl := Decimal.integer_injective ht
  obtain rfl := Decimal.natural_injective (List.append_cancel_right hi)
  rfl

theorem fileName_plain (n : FrameName) : (47:UInt8) ∉ fileName n := by
  intro h
  simp only [fileName, List.mem_append, List.mem_singleton] at h
  rcases h with ((h | h) | h) | h
  · exact Decimal.integer_plain _ 47 (by decide) (by decide) h
  · exact absurd h (by decide)
  · exact absurd (Decimal.natural_isDigit _ 47 h) (by decide)
  · exact absurd h (by decide)

theorem fileName_visible (n : FrameName) : (0:UInt8) ∉ fileName n := by
  intro h
  simp only [fileName, List.mem_append, List.mem_singleton] at h
  rcases h with ((h | h) | h) | h
  · exact Decimal.integer_plain _ 0 (by decide) (by decide) h
  · exact absurd h (by decide)
  · exact absurd (Decimal.natural_isDigit _ 0 h) (by decide)
  · exact absurd h (by decide)

theorem fileName_enter (p : Path) (n : FrameName) : enter p (fileName n) = p ++ [fileName n] := by
  have hm : (95:UInt8) ∈ fileName n := by simp [fileName]
  have h0 : fileName n ≠ [] := by intro h; simp [h] at hm
  have h1 : fileName n ≠ [46] := by intro h; simp [h] at hm
  have h2 : fileName n ≠ [46,46] := by intro h; simp [h] at hm
  simp [enter, h0, h1, h2]

theorem directory_split (id : Bytes) (t : Bytes) :
    directory id ++ t = (dataDir ++ 47::id) ++ 47::t := by simp [directory]

theorem directory_visible (id : Bytes) : (0:UInt8) ∈ dataDir ++ 47::id ↔ (0:UInt8) ∈ id := by
  have hd : (0:UInt8) ∉ dataDir := by decide
  simp [hd]

variable (cwd : Path) {id : Bytes}

/-- Every name in the directory of an id with a NUL byte is cut off, so that it
stands for the directory. -/
theorem framePath_stops (h : (0:UInt8) ∈ id) (n : FrameName) :
    framePath cwd id n = home cwd id := by
  have hz := (directory_visible id).mpr h
  have hd := directory_split id []
  rw [List.append_nil] at hd
  rw [framePath, frameFile, directory_split, resolve_stops _ _ _ (by simp) hz, home, hd,
    resolve_stops _ _ _ (by simp) hz]

theorem home_eq (h : (0:UInt8) ∉ id) : home cwd id = resolve cwd (dataDir ++ 47::id) := by
  have hr := resolve_append cwd (dataDir ++ 47::id) [] (by simp) (by rwa [directory_visible])
  rw [← directory_split, List.append_nil] at hr
  simpa [home, segments, visible, enter] using hr

theorem framePath_eq (h : (0:UInt8) ∉ id) (n : FrameName) :
    framePath cwd id n = home cwd id ++ [fileName n] := by
  rw [framePath, frameFile, directory_split, resolve_append _ _ _ (by simp)
    (by rwa [directory_visible]), ← home_eq cwd h, segments_plain _ (fileName_plain n)]
  simp [visible, fileName_visible, fileName_enter]

theorem framePath_injective (h : (0:UInt8) ∉ id) : Function.Injective (framePath cwd id) := by
  intro m n he
  rw [framePath_eq cwd h, framePath_eq cwd h] at he
  exact fileName_injective (by simpa using List.append_cancel_left he)

end FramePath
end RethinkLog
