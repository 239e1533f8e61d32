import RethinkLog.StripeEffect

/-!
# When a frame can be built

Building a frame makes directories, probes names and opens a file. Whether it
succeeds depends on the id of the stripe, on the disk before it and on the
failure that comes: a directory that is never asked for, or a name behind the
first free one, cannot make it fail.
-/

set_option autoImplicit false

namespace RethinkLog
open FramePath BoundedSearch

namespace Stripe

def Vacant (st : Stripe) (h : Host) (number : ℕ) : Prop :=
  framePath h.cwd st.id ⟨(h.coming 0).clock,number⟩ ∉ h.disk.present ∧
    framePath h.cwd st.id ⟨(h.coming 0).clock,number⟩ ∉ trail h.cwd (directory st.id)

/-- The id has no NUL byte, no file is in the way of a directory, and what
fails outside is not asked for on the way to the open frame. -/
structure Buildable (st : Stripe) (h : Host) : Prop where
  plain : (0:UInt8) ∉ st.id
  clear : ∀ p ∈ trail h.cwd (directory st.id), p ∉ h.disk.files
  made : ∀ i < (trail h.cwd (directory st.id)).length,
    (h.coming 0).fault ≠ some (.createDirectories i)
  probed : ∀ k, (h.coming 0).fault = some (.probe k) → ∃ j < k, st.Vacant h j
  opened : ∀ leaves, (h.coming 0).fault ≠ some (.openFrame leaves)

theorem freeNumber_ok (st : Stripe) (cwd : Path) (a : Attempt) (d : Disk)
    (hid : (0:UInt8) ∉ st.id) :
    (∃ ix, st.freeNumber cwd a d = .ok (some ix)) ↔
      ∀ k, a.fault = some (.probe k) → ∃ j < k, framePath cwd st.id ⟨a.clock,j⟩ ∉ d.present := by
  rcases hs : st.freeNumber cwd a d with e | ⟨- | ix⟩
  · obtain ⟨n,-,herror,hbefore⟩ := search_error _ _ _ _ hs
    have hfault : a.fault = some (.probe n) := by
      unfold probe at herror
      split at herror
      · assumption
      · cases herror
    constructor
    · rintro ⟨ix,hix⟩
      cases hix
    · intro hall
      obtain ⟨j,hj,hfree⟩ := hall n hfault
      have htaken := ((st.probe_ok cwd a d j true).mp (hbefore j (Nat.zero_le j) hj)).2
      exact absurd (of_decide_eq_true htaken.symm) hfree
  · exact absurd (st.freeNumber_hung cwd a d hs) hid
  · obtain ⟨-,-,hfree,htaken⟩ := search_found _ _ _ _ hs
    obtain ⟨hnot,hvacant⟩ := (st.probe_ok cwd a d ix false).mp hfree
    refine ⟨fun _ k hk => ⟨ix,?_,of_decide_eq_false hvacant.symm⟩,fun _ => ⟨ix,rfl⟩⟩
    rcases Nat.lt_trichotomy ix k with hlt | rfl | hlt
    · exact hlt
    · exact absurd hk hnot
    · exact absurd hk ((st.probe_ok cwd a d k true).mp (htaken k (Nat.zero_le k) hlt)).1

theorem buildFrame_plain (st : Stripe) (h : Host) (hok : (st.buildFrame h).1.isOk = true) :
    (0:UInt8) ∉ st.id := by
  have hb := st.buildFrame_built h
  generalize st.buildFrame h = b at hok hb
  obtain ⟨r,su,k⟩ := b
  cases hb with
  | failed e frame d kept grown hung => cases hok
  | opened n d second fresh below mem grown plain => exact plain

theorem buildFrame_ok (st : Stripe) (h : Host) :
    (st.buildFrame h).1.isOk = true ↔ st.Buildable h := by
  by_cases hid : (0:UInt8) ∈ st.id
  · exact ⟨fun hok => absurd hid (st.buildFrame_plain h hok),fun hb => absurd hid hb.plain⟩
  have hmade := createDirectories_ok (h.coming 0).fault (trail h.cwd (directory st.id)) 0 h.disk
  have hpresent := createDirectories_present (h.coming 0).fault
    (trail h.cwd (directory st.id)) 0 h.disk
  simp only [Nat.zero_add] at hmade
  rw [← prepared] at hmade hpresent
  unfold buildFrame
  dsimp only
  generalize st.prepared h = o at hmade hpresent ⊢
  obtain ⟨e | ⟨⟩,d⟩ := o
  · have hno : ¬ st.Buildable h := fun hb => by simpa using hmade.mpr ⟨hb.clear,hb.made⟩
    simp [hno, Except.isOk, Except.toBool]
  · obtain ⟨hclear,hmade⟩ := hmade.mp rfl
    have hvacant (j : ℕ) : framePath h.cwd st.id ⟨(h.coming 0).clock,j⟩ ∉ d.present ↔
        st.Vacant h j := by rw [hpresent rfl, not_or, Vacant]
    have hfree := st.freeNumber_ok h.cwd (h.coming 0) d hid
    simp only [hvacant] at hfree
    dsimp only
    rcases hn : st.freeNumber h.cwd (h.coming 0) d with e | ⟨- | ix⟩
    · have hno : ¬ st.Buildable h := fun hb => by simpa [hn] using hfree.mpr hb.probed
      simp [hno, Except.isOk, Except.toBool]
    · exact absurd (st.freeNumber_hung _ _ _ hn) hid
    · have hprobed := hfree.mp ⟨ix,hn⟩
      dsimp only
      split
      · rename_i leaves hl
        have hno : ¬ st.Buildable h := fun hb => hb.opened leaves hl
        simp [hno, Except.isOk, Except.toBool]
      · rename_i hl
        exact ⟨fun _ => ⟨hid,hclear,hmade,hprobed,hl⟩,fun _ => rfl⟩

def Accepts (W : JsonWriter) (st : Stripe) (h : Host) (c : Call) : Prop :=
  st.room W c < frameFilesize ∧
    ((∃ f, st.frame = some f ∧ f.tellp+st.room W c < frameFilesize) ∨ st.Buildable h)

theorem admits_iff (W : JsonWriter) (st : Stripe) (h : Host) (c : Call) :
    st.Admits W h c ↔ st.Accepts W h c := by rw [Admits, Accepts, buildFrame_ok]

theorem returns_iff (W : JsonWriter) (st : Stripe) (h : Host) (c : Call) :
    (st.call W h c).1.outcome.returned = true ↔
      frameFilesize ≤ st.room W c ∨
        (∃ f, st.frame = some f ∧ f.tellp+st.room W c < frameFilesize) ∨ st.Buildable h := by
  rw [call_returns, admits_iff, Accepts]
  rcases Nat.lt_or_ge (st.room W c) frameFilesize with hs | hl
  · simp [hs, Nat.not_le.mpr hs]
  · simp [hl]

end Stripe
end RethinkLog
