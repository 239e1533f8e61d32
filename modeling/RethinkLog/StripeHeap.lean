import RethinkLog.LogIntegrity

/-!
# Several stripe objects on one host

The objects live in a list and share the disk. Their open frames are distinct
files, and each is written at its end. A call of one object keeps this, and
puts its record after everything written to the file before.
-/

set_option autoImplicit false

namespace RethinkLog.StripeHeap
open FramePath LogIntegrity

theorem get_set {heap : List Stripe} {k : ℕ} {st : Stripe} (h : heap[k]? = some st)
    (su : Stripe) (i : ℕ) : (heap.set k su)[i]? = if i = k then some su else heap[i]? := by
  have hk : k < heap.length := (List.getElem?_eq_some_iff.mp h).1
  by_cases hi : i = k
  · subst hi
    simp [hk]
  · simp [hi, List.getElem?_set_ne (Ne.symm hi)]

def pathOf (heap : List Stripe) (i : ℕ) : Option Path :=
  heap[i]?.bind (fun st => st.frame.map Frame.path)

theorem pathOf_some {heap : List Stripe} {i : ℕ} {st : Stripe} (h : heap[i]? = some st) :
    pathOf heap i = st.frame.map Frame.path := by simp [pathOf, h]

theorem pathOf_set {heap : List Stripe} {k : ℕ} {st : Stripe} (h : heap[k]? = some st)
    (su : Stripe) (i : ℕ) : pathOf (heap.set k su) i =
      if i = k then su.frame.map Frame.path else pathOf heap i := by
  unfold pathOf
  rw [get_set h]
  split <;> rfl

theorem pathOf_append (heap : List Stripe) (id : Bytes) (i : ℕ) (p : Path)
    (h : pathOf (heap ++ [Stripe.create id]) i = some p) : pathOf heap i = some p := by
  unfold pathOf at h ⊢
  rcases Nat.lt_or_ge i heap.length with hi | hi
  · rwa [List.getElem?_append_left hi] at h
  · rw [List.getElem?_append_right hi] at h
    cases hk : i-heap.length with
    | zero => simp [hk, Stripe.create] at h
    | succ k => simp [hk] at h

/-- Open frames end where their files end, and no two objects share one. -/
structure Sound (heap : List Stripe) (d : Disk) : Prop where
  aligned : ∀ (i : ℕ) (st : Stripe), heap[i]? = some st → st.Aligned d
  apart : ∀ i j p, pathOf heap i = some p → pathOf heap j = some p → i = j

variable {heap : List Stripe} {d e : Disk} {k : ℕ} {st : Stripe}

theorem sound_append (hs : Sound heap d) (id : Bytes) : Sound (heap ++ [Stripe.create id]) d where
  aligned i su hi f hf := by
    have hp := pathOf_append heap id i f.path (by rw [pathOf_some hi, hf]; rfl)
    rcases Nat.lt_or_ge i heap.length with hlt | hge
    · rw [List.getElem?_append_left hlt] at hi
      exact hs.aligned i su hi f hf
    · simp [pathOf, List.getElem?_eq_none hge] at hp
  apart i j p hi hj := hs.apart i j p (pathOf_append heap id i p hi) (pathOf_append heap id j p hj)

theorem sound_set (hs : Sound heap d) (hk : heap[k]? = some st) (su : Stripe)
    (hown : su.Aligned e)
    (hothers : ∀ i p, i ≠ k → pathOf heap i = some p → p ∈ d.files →
      p ∈ e.files ∧ e.written p = d.written p ∧ su.frame.map Frame.path ≠ some p) :
    Sound (heap.set k su) e := by
  have hold : ∀ i p, i ≠ k → pathOf heap i = some p → p ∈ d.files := by
    intro i p _ hp
    cases hi : heap[i]? with
    | none => simp [pathOf, hi] at hp
    | some sv =>
      rw [pathOf_some hi] at hp
      obtain ⟨f,hf,rfl⟩ := Option.map_eq_some_iff.mp hp
      exact (hs.aligned i sv hi f hf).1
  constructor
  · intro i sv hi f hf
    rw [get_set hk] at hi
    split at hi
    · obtain rfl := Option.some.inj hi
      exact hown f hf
    · rename_i hne
      have hp : pathOf heap i = some f.path := by rw [pathOf_some hi, hf]; rfl
      obtain ⟨hm,hw,-⟩ := hothers i f.path hne hp (hold i f.path hne hp)
      exact ⟨hm,by rw [hw]; exact (hs.aligned i sv hi f hf).2⟩
  · intro i j p hi hj
    rw [pathOf_set hk] at hi hj
    split at hi <;> split at hj
    · omega
    · rename_i hne
      exact absurd hi (hothers j p hne hj (hold j p hne hj)).2.2
    · rename_i hne _
      exact absurd hj (hothers i p hne hi (hold i p hne hi)).2.2
    · exact hs.apart i j p hi hj

theorem call_stores (W : JsonWriter) (h : Host) (c : Call) (ha : st.Aligned h.disk) (r : Record)
    (hr : stored (c,(st.call W h c).1) = some r) :
    ∃ p, (st.call W h c).2.2.disk.written =
      Function.update h.disk.written p (h.disk.written p ++ r.encode W) := by
  obtain ⟨reply,st',h',heq,he⟩ := Stripe.call_effect W st h c
  rw [heq] at hr ⊢
  cases he with
  | rejected large => simp [stored] at hr
  | stopped e last d small kept grown hung => simp [stored] at hr
  | appended f small isOpen fits =>
    obtain ⟨hm,ht⟩ := ha f isOpen
    obtain rfl : st.record c = r := by simpa [stored, Stripe.record] using hr
    exact ⟨f.path,by rw [ht, Disk.write_end _ _ _ hm]⟩
  | rolled n d small needed second fresh below mem grown plain =>
    obtain rfl : st.record c = r := by simpa [stored, Stripe.record] using hr
    have hb : h.disk.written (framePath h.cwd st.id n) = [] :=
      h.disk.blank _ (fun hm => fresh (h.disk.files_present hm))
    have hw := Disk.write_end d (framePath h.cwd st.id n) ((st.record c).encode W) mem
    rw [grown.written, hb, List.length_nil] at hw
    exact ⟨framePath h.cwd st.id n,by rw [hb]; exact hw⟩

theorem sound_call (W : JsonWriter) (h : Host) (c : Call) (hs : Sound heap h.disk)
    (hk : heap[k]? = some st) :
    Sound (heap.set k (st.call W h c).2.1) (st.call W h c).2.2.disk := by
  have ha := hs.aligned k st hk
  have hapart : ∀ i p, i ≠ k → pathOf heap i = some p → st.frame.map Frame.path ≠ some p :=
    fun i p hne hi hf => hne (hs.apart i k p hi ((pathOf_some hk).trans hf))
  obtain ⟨reply,st',h',heq,he⟩ := Stripe.call_effect W st h c
  rw [heq]
  cases he with
  | rejected large =>
    apply sound_set hs hk
    · intro f hf
      rw [Stripe.assign_frame] at hf
      exact ha f hf
    · intro i p hne hi hp
      rw [Stripe.assign_frame]
      exact ⟨hp,rfl,hapart i p hne hi⟩
  | stopped e last d small kept grown hung =>
    apply sound_set hs hk
    · rcases kept with rfl | rfl
      · exact Stripe.aligned_grown ha grown
      · intro f hf
        cases hf
    · intro i p hne hi hp
      refine ⟨grown.files hp,congrFun grown.written p,?_⟩
      rcases kept with rfl | rfl
      · exact hapart i p hne hi
      · simp
  | appended f small isOpen fits =>
    obtain ⟨hm,ht⟩ := ha f isOpen
    have hw := Disk.write_end h.disk f.path ((st.record c).encode W) hm
    rw [← ht] at hw
    apply sound_set hs hk
    · intro g hg
      obtain rfl := Option.some.inj hg
      refine ⟨hm,?_⟩
      change f.tellp + st.room W c = ((h.disk.write _ _ _).written f.path).length
      rw [hw, Function.update_self, List.length_append, ht]
      rfl
    · intro i p hne hi hp
      have hpf : p ≠ f.path := by
        intro hpf
        exact hapart i p hne hi (by rw [isOpen, hpf]; rfl)
      exact ⟨hp,Disk.write_other _ _ _ _ _ hpf,fun hf => hpf (Option.some.inj hf).symm⟩
  | rolled n d small needed second fresh below mem grown plain =>
    have hb : h.disk.written (framePath h.cwd st.id n) = [] :=
      h.disk.blank _ (fun hm => fresh (h.disk.files_present hm))
    have hw := Disk.write_end d (framePath h.cwd st.id n) ((st.record c).encode W) mem
    rw [grown.written, hb, List.length_nil] at hw
    apply sound_set hs hk
    · intro g hg
      obtain rfl := Option.some.inj hg
      refine ⟨mem,?_⟩
      change st.room W c = ((d.write _ _ _).written (framePath h.cwd st.id n)).length
      rw [hw, Function.update_self, List.nil_append]
      rfl
    · intro i p hne hi hp
      have hpf : p ≠ framePath h.cwd st.id n := by
        rintro rfl
        exact fresh (h.disk.files_present hp)
      refine ⟨grown.files hp,?_,fun hf => hpf (Option.some.inj hf).symm⟩
      exact (Disk.write_other _ _ _ _ _ hpf).trans (by rw [grown.written])

end RethinkLog.StripeHeap
