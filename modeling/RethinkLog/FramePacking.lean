import RethinkLog.LogIntegrity
import RethinkLog.Packing

/-!
# Frames are filled next-fit

While no filesystem call fails, a stripe without an open frame has none at
all. Its frames are then the bins of next-fit packing: a record goes to the
open frame exactly when it stays below the size of a frame there.
-/

set_option autoImplicit false

namespace RethinkLog.FramePacking
open FramePath LogIntegrity Machine Packing

def encodedSize (W : JsonWriter) (r : Record) : ℕ := (r.encode W).length

/-- The accepted records as they should be split over frames. -/
def packed (W : JsonWriter) (rs : List Record) : List (List Record) :=
  nextFit (encodedSize W) (frameFilesize-1) rs

def parts (j : Journal FrameName Record) : List (List Record) := j.map Prod.snd

theorem text_length (W : JsonWriter) (rs : List Record) :
    (text W rs).length = load (encodedSize W) rs := by
  rw [text, List.length_flatMap]
  rfl

variable {W : JsonWriter} {base : Disk} {j : Journal FrameName Record}

def Filled (W : JsonWriter) (st : Stripe) (j : Journal FrameName Record) : Prop :=
  parts j = packed W j.records ∧ (st.frame = none → j = [])

theorem packed_append (init : Journal FrameName Record) (v : FrameName × List Record)
    (r : Record) (hp : parts (init++[v]) = packed W (Journal.records (init++[v])))
    (hfits : (text W v.2).length + (r.encode W).length < frameFilesize) :
    parts (Journal.append r (init++[v])) =
      packed W (Journal.records (Journal.append r (init++[v]))) := by
  have hplace : packed W (Journal.records (init++[v]) ++ [r]) =
      parts init ++ [v.2++[r]] := by
    rw [packed, nextFit_concat]
    rw [packed] at hp
    rw [← hp, show parts (init++[v]) = parts init ++ [v.2] by simp [parts], place_last, if_pos]
    rw [text_length] at hfits
    unfold encodedSize at hfits ⊢
    omega
  rw [Journal.records_append _ _ (by simp), hplace, Journal.append_last]
  simp [parts]

theorem packed_roll (r : Record) (n : FrameName)
    (hp : parts j = packed W j.records)
    (hneeded : ∀ v, j.getLast? = some v →
      frameFilesize ≤ (text W v.2).length + (r.encode W).length) :
    parts (Journal.append r (j.roll n)) =
      packed W (Journal.records (Journal.append r (j.roll n))) := by
  have hplace : packed W (Journal.records j ++ [r]) = parts j ++ [[r]] := by
    rw [packed, nextFit_concat]
    rw [packed] at hp
    rw [← hp]
    induction j using List.reverseRecOn with
    | nil => rfl
    | append_singleton init v _ =>
      have hfull := hneeded v (by simp)
      rw [text_length] at hfull
      rw [show parts (init++[v]) = parts init ++ [v.2] by simp [parts], place_last, if_neg]
      · simp
      · unfold encodedSize at hfull ⊢
        have := show 0 < frameFilesize by decide
        omega
  rw [Journal.records_append _ _ (by simp [Journal.roll]), Journal.records_roll, hplace,
    Journal.roll, Journal.append_last]
  simp [parts]

theorem filled_step (s : Stripe × Host) (hk : Keeps W base s j) (hf : Filled W s.1 j) (c : Call)
    (hok : (stripeStep W s c).1.outcome.thrown = false) :
    Filled W (stripeStep W s c).2.1 (advance j (c,(stripeStep W s c).1)) := by
  obtain ⟨st,h⟩ := s
  obtain ⟨hp,hn⟩ := hf
  obtain ⟨reply,st',h',heq,he⟩ := Stripe.call_effect W st h c
  rw [show stripeStep W (st,h) c = _ from heq] at hok ⊢
  cases he with
  | rejected large => exact ⟨hp,fun hnone => hn (by rwa [Stripe.assign_frame] at hnone)⟩
  | stopped stop last e small kept grown hung =>
    cases stop with
    | threw f => cases hok
    | hung =>
      obtain ⟨-,rfl⟩ := hung rfl
      exact ⟨hp,hn⟩
  | appended f small isOpen fits =>
    obtain ⟨init,v,rfl,-,ht⟩ := hk.tail f isOpen
    rw [ht] at fits
    exact ⟨packed_append init v (st.record c) hp fits,fun hnone => by cases hnone⟩
  | rolled n e small needed second fresh below mem grown plain =>
    refine ⟨packed_roll (st.record c) n hp (fun v hv => ?_),fun hnone => by cases hnone⟩
    cases hframe : st.frame with
    | none => simp [hn hframe] at hv
    | some f =>
      obtain ⟨init,w,rfl,-,ht⟩ := hk.tail f hframe
      obtain rfl : w = v := by simpa using hv
      rw [← ht]
      exact needed f hframe

theorem rejected_opens (s : Stripe × Host) (c : Call)
    (hr : (stripeStep W s c).1.outcome = .rejected) : (stripeStep W s c).1.opened = [] := by
  obtain ⟨st,h⟩ := s
  obtain ⟨reply,st',h',heq,he⟩ := Stripe.call_effect W st h c
  rw [show stripeStep W (st,h) c = _ from heq] at hr ⊢
  cases he with
  | rejected large => rfl
  | stopped stop last e small kept grown hung => rfl
  | appended f small isOpen fits => rfl
  | rolled n e small => cases hr

structure Kept (W : JsonWriter) (id : Bytes) (h : Host) (s : Stripe × Host)
    (hist : List (Call × Reply)) : Prop where
  named : s.1.id = id
  cwd : s.2.cwd = h.cwd
  journal : ∃ j : Journal FrameName Record, Keeps W h.disk s j ∧ j.names = opened hist ∧
    j.records = accepted hist ∧ Filled W s.1 j
  rejected : ∀ x ∈ hist, x.2.outcome = .rejected → x.2.opened = []

theorem kept_step {id : Bytes} {h : Host} (s : Stripe × Host) (hist : List (Call × Reply))
    (hk : Kept W id h s hist) (c : Call) (hok : (stripeStep W s c).1.outcome.thrown = false) :
    Kept W id h (stripeStep W s c).2 (hist++[(c,(stripeStep W s c).1)]) := by
  obtain ⟨hid,hcwd,⟨j,hj,hn,hr,hf⟩,hrej⟩ := hk
  obtain ⟨hi,hc⟩ := step_host W s c
  obtain ⟨han,har⟩ := advance_reply s hj c
  constructor
  · exact hi.trans hid
  · exact hc.trans hcwd
  · exact ⟨_,keeps_step s hj c,by rw [han, hn, opened_concat],by rw [har, hr, accepted_concat],
      filled_step s hj hf c hok⟩
  · intro x hx
    rcases List.mem_append.mp hx with hx | hx
    · exact hrej x hx
    · rw [List.mem_singleton.mp hx]
      exact rejected_opens s c

theorem run_kept (W : JsonWriter) (id : Bytes) (h : Host) (calls : List Call)
    (hok : ∀ x ∈ history (stripeStep W) (Stripe.create id,h) calls, x.2.outcome.thrown = false) :
    Kept W id h (final (stripeStep W) (Stripe.create id,h) calls)
      (history (stripeStep W) (Stripe.create id,h) calls) := by
  revert hok
  apply history_invariant (stripeStep W) (fun s hist =>
    (∀ x ∈ hist, x.2.outcome.thrown = false) → Kept W id h s hist)
  · intro _
    exact ⟨rfl,rfl,⟨[],represents_start W h.cwd id h.disk,rfl,rfl,rfl,fun _ => rfl⟩,by simp⟩
  · intro s hist c ih hok
    have hk := ih (fun x hx => hok x (by simp [hx]))
    exact kept_step s hist hk c (hok (c,(stripeStep W s c).1) (by simp))

/-- The frames of a run without filesystem failures are the bins of next-fit
packing of its accepted records. A rejected call opens no frame, no frame
stays empty, and two frames in a row hold at least the size of one. -/
theorem frames_packed (W : JsonWriter) (id : Bytes) (h : Host) (calls : List Call)
    (hok : ∀ x ∈ history (stripeStep W) (Stripe.create id,h) calls, x.2.outcome.thrown = false) :
    let s := final (stripeStep W) (Stripe.create id,h) calls
    let hist := history (stripeStep W) (Stripe.create id,h) calls
    let frames := (opened hist).map (framePath h.cwd id)
    frames.map s.2.disk.written = (packed W (accepted hist)).map (text W) ∧
    (∀ x ∈ hist, x.2.outcome = .rejected → x.2.opened = []) ∧
    (∀ p ∈ frames, s.2.disk.written p ≠ []) ∧
    frames.IsChain (fun p q => frameFilesize ≤
      (s.2.disk.written p).length + (s.2.disk.written q).length) := by
  intro s hist frames
  obtain ⟨hid,hcwd,⟨j,hk,hn,hr,hp,-⟩,hrej⟩ := run_kept W id h calls hok
  have htight := nextFit_tight (encodedSize W) (frameFilesize-1) (accepted hist)
  rw [show nextFit (encodedSize W) (frameFilesize-1) (accepted hist) = parts j by
    rw [hp, hr]; rfl] at htight
  unfold Keeps at hk
  rw [hid, hcwd] at hk
  have hframes : frames = j.map (fun v => framePath h.cwd id v.1) := by
    simp [frames, hist, ← hn, Journal.names]
  refine ⟨?_,hrej,?_,?_⟩
  · rw [hframes, ← hr, ← hp, parts, List.map_map, List.map_map]
    exact List.map_congr_left hk.content
  · intro p hpm hempty
    rw [hframes] at hpm
    obtain ⟨v,hv,rfl⟩ := List.mem_map.mp hpm
    have hne := htight.filled v.2 (List.mem_map_of_mem hv)
    rw [hk.content v hv, text, List.flatMap_eq_nil_iff] at hempty
    obtain ⟨r,hrm⟩ := List.exists_mem_of_ne_nil _ hne
    exact Record.encode_ne_nil W r (hempty r hrm)
  · rw [hframes, List.isChain_map]
    have ha := htight.adjacent
    rw [parts, List.isChain_map] at ha
    refine ha.imp_of_mem_imp (fun v w hv hw hvw => ?_)
    rw [hk.content v hv, hk.content w hw, text_length, text_length]
    omega

theorem frames_packed_pair :
    let W : JsonWriter := .library true
    let calls : List Call := [⟨uint64Max,[],[],[]⟩,⟨7,[],[],[]⟩]
    let hist := history (stripeStep W) (Stripe.create (ascii "s"),.still [] 5) calls
    opened hist = [⟨5,0⟩] ∧ ∀ x ∈ hist, x.2.outcome = .rejected → x.2.opened = [] := by
  intro W calls hist
  exact ⟨by decide,(frames_packed W (ascii "s") (.still [] 5) calls (by decide)).2.1⟩

end RethinkLog.FramePacking
