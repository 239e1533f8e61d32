import RethinkLog.StripeEffect
import RethinkLog.Journal
import RethinkLog.Machine

/-!
# The frames hold the accepted records

The frames of one stripe represent a journal: each frame file holds the
encodings of whole records and nothing else, and what the stripe did not open
is as it was. One call advances the journal as its reply says, whatever the
filesystem does during the call.
-/

set_option autoImplicit false

namespace RethinkLog.LogIntegrity
open FramePath Record

def text (W : JsonWriter) (rs : List Record) : Bytes := rs.flatMap (encode W)

def stored (x : Call × Reply) : Option Record :=
  match x.2.outcome with
  | .wrote offset => some (x.1.record offset)
  | _ => none

def accepted (hist : List (Call × Reply)) : List Record := hist.filterMap stored

def opened (hist : List (Call × Reply)) : List FrameName := hist.flatMap (fun x => x.2.opened)

def advance (j : Journal FrameName Record) (x : Call × Reply) : Journal FrameName Record :=
  match stored x with
  | some r => Journal.append r (x.2.opened.foldl Journal.roll j)
  | none => j

structure Represents (W : JsonWriter) (base : Disk) (cwd : Path) (id : Bytes)
    (frame : Option Frame) (d : Disk) (j : Journal FrameName Record) : Prop where
  nodup : j.names.Nodup
  content : ∀ v ∈ j, d.written (framePath cwd id v.1) = text W v.2
  short : ∀ v ∈ j, (text W v.2).length < frameFilesize
  file : ∀ v ∈ j, framePath cwd id v.1 ∈ d.files
  fresh : ∀ v ∈ j, framePath cwd id v.1 ∉ base.present
  other : ∀ p, (∀ v ∈ j, p ≠ framePath cwd id v.1) → d.written p = base.written p
  older : base.present ⊆ d.present
  tail : ∀ f, frame = some f → ∃ init v, j = init ++ [v] ∧
    f.path = framePath cwd id v.1 ∧ f.tellp = (text W v.2).length
  plain : j ≠ [] → (0:UInt8) ∉ id

theorem represents_start (W : JsonWriter) (cwd : Path) (id : Bytes) (d : Disk) :
    Represents W d cwd id none d [] where
  nodup := List.nodup_nil
  content := by simp
  short := by simp
  file := by simp
  fresh := by simp
  other _ _ := rfl
  older := subset_rfl
  tail f hf := by cases hf
  plain h := absurd rfl h

variable {W : JsonWriter} {base d e : Disk} {cwd : Path} {id : Bytes} {frame : Option Frame}
variable {j : Journal FrameName Record}

theorem represents_grown (hr : Represents W base cwd id frame d j) (hg : Disk.Grown d e)
    (last : Option Frame) (hl : last = frame ∨ last = none) :
    Represents W base cwd id last e j where
  nodup := hr.nodup
  content v hv := by rw [hg.written, hr.content v hv]
  short := hr.short
  file v hv := hg.files (hr.file v hv)
  fresh := hr.fresh
  other p hp := by rw [hg.written, hr.other p hp]
  older := hr.older.trans hg.present
  tail f hf := by
    rcases hl with rfl | rfl
    · exact hr.tail f hf
    · cases hf
  plain := hr.plain

theorem represents_roll (hr : Represents W base cwd id frame d j) (hg : Disk.Grown d e)
    (n : FrameName) (hfresh : framePath cwd id n ∉ d.present)
    (hmem : framePath cwd id n ∈ e.files) (hid : (0:UInt8) ∉ id) :
    Represents W base cwd id (some ⟨framePath cwd id n,0⟩) e (j.roll n) := by
  have hcases : ∀ v ∈ j.roll n, v ∈ j ∨ v = (n,[]) := by
    intro v hv
    simpa [Journal.roll] using hv
  refine ⟨?_,?_,?_,?_,?_,?_,hr.older.trans hg.present,?_,fun _ => hid⟩
  · rw [Journal.names_roll, List.nodup_append]
    refine ⟨hr.nodup,List.nodup_singleton n,fun a ha b hb => ?_⟩
    obtain rfl : b = n := by simpa using hb
    rintro rfl
    obtain ⟨v,hv,rfl⟩ := List.mem_map.mp ha
    exact hfresh (d.files_present (hr.file v hv))
  · intro v hv
    rw [hg.written]
    rcases hcases v hv with hv | rfl
    · exact hr.content v hv
    · exact d.blank _ (fun hm => hfresh (d.files_present hm))
  · intro v hv
    rcases hcases v hv with hv | rfl
    · exact hr.short v hv
    · exact (by decide : 0 < frameFilesize)
  · intro v hv
    rcases hcases v hv with hv | rfl
    · exact hg.files (hr.file v hv)
    · exact hmem
  · intro v hv
    rcases hcases v hv with hv | rfl
    · exact hr.fresh v hv
    · exact fun hm => hfresh (hr.older hm)
  · intro p hp
    rw [hg.written]
    exact hr.other p (fun v hv => hp v (by simp [Journal.roll, hv]))
  · intro f hf
    obtain rfl := Option.some.inj hf
    exact ⟨j,(n,[]),rfl,rfl,rfl⟩

theorem represents_nodup (hr : Represents W base cwd id frame d j) :
    (j.names.map (framePath cwd id)).Nodup := by
  by_cases hj : j = []
  · rw [hj]
    exact List.nodup_nil
  · exact hr.nodup.map (framePath_injective cwd (hr.plain hj))

theorem represents_write {init : Journal FrameName Record} {v : FrameName × List Record}
    (hr : Represents W base cwd id frame d (init++[v])) (r : Record)
    (hshort : (text W v.2).length+(encode W r).length < frameFilesize) :
    Represents W base cwd id
      (some ⟨framePath cwd id v.1,(text W v.2).length+(encode W r).length⟩)
      (d.write (framePath cwd id v.1) (text W v.2).length (encode W r))
      (Journal.append r (init++[v])) := by
  have htext : text W (v.2++[r]) = text W v.2 ++ encode W r := by simp [text]
  have hv := hr.content v (by simp)
  have hwritten : (d.write (framePath cwd id v.1) (text W v.2).length (encode W r)).written =
      Function.update d.written (framePath cwd id v.1) (text W (v.2++[r])) := by
    rw [← hv, Disk.write_end _ _ _ (hr.file v (by simp)), hv, htext]
  have hcases : ∀ w ∈ init ++ [(v.1,v.2++[r])], w ∈ init ∨ w = (v.1,v.2++[r]) := by
    intro w hw
    simpa using hw
  have hid := hr.plain (by simp)
  have hapart : ∀ w ∈ init, framePath cwd id w.1 ≠ framePath cwd id v.1 := by
    intro w hw he
    have hn := hr.nodup
    simp only [Journal.names, List.map_append, List.nodup_append] at hn
    exact hn.2.2 w.1 (List.mem_map_of_mem hw) v.1 (by simp) (framePath_injective _ hid he)
  rw [Journal.append_last]
  refine ⟨?_,?_,?_,?_,?_,?_,hr.older,?_,fun _ => hid⟩
  · have hn := hr.nodup
    simpa [Journal.names] using hn
  · intro w hw
    rw [hwritten]
    rcases hcases w hw with hw | rfl
    · rw [Function.update_of_ne (hapart w hw)]
      exact hr.content w (by simp [hw])
    · exact Function.update_self _ _ _
  · intro w hw
    rcases hcases w hw with hw | rfl
    · exact hr.short w (by simp [hw])
    · simpa [htext] using hshort
  · intro w hw
    rcases hcases w hw with hw | rfl
    · exact hr.file w (by simp [hw])
    · exact hr.file v (by simp)
  · intro w hw
    rcases hcases w hw with hw | rfl
    · exact hr.fresh w (by simp [hw])
    · exact hr.fresh v (by simp)
  · intro p hp
    rw [hwritten, Function.update_of_ne (hp (v.1,v.2++[r]) (by simp))]
    apply hr.other
    intro w hw
    rcases List.mem_append.mp hw with hw | hw
    · exact hp w (by simp [hw])
    · obtain rfl : w = v := by simpa using hw
      exact hp (w.1,w.2++[r]) (by simp)
  · intro f hf
    obtain rfl := Option.some.inj hf
    exact ⟨init,_,rfl,rfl,by simp [htext]⟩

def Keeps (W : JsonWriter) (base : Disk) (s : Stripe × Host) (j : Journal FrameName Record) :
    Prop := Represents W base s.2.cwd s.1.id s.1.frame s.2.disk j

theorem keeps_step (s : Stripe × Host) (hk : Keeps W base s j) (c : Call) :
    Keeps W base (stripeStep W s c).2 (advance j (c,(stripeStep W s c).1)) := by
  obtain ⟨st,h⟩ := s
  obtain ⟨reply,st',h',heq,he⟩ := Stripe.call_effect W st h c
  rw [show stripeStep W (st,h) c = _ from heq]
  unfold Keeps at hk ⊢
  cases he with
  | rejected large =>
    simpa [advance, stored, Stripe.assign_id, Stripe.assign_frame] using hk
  | stopped stop last e small kept grown hung =>
    simpa [advance, stored, Stripe.assign_id, Host.next] using represents_grown hk grown last kept
  | appended f small isOpen fits =>
    obtain ⟨init,v,rfl,hp,ht⟩ := hk.tail f isOpen
    have hw := represents_write hk (st.record c) (by rw [← ht]; exact fits)
    simpa [advance, stored, Stripe.assign_id, Stripe.record, Stripe.room, hp, ht] using hw
  | rolled n e small needed second fresh below mem grown plain =>
    have hroll := represents_roll hk grown n fresh mem plain
    have hw := represents_write (v := (n,[])) hroll (st.record c)
      (by simpa [text, Stripe.room] using small)
    simpa [advance, stored, Stripe.assign_id, Stripe.record, Stripe.room, Host.next, text,
      Journal.roll] using hw

theorem step_host (W : JsonWriter) (s : Stripe × Host) (c : Call) :
    (stripeStep W s c).2.1.id = s.1.id ∧ (stripeStep W s c).2.2.cwd = s.2.cwd := by
  obtain ⟨st,h⟩ := s
  obtain ⟨reply,st',h',heq,he⟩ := Stripe.call_effect W st h c
  rw [show stripeStep W (st,h) c = _ from heq]
  cases he <;> exact ⟨Stripe.assign_id _ _,rfl⟩

theorem step_silent (W : JsonWriter) (s : Stripe × Host) (c : Call)
    (hn : stored (c,(stripeStep W s c).1) = none) :
    (stripeStep W s c).2.2.disk.written = s.2.disk.written := by
  obtain ⟨st,h⟩ := s
  obtain ⟨reply,st',h',heq,he⟩ := Stripe.call_effect W st h c
  rw [show stripeStep W (st,h) c = _ from heq] at hn ⊢
  cases he with
  | rejected large => rfl
  | stopped stop last e small kept grown hung => exact grown.written
  | appended f small isOpen fits => simp [stored] at hn
  | rolled n e small needed second fresh below mem grown plain => simp [stored] at hn

theorem opened_concat (hist : List (Call × Reply)) (x : Call × Reply) :
    opened (hist++[x]) = opened hist ++ x.2.opened := by simp [opened]

theorem accepted_concat (hist : List (Call × Reply)) (x : Call × Reply) :
    accepted (hist++[x]) = accepted hist ++ (stored x).toList := by
  cases hx : stored x <;> simp [accepted, List.filterMap_append, hx]

theorem advance_reply (s : Stripe × Host) (hk : Keeps W base s j) (c : Call) :
    (advance j (c,(stripeStep W s c).1)).names = j.names ++ (stripeStep W s c).1.opened ∧
    (advance j (c,(stripeStep W s c).1)).records =
      j.records ++ (stored (c,(stripeStep W s c).1)).toList := by
  obtain ⟨st,h⟩ := s
  obtain ⟨reply,st',h',heq,he⟩ := Stripe.call_effect W st h c
  rw [show stripeStep W (st,h) c = _ from heq]
  cases he with
  | rejected large => simp [advance, stored]
  | stopped stop last e small kept grown hung => simp [advance, stored]
  | appended f small isOpen fits =>
    obtain ⟨init,v,rfl,-⟩ := hk.tail f isOpen
    simp [advance, stored, Journal.names_append, Journal.records_append]
  | rolled n e small needed second fresh below mem grown plain =>
    have hne : Journal.roll j n ≠ [] := by simp [Journal.roll]
    simp [advance, stored, Journal.names_append, Journal.records_append, hne]

/-- A run of a stripe keeps some journal whose volumes are the frames opened
and whose records are the ones accepted. -/
theorem run_journal (W : JsonWriter) (id : Bytes) (h : Host) (calls : List Call) :
    let s := Machine.final (stripeStep W) (Stripe.create id,h) calls
    let hist := Machine.history (stripeStep W) (Stripe.create id,h) calls
    s.1.id = id ∧ s.2.cwd = h.cwd ∧ ∃ j : Journal FrameName Record, Keeps W h.disk s j ∧
      j.names = opened hist ∧ j.records = accepted hist := by
  apply Machine.history_invariant (stripeStep W) (fun s hist => s.1.id = id ∧ s.2.cwd = h.cwd ∧
    ∃ j : Journal FrameName Record, Keeps W h.disk s j ∧
      j.names = opened hist ∧ j.records = accepted hist)
  · exact ⟨rfl,rfl,[],represents_start W h.cwd id h.disk,rfl,rfl⟩
  · rintro s hist c ⟨hid,hcwd,j,hk,hn,hr⟩
    obtain ⟨hi,hc⟩ := step_host W s c
    obtain ⟨han,har⟩ := advance_reply s hk c
    refine ⟨hi.trans hid,hc.trans hcwd,_,keeps_step s hk c,?_,?_⟩
    · rw [han, hn, opened_concat]
    · rw [har, hr, accepted_concat]

/-- Log integrity, whatever the clock and the filesystem do. The frames
opened by a stripe are distinct new files. They hold whole records, each
frame less than its size, and together exactly the accepted records in call
order. A call that is rejected or throws writes nothing anywhere. -/
theorem log_integrity (W : JsonWriter) (id : Bytes) (h : Host) (calls : List Call) :
    let s := Machine.final (stripeStep W) (Stripe.create id,h) calls
    let hist := Machine.history (stripeStep W) (Stripe.create id,h) calls
    let frames := (opened hist).map (framePath h.cwd id)
    frames.Nodup ∧ (∀ p ∈ frames, p ∈ s.2.disk.files ∧ p ∉ h.disk.present) ∧
    (∃ parts : List (List Record), frames.map s.2.disk.written = parts.map (text W) ∧
      parts.flatten = accepted hist) ∧
    frames.flatMap s.2.disk.written = text W (accepted hist) ∧
    (∀ p ∈ frames, (s.2.disk.written p).length < frameFilesize) ∧
    (∀ c, stored (c,(stripeStep W s c).1) = none →
      (stripeStep W s c).2.2.disk.written = s.2.disk.written) := by
  intro s hist frames
  obtain ⟨hid,hcwd,j,hk,hn,hr⟩ := run_journal W id h calls
  have hframes : frames = j.map (fun v => framePath h.cwd id v.1) := by
    simp [frames, hist, ← hn, Journal.names]
  unfold Keeps at hk
  rw [hid, hcwd] at hk
  have hwritten : frames.map s.2.disk.written = (j.map Prod.snd).map (text W) := by
    rw [hframes, List.map_map, List.map_map]
    exact List.map_congr_left hk.content
  have hmem : ∀ p ∈ frames, ∃ v ∈ j, p = framePath h.cwd id v.1 := by
    intro p hp
    rw [hframes] at hp
    obtain ⟨v,hv,rfl⟩ := List.mem_map.mp hp
    exact ⟨v,hv,rfl⟩
  refine ⟨?_,?_,⟨j.map Prod.snd,hwritten,?_⟩,?_,?_,fun c => step_silent W s c⟩
  · simp only [frames, hist, ← hn]
    exact represents_nodup hk
  · intro p hp
    obtain ⟨v,hv,rfl⟩ := hmem p hp
    exact ⟨hk.file v hv,hk.fresh v hv⟩
  · rw [← hr]
    rfl
  · rw [List.flatMap_def, hwritten, List.map_map, ← List.flatMap_def, ← hr, Journal.records,
      text, List.flatMap_assoc]
    rfl
  · intro p hp
    obtain ⟨v,hv,rfl⟩ := hmem p hp
    rw [hk.content v hv]
    exact hk.short v hv

end RethinkLog.LogIntegrity
