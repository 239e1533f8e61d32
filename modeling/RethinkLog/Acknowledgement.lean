import RethinkLog.StorageOffsets
import RethinkLog.FrameBuilding

/-!
# What a publisher is told

A publisher waits for its callback. It is called once and with the truth
unless a filesystem call throws while a frame is built, or the names of the
frame are probed without end; then nothing calls it.
-/

set_option autoImplicit false

namespace RethinkLog.Storage
open StripeHeap LogIntegrity Machine

def Acknowledged (W : JsonWriter) (d e : Disk) (a : Answer) : Prop :=
  ∃ o, a.results = [o] ∧ (o = 0 ∧ e.written = d.written ∨
    ∃ p, e.written = Function.update d.written p (d.written p ++ (a.call.record o).encode W))

def Told (W : JsonWriter) (s : Storage) (id key data localtime : Bytes) : Prop :=
  ∃ a, (s.publish W id key data localtime).1 = some a ∧
    Acknowledged W s.host.disk (s.publish W id key data localtime).2.host.disk a

/-- The record is too large for any frame, or it fits the open frame, or the
next frame can be built. -/
def Settled (W : JsonWriter) (s : Storage) (id key data localtime : Bytes) : Prop :=
  let st := s.serving id
  let size := st.room W ⟨uint64Max,key,data,localtime⟩
  frameFilesize ≤ size ∨ (∃ f, st.frame = some f ∧ f.tellp+size < frameFilesize) ∨
    st.Buildable s.host

variable {s : Storage}

theorem sound_stripe (hs : Sound s.heap s.host.disk) (id : Bytes) :
    Sound (s.stripe id).2.heap (s.stripe id).2.host.disk := by
  unfold stripe
  split
  · exact hs
  · exact sound_append hs id

theorem sound_write (W : JsonWriter) (hs : Sound s.heap s.host.disk) (k : ℕ) (c : Call) :
    Sound (s.write W k c).2.heap (s.write W k c).2.host.disk := by
  cases hk : s.heap[k]? with
  | none => rwa [write_none W s k c hk]
  | some st =>
    rw [write_some W s k c hk]
    exact sound_call W s.host c hs hk

theorem run_sound (W : JsonWriter) (h : Host) (ops : List Op) :
    let s := (final (step W) (World.fresh h) ops).storage
    Sound s.heap s.host.disk := by
  induction ops using List.reverseRecOn with
  | nil => exact (counted_fresh h).sound
  | append_singleton ops op ih =>
    rw [final_concat]
    cases op with
    | publish id key data localtime => exact sound_write W (sound_stripe ih id) _ _
    | writer name id => exact sound_stripe ih id
    | handle name c =>
      simp only [step]
      split
      · exact ih
      · exact sound_write W ih _ c

theorem call_acknowledged (W : JsonWriter) (st : Stripe) (h : Host) (c : Call)
    (ha : st.Aligned h.disk) :
    Acknowledged W h.disk (st.call W h c).2.2.disk
      ⟨st.id,c,(st.call W h c).1,handedOut (st.call W h c).1⟩ ↔
        (st.call W h c).1.outcome.returned = true := by
  have hsilent := step_silent W (st,h) c
  have hstores := call_stores W h c ha (c.record (st.assign c.offset).1)
  rw [show stripeStep W (st,h) c = st.call W h c from rfl] at hsilent
  rcases call_results W st h c with ⟨e,ho,hr⟩ | ⟨ho,hr⟩ | ⟨ho,hr⟩
  · rw [ho]
    constructor
    · rintro ⟨o,hres,-⟩
      rw [hr] at hres
      cases hres
    · intro hreturned
      cases hreturned
  · rw [ho]
    refine ⟨fun _ => rfl,fun _ => ⟨0,hr,Or.inl ⟨rfl,hsilent ?_⟩⟩⟩
    simp only [stored, ho]
  · rw [ho]
    refine ⟨fun _ => rfl,fun _ => ⟨_,hr,Or.inr (hstores ?_)⟩⟩
    simp only [stored, ho]

/-- After every run, a publish calls its callback once and with the truth
exactly when its record is too large for any frame, or fits the open frame, or
a frame can be built for it. -/
theorem acknowledged_iff (W : JsonWriter) (h : Host) (ops : List Op)
    (id key data localtime : Bytes) :
    let s := (final (step W) (World.fresh h) ops).storage
    Told W s id key data localtime ↔ Settled W s id key data localtime := by
  intro s
  have hr := (run_valid W h ops).1.registered
  obtain ⟨hg,hid⟩ := serving_get id hr
  obtain ⟨hanswer,-,hhost,-⟩ := publish_serves W s id key data localtime hr
  have ha := (sound_stripe (run_sound W h ops) id).aligned _ _ hg
  rw [stripe_host] at ha
  have hcall := call_acknowledged W (s.serving id) s.host ⟨uint64Max,key,data,localtime⟩ ha
  rw [hid, Stripe.returns_iff] at hcall
  unfold Told Settled
  rw [hanswer, hhost, ← hcall]
  simp

example : ((World.fresh (.still [] 0)).storage.publish (.library true)
    (ascii "a\x00b") [] [] []).1.map (fun a => (a.reply.outcome,a.results)) =
      some (.stopped .hung,[]) := by decide

def failing : Host := { Host.still [] 0 with coming := fun _ => ⟨0,some (.createDirectories 0)⟩ }

theorem failed_publish_silent : ¬ ∀ (W : JsonWriter) (h : Host) (ops : List Op)
    (id key data localtime : Bytes),
    Told W (final (step W) (World.fresh h) ops).storage id key data localtime := by
  intro hall
  obtain ⟨a,hp,o,hres,-⟩ := hall (.library true) failing [] (ascii "s") [] [] []
  have hnone : ((World.fresh failing).storage.publish (.library true) (ascii "s") [] [] []).1.map
      Answer.results = some [] := by decide
  rw [show ((World.fresh failing).storage.publish (.library true) (ascii "s") [] [] []).1 = some a
    from hp, Option.map_some, hres] at hnone
  cases hnone

end RethinkLog.Storage
