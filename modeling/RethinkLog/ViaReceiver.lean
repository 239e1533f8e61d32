import RethinkLog.ViaParser

/-!
# The receivers of the HTTP library

A receiver parses the head of a message and then takes its body or its chunks.
A packet is given to it once, and what it does not take of the packet is lost.
A receiver of requests and one of responses take a body without chunks alike:
each packet adds to it what is missing of the content length, and what is
behind is left out. Lengths are compared as `long`. Where a length does not fit,
the range that is to be taken ends before it begins, and the container throws.
-/

set_option autoImplicit false

namespace RethinkLog.Via
open Http

/-- `receiver_parsing_state`, or an exception that leaves the receiver. -/
inductive RxState where
  | invalid
  | lengthRequired
  | expectContinue
  | incomplete
  | valid
  | chunk
  | thrown
  deriving DecidableEq, Repr

/-- How many bytes of a body are missing, as a `long`. -/
def required (length : ℕ) (body : Bytes) : ℤ := ((length : ℤ)-body.length).bmod (2^64)

def extended (length : ℕ) (body cs : Bytes) : Bytes :=
  body ++ if required length body < cs.length then cs.take (required length body).toNat else cs

/-- What a receiver makes of bytes of a body without chunks: the length of the
body, its field, and what there is of it. -/
def takeBody (length : ℕ) (field body cs : Bytes) : RxState × Bytes :=
  if length = ulongMax then (.invalid, [])
  else if cs ≠ [] ∧ length = 0 ∧ field = [] then (.lengthRequired, [])
  -- `insert` of the range from `iter` to `iter + required`
  else if required length body < 0 then (.thrown, body)
  else
    (if (extended length body cs).length = length then .valid else .incomplete,
      extended length body cs)

section Settled
variable {σ : Type}

def settled (cleared : σ) (hold full : Bytes → σ) (p : RxState × Bytes) : RxState × σ :=
  (p.1,match p.1 with
    | .invalid | .lengthRequired => cleared
    | .valid => full p.2
    | _ => hold p.2)

end Settled

structure RequestReceiver where
  request : RxRequest
  chunk : RxChunk
  body : Bytes
  continueSent : Bool
  isHead : Bool
  deriving DecidableEq, Repr

namespace RequestReceiver

def cleared : RequestReceiver := ⟨.cleared,.cleared,[],false,false⟩

def receiveBody (rx : RequestReceiver) (cs : Bytes) : RxState × RequestReceiver :=
  settled cleared (fun body => { rx with body := body })
    (fun body => { rx with
      body := body
      isHead := rx.request.shown.isHead
      request := rx.request.translated })
    (takeBody rx.request.shown.contentLength (rx.request.shown.find (ascii "content-length"))
      rx.body cs)

/-- The next chunk; `parsed` when its packet has completed the request. -/
def receiveChunkWith (concatenateChunks : Bool) (rx : RequestReceiver) (parsed : Bool)
    (cs : Bytes) : RxState × RequestReceiver :=
  let p := rx.chunk.next.parse cs
  let rx := { rx with chunk := p.2.1 }
  if p.1 = false ∧ p.2.2 ≠ [] then (.invalid, cleared)
  else if parsed && rx.request.expectContinue && !rx.continueSent then (.expectContinue, rx)
  else if parsed && !concatenateChunks then (.valid, rx)
  else if rx.chunk.valid then
    if concatenateChunks then
      if rx.chunk.header.isLast then (.valid, rx)
      else (.incomplete, { rx with body := rx.body++rx.chunk.data })
    else (.chunk, rx)
  else (.incomplete, rx)

def receiveContentWith (concatenateChunks : Bool) (rx : RequestReceiver) (parsed : Bool)
    (cs : Bytes) : RxState × RequestReceiver :=
  if rx.request.shown.isChunked then rx.receiveChunkWith concatenateChunks parsed cs
  else rx.receiveBody cs

def receiveWith (concatenateChunks : Bool) (rx : RequestReceiver) (cs : Bytes) :
    RxState × RequestReceiver :=
  if rx.request.valid then rx.receiveContentWith concatenateChunks false cs
  else
    let p := rx.request.parse cs
    if p.1 then { rx with request := p.2.1 }.receiveContentWith concatenateChunks true p.2.2
    else if p.2.2 ≠ [] ∨ p.2.1.line.fail then (.invalid, cleared)
    else (.incomplete, { rx with request := p.2.1 })

def receive : RequestReceiver → Bytes → RxState × RequestReceiver := receiveWith false

def receiveContent : RequestReceiver → Bool → Bytes → RxState × RequestReceiver :=
  receiveContentWith false

end RequestReceiver

/-- The parser of the first chunk takes the bytes for an error. -/
def Refuses (rest : Bytes) : Prop :=
  (RxChunk.cleared.parse rest).1 = false ∧ (RxChunk.cleared.parse rest).2.2 ≠ []

theorem takeBody_cases (length : ℕ) (field body cs : Bytes) :
    takeBody length field body cs = (.invalid,[]) ∨
      takeBody length field body cs = (.lengthRequired,[]) ∨
      (required length body < 0 ∧ takeBody length field body cs = (.thrown,body)) ∨
      (0 ≤ required length body ∧ takeBody length field body cs =
        (if (extended length body cs).length = length then .valid else .incomplete,
          extended length body cs)) := by
  unfold takeBody
  split
  · exact .inl rfl
  · split
    · exact .inr (.inl rfl)
    · split
      · rename_i hrequired
        exact .inr (.inr (.inl ⟨hrequired,rfl⟩))
      · rename_i hrequired
        exact .inr (.inr (.inr ⟨not_lt.mp hrequired,rfl⟩))

theorem takeBody_states (length : ℕ) (field body cs : Bytes) :
    (takeBody length field body cs).1 ≠ .expectContinue ∧
      (takeBody length field body cs).1 ≠ .chunk := by
  rcases takeBody_cases length field body cs with h | h | ⟨-,h⟩ | ⟨-,h⟩
  · simp [h]
  · simp [h]
  · simp [h]
  · rw [h]
    dsimp only
    split <;> simp

theorem takeBody_valid (length : ℕ) (field body cs : Bytes)
    (h : (takeBody length field body cs).1 = .valid) :
    (takeBody length field body cs).2.length = length := by
  rcases takeBody_cases length field body cs with hc | hc | ⟨-,hc⟩ | ⟨-,hc⟩
  · simp [hc] at h
  · simp [hc] at h
  · simp [hc] at h
  · rw [hc] at h ⊢
    by_contra hlength
    exact absurd h (by simp [hlength])

namespace RequestReceiver

theorem body_outcome (rx : RequestReceiver) (cs : Bytes) (hv : rx.request.valid = true) :
    (rx.receiveBody cs).1 ≠ .expectContinue ∧ ((rx.receiveBody cs).1 = .invalid ∨
      (rx.receiveBody cs).1 = .lengthRequired ∨ (rx.receiveBody cs).2.request.valid = true) := by
  have hstates := takeBody_states rx.request.shown.contentLength
    (rx.request.shown.find (ascii "content-length")) rx.body cs
  unfold receiveBody settled
  refine ⟨hstates.1,?_⟩
  generalize takeBody _ _ _ _ = p
  obtain ⟨s,body⟩ := p
  cases s <;> simp [RxRequest.translated, hv]

theorem chunk_outcome (rx : RequestReceiver) (parsed : Bool) (cs : Bytes)
    (hv : rx.request.valid = true) :
    ((rx.receiveChunkWith false parsed cs).1 = .expectContinue →
      parsed = true ∧ (rx.receiveChunkWith false parsed cs).2.request = rx.request) ∧
    ((rx.receiveChunkWith false parsed cs).1 = .invalid ∨
      (rx.receiveChunkWith false parsed cs).2.request.valid = true) := by
  unfold receiveChunkWith
  generalize rx.chunk.next.parse cs = p
  obtain ⟨ok,chunk,rest⟩ := p
  dsimp only
  by_cases hbad : ok = false ∧ rest ≠ []
  · rw [if_pos hbad]
    simp
  · rw [if_neg hbad]
    cases parsed with
    | true => cases rx.request.expectContinue <;> cases rx.continueSent <;> simp [hv]
    | false => cases chunk.valid <;> simp [hv]

theorem content_outcome (rx : RequestReceiver) (parsed : Bool) (cs : Bytes)
    (hv : rx.request.valid = true) :
    ((rx.receiveContent parsed cs).1 = .expectContinue →
      parsed = true ∧ (rx.receiveContent parsed cs).2.request = rx.request) ∧
    ((rx.receiveContent parsed cs).1 = .invalid ∨
      (rx.receiveContent parsed cs).1 = .lengthRequired ∨
      (rx.receiveContent parsed cs).2.request.valid = true) := by
  unfold receiveContent receiveContentWith
  split
  · obtain ⟨he,hvalid⟩ := chunk_outcome rx parsed cs hv
    exact ⟨he,hvalid.imp_right Or.inr⟩
  · obtain ⟨he,hvalid⟩ := body_outcome rx cs hv
    exact ⟨fun h => absurd h he,hvalid⟩

def hearing (r : RxRequest) : RequestReceiver := { cleared with request := r }

theorem content_expects (r : RxRequest) (hv : r.valid = true) (cs : Bytes) :
    ((hearing r).receiveContent true cs).1 = .expectContinue ↔
      r.shown.isChunked = true ∧ r.expectContinue = true ∧ ¬ Refuses cs := by
  have hrequest : (hearing r).request = r := rfl
  have hnext : (hearing r).chunk.next = .cleared := rfl
  unfold receiveContent receiveContentWith
  rw [hrequest]
  by_cases hc : r.shown.isChunked = true
  · rw [if_pos hc]
    unfold receiveChunkWith Refuses
    rw [hnext]
    dsimp only
    by_cases hbad : (RxChunk.cleared.parse cs).1 = false ∧ (RxChunk.cleared.parse cs).2.2 ≠ []
    · rw [if_pos hbad]
      exact ⟨fun h => RxState.noConfusion h,fun h => absurd hbad h.2.2⟩
    · rw [if_neg hbad]
      cases he : r.expectContinue <;> simp [hearing, cleared, hc, hbad, he]
  · rw [if_neg hc]
    exact ⟨fun h => absurd h (body_outcome _ cs hv).1,fun h => absurd h.1 hc⟩

section Heads
variable {r : RxRequest} (hr : r.valid = false) {p : Bytes}
include hr

theorem receive_done (hp : (r.parse p).1 = true) : (hearing r).receive p =
    (hearing (r.parse p).2.1).receiveContent true (r.parse p).2.2 := by
  simp [receive, receiveContent, receiveWith, hearing, hr, hp]

theorem receive_failed (hp : (r.parse p).1 = false)
    (hf : (r.parse p).2.2 ≠ [] ∨ (r.parse p).2.1.line.fail = true) :
    (hearing r).receive p = (.invalid,.cleared) := by
  simp [receive, receiveWith, hearing, hr, hp, hf]

theorem receive_waiting (hp : (r.parse p).1 = false)
    (hf : ¬ ((r.parse p).2.2 ≠ [] ∨ (r.parse p).2.1.line.fail = true)) :
    (hearing r).receive p = (.incomplete,hearing (r.parse p).2.1) := by
  simp [receive, receiveWith, hearing, hr, hp, hf]

end Heads

end RequestReceiver

end RethinkLog.Via
