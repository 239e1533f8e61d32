import RethinkLog.Machine
import RethinkLog.ViaReceiver
import Mathlib.Data.List.Forall2

/-!
# The connections of an HTTP server

A connection refuses what is invalid by itself; everything else is passed to
one of the three handlers of the server. What a server sends and how it leaves
the connection is the server's business. Two servers that do the same on every
call do the same for all packets.
-/

set_option autoImplicit false

namespace RethinkLog.Via
open Machine

structure Connection where
  rx : RequestReceiver
  isOpen : Bool
  deriving DecidableEq, Repr

def Connection.ready : Connection := ⟨.cleared,true⟩

/-- A server: how it sends the response of a connection itself, with a code and
a body, and its handlers. -/
structure Service (α : Type) where
  refuse : Connection → ℕ → Bytes → List α × Connection
  request : Connection → List α × Connection
  expectContinue : Connection → List α × Connection
  chunk : Connection → List α × Connection

namespace Service
variable {α β : Type} (v : Service α) (w : Service β)

/-- `http_connection::receive` with the state that is left to the server. -/
def receive (c : Connection) (cs : Bytes) : RxState × List α × Connection :=
  let p := c.rx.receive cs
  let c := { c with rx := p.2 }
  match p.1 with
  | .invalid => (.invalid, v.refuse c 400 [])
  | .lengthRequired => (.invalid, v.refuse c 411 [])
  | .valid =>
    if c.rx.request.isTrace then (.invalid, v.refuse c 405 [])
    else if c.rx.request.missingHostHeader then
      (.invalid, v.refuse c 400 (ascii "Request lacks Host Header"))
    else (.valid, [], c)
  | s => (s, [], c)

/-- `http_server::receive_handler` -/
def receiveHandler (c : Connection) (cs : Bytes) : List α × Connection :=
  let p := v.receive c cs
  match p.1 with
  | .valid => v.request p.2.2
  | .expectContinue => v.expectContinue p.2.2
  | .chunk => v.chunk p.2.2
  | _ => p.2

def receivePacket (c : Connection) (cs : Bytes) : List α × Connection :=
  if c.isOpen then v.receiveHandler c cs else ([], c)

def replies (c : Connection) (packets : List Bytes) : List α :=
  (answers v.receivePacket c packets).flatten

theorem replies_cons (c : Connection) (cs : Bytes) (packets : List Bytes) :
    v.replies c (cs::packets) =
      (v.receivePacket c cs).1 ++ v.replies (v.receivePacket c cs).2 packets := rfl

theorem replies_concat (c : Connection) (packets : List Bytes) (cs : Bytes) :
    v.replies c (packets++[cs]) =
      v.replies c packets ++ (v.receivePacket (final v.receivePacket c packets) cs).1 := by
  rw [replies, replies, answers, answers, history_concat]
  simp

def declined : List (ℕ × Bytes) :=
  [(400,[]),(411,[]),(405,[]),(400,ascii "Request lacks Host Header")]

theorem receiveHandler_cases (c : Connection) (cs : Bytes) :
    let d : Connection := { c with rx := (c.rx.receive cs).2 }
    (∃ r ∈ declined, v.receiveHandler c cs = v.refuse d r.1 r.2) ∨
      ((c.rx.receive cs).1 = .valid ∧ v.receiveHandler c cs = v.request d) ∨
      ((c.rx.receive cs).1 = .expectContinue ∧ v.receiveHandler c cs = v.expectContinue d) ∨
      ((c.rx.receive cs).1 = .chunk ∧ v.receiveHandler c cs = v.chunk d) ∨
      ((c.rx.receive cs).1 ∈ [.incomplete,.thrown] ∧ v.receiveHandler c cs = ([],d)) := by
  unfold receiveHandler receive
  generalize c.rx.receive cs = p
  obtain ⟨s,rx⟩ := p
  cases s with
  | invalid => exact .inl ⟨(400,[]),by decide,rfl⟩
  | lengthRequired => exact .inl ⟨(411,[]),by decide,rfl⟩
  | expectContinue => exact .inr (.inr (.inl ⟨rfl,rfl⟩))
  | chunk => exact .inr (.inr (.inr (.inl ⟨rfl,rfl⟩)))
  | incomplete => exact .inr (.inr (.inr (.inr ⟨by simp,rfl⟩)))
  | thrown => exact .inr (.inr (.inr (.inr ⟨by simp,rfl⟩)))
  | valid =>
    dsimp only
    cases ht : rx.request.isTrace with
    | true => exact .inl ⟨(405,[]),by decide,rfl⟩
    | false =>
      cases hh : rx.request.missingHostHeader with
      | true => exact .inl ⟨(400,ascii "Request lacks Host Header"),by decide,rfl⟩
      | false => exact .inr (.inl ⟨rfl,rfl⟩)

section Brought
variable {v} {rx next : RequestReceiver} {cs : Bytes}

theorem packet_waits (h : rx.receive cs = (.incomplete,next)) :
    v.receivePacket ⟨rx,true⟩ cs = ([],⟨next,true⟩) := by
  simp only [receivePacket, receiveHandler, receive, h, if_true]

theorem packet_brings (h : rx.receive cs = (.valid,next)) (ht : next.request.isTrace = false)
    (hh : next.request.missingHostHeader = false) :
    v.receivePacket ⟨rx,true⟩ cs = v.request ⟨next,true⟩ := by
  simp only [receivePacket, receiveHandler, receive, h, ht, hh, if_true, Bool.false_eq_true,
    if_false]

end Brought

def Same (sent : α → β → Prop) (e : List α × Connection) (b : List β × Connection) : Prop :=
  List.Forall₂ sent e.1 b.1 ∧ b.2 = e.2

structure Agree (sent : α → β → Prop) : Prop where
  refuse : ∀ c, ∀ r ∈ declined, Same sent (v.refuse c r.1 r.2) (w.refuse c r.1 r.2)
  request : ∀ c, Same sent (v.request c) (w.request c)
  expectContinue : ∀ c, Same sent (v.expectContinue c) (w.expectContinue c)
  chunk : ∀ c, Same sent (v.chunk c) (w.chunk c)

variable {v w} {sent : α → β → Prop} (h : Agree v w sent)
include h

theorem Agree.handled (c : Connection) (cs : Bytes) :
    Same sent (v.receiveHandler c cs) (w.receiveHandler c cs) := by
  unfold receiveHandler receive
  generalize c.rx.receive cs = p
  obtain ⟨s,rx⟩ := p
  cases s with
  | invalid => exact h.refuse _ (400,[]) (by decide)
  | lengthRequired => exact h.refuse _ (411,[]) (by decide)
  | expectContinue => exact h.expectContinue _
  | chunk => exact h.chunk _
  | incomplete => exact ⟨.nil,rfl⟩
  | thrown => exact ⟨.nil,rfl⟩
  | valid =>
    dsimp only
    cases ht : rx.request.isTrace with
    | true => exact h.refuse _ (405,[]) (by decide)
    | false =>
      cases hh : rx.request.missingHostHeader with
      | true => exact h.refuse _ (400,ascii "Request lacks Host Header") (by decide)
      | false => exact h.request _

theorem Agree.received (c : Connection) (cs : Bytes) :
    Same sent (v.receivePacket c cs) (w.receivePacket c cs) := by
  unfold receivePacket
  split
  · exact h.handled c cs
  · exact ⟨.nil,rfl⟩

/-- On every run the two send the same, and leave the connection the same. -/
theorem Agree.run (c : Connection) (packets : List Bytes) :
    List.Forall₂ sent (v.replies c packets) (w.replies c packets) ∧
      final w.receivePacket c packets = final v.receivePacket c packets := by
  induction packets generalizing c with
  | nil => exact ⟨.nil,rfl⟩
  | cons cs packets ih =>
    obtain ⟨hsent,hnext⟩ := h.received c cs
    rw [replies_cons, replies_cons, final, final, hnext]
    obtain ⟨hrest,hfinal⟩ := ih (v.receivePacket c cs).2
    exact ⟨List.rel_append hsent hrest,hfinal⟩

end Service

end RethinkLog.Via
