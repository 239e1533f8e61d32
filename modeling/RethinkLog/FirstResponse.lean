import RethinkLog.Incremental
import RethinkLog.ViaConnection
import RethinkLog.WebAdmin

/-!
# What the admin service answers to received packets

The connections of the admin service, with the responses that are sent. A
response that is not 100 Continue clears the receiver. Once a request is held no
packet brings it before the guard, so the first response is 413 exactly when the
packets complete a request that the guard sees.
-/

set_option autoImplicit false

namespace RethinkLog.Via
open Http Incremental

inductive Response where
  | refused (code : ℕ)
  | served (p : Packet)
  deriving DecidableEq, Repr

def Response.code : Response → ℕ
  | .refused code => code
  | .served p => p.status.code

namespace Connection

def shown (c : Connection) : Http.Connection :=
  ⟨⟨c.rx.request.shown,c.rx.body,c.rx.continueSent,c.rx.isHead⟩,[],c.isOpen⟩

def refuse (c : Connection) (code : ℕ) : List Response × Connection :=
  ([.refused code], ⟨.cleared,c.isOpen && c.rx.request.shown.keepAlive⟩)

def served (c : Connection) (s : Http.Connection) : List Response × Connection :=
  (s.sent.map .served, {
    rx := if s.sent.any Packet.isFinal then .cleared
      else { c.rx with continueSent := s.rx.continueSent }
    isOpen := s.isOpen })

variable (files : Bytes → Bytes)

def admin : Service Response where
  refuse := fun c code _ => c.refuse code
  request := fun c =>
    if c.rx.request.shown.isChunked then ([], c)
    else c.served (WebAdmin.respondToRequest files c.shown)
  expectContinue := fun c => c.served (WebAdmin.handle files c.shown .expect)
  chunk := fun c =>
    if c.rx.chunk.header.isLast then c.served (WebAdmin.respondToRequest files c.shown)
    else ([], c)

def receivePacket (c : Connection) (cs : Bytes) : List Response × Connection :=
  (admin files).receivePacket c cs

def responses (c : Connection) (packets : List Bytes) : List Response :=
  (admin files).replies c packets

def first (packets : List Bytes) : Option ℕ :=
  (responses files ready packets).head?.map Response.code

def heard (r : RxRequest) (packets : List Bytes) : Option (RxRequest × Bytes) :=
  (feed RxRequest.parse (fun r => r.line.fail) r packets).map (fun x => (x.1,x.2.1))

def Guarded (r : Http.RxRequest) (expects : Bool) : Prop :=
  r.isChunked = true ∧ expects = true ∧ WebAdmin.maxLength < r.contentLength

instance (r : Http.RxRequest) (expects : Bool) : Decidable (Guarded r expects) :=
  inferInstanceAs (Decidable (_ ∧ _ ∧ _))

/-- A response that is not 413 comes first, or none comes and the receiver
holds a request that has passed the guard. -/
def Passed (e : List Response × Connection) : Prop :=
  (∃ x, e.1.head? = some x ∧ x.code ≠ 413) ∨ (e.1 = [] ∧ e.2.rx.request.valid = true)

theorem heard_done {r : RxRequest} {p : Bytes} (h : (r.parse p).1 = true) (ps : List Bytes) :
    heard r (p::ps) = some ((r.parse p).2.1,(r.parse p).2.2) := by
  rw [heard, feed_done h]
  rfl

theorem heard_stop {r : RxRequest} {p : Bytes} (h : (r.parse p).1 = false)
    (hr : (r.parse p).2.2 ≠ [] ∨ (r.parse p).2.1.line.fail = true) (ps : List Bytes) :
    heard r (p::ps) = none := by
  rw [heard, feed_stop h hr]
  rfl

theorem heard_more {r : RxRequest} {p : Bytes} (h : (r.parse p).1 = false)
    (hr : ¬ ((r.parse p).2.2 ≠ [] ∨ (r.parse p).2.1.line.fail = true)) (ps : List Bytes) :
    heard r (p::ps) = heard (r.parse p).2.1 ps := by
  rw [heard, feed_more h hr]
  rfl

theorem responded (v : Http.Connection) :
    ∃ l, (WebAdmin.respondToRequest files v).sent = v.sent++l ∧
      ∀ p ∈ l, p.status ≠ .requestEntityTooLarge := by
  unfold WebAdmin.respondToRequest
  dsimp only
  split
  · exact ⟨_,rfl,by simp⟩
  · split
    · exact ⟨_,rfl,by simp⟩
    · have hnone : ∃ l, v.sent = v.sent++l ∧
          ∀ p ∈ l, p.status ≠ .requestEntityTooLarge := ⟨[],by simp,by simp⟩
      split <;> split
      · exact ⟨_,rfl,by simp⟩
      · exact hnone
      · exact ⟨_,rfl,by simp⟩
      · exact hnone

theorem served_passed (c : Connection) (h : c.rx.request.valid = true) :
    Passed (c.served (WebAdmin.respondToRequest files c.shown)) := by
  obtain ⟨l,hl,hs⟩ := responded files c.shown
  rw [show c.shown.sent = [] from rfl, List.nil_append] at hl
  cases l with
  | nil => exact Or.inr (by simp [served, hl, h])
  | cons p l =>
    refine Or.inl ⟨.served p,by simp [served, hl],?_⟩
    have hp := hs p (by simp)
    cases hst : p.status <;> simp_all [Response.code, Status.code]

theorem handled_passed (c : Connection) (cs : Bytes)
    (he : (c.rx.receive cs).1 ≠ .expectContinue)
    (hv : (c.rx.receive cs).1 ≠ .invalid → (c.rx.receive cs).1 ≠ .lengthRequired →
      (c.rx.receive cs).2.request.valid = true) :
    Passed ((admin files).receiveHandler c cs) := by
  have hheld (h : (c.rx.receive cs).1 ∈ [.valid,.chunk,.incomplete,.thrown]) :
      (c.rx.receive cs).2.request.valid = true := by
    apply hv <;> intro hs <;> simp [hs] at h
  rcases (admin files).receiveHandler_cases c cs with ⟨r,hr,hc⟩ | ⟨hs,hc⟩ | ⟨hs,hc⟩ | ⟨hs,hc⟩ |
    ⟨hs,hc⟩
  · rw [hc]
    have hcode : ∀ r ∈ Service.declined, r.1 ≠ 413 := by decide
    exact Or.inl ⟨.refused r.1,rfl,hcode r hr⟩
  · have hvalid := hheld (by simp [hs])
    rw [hc]
    dsimp only [admin]
    split
    · exact Or.inr ⟨rfl,hvalid⟩
    · exact served_passed files _ hvalid
  · exact absurd hs he
  · have hvalid := hheld (by simp [hs])
    rw [hc]
    dsimp only [admin]
    split
    · exact served_passed files _ hvalid
    · exact Or.inr ⟨rfl,hvalid⟩
  · rw [hc]
    refine Or.inr ⟨rfl,hheld ?_⟩
    rcases List.mem_pair.mp hs with hs | hs
    · simp [hs]
    · simp [hs]

theorem held_passed (c : Connection) (cs : Bytes) (hv : c.rx.request.valid = true) :
    Passed (c.receivePacket files cs) := by
  unfold receivePacket Service.receivePacket
  by_cases ho : c.isOpen = true
  · obtain ⟨he,hvalid⟩ := RequestReceiver.content_outcome c.rx false cs hv
    rw [← show c.rx.receive cs = c.rx.receiveContent false cs from if_pos hv] at he hvalid
    rw [if_pos ho]
    apply handled_passed
    · exact fun h => Bool.noConfusion (he h).1
    · exact fun hi hl => (hvalid.resolve_left hi).resolve_left hl
  · rw [if_neg ho]
    exact Or.inr ⟨rfl,hv⟩

theorem responses_cons (c : Connection) (p : Bytes) (ps : List Bytes) :
    responses files c (p::ps) =
      (c.receivePacket files p).1++responses files (c.receivePacket files p).2 ps := rfl

theorem passed_first (e : List Response × Connection) (he : Passed e) (ps : List Bytes) :
    (e.1++responses files e.2 ps).head?.map Response.code ≠ some 413 := by
  induction ps generalizing e with
  | nil =>
    rcases he with ⟨x,hx,hc⟩ | ⟨hn,-⟩
    · simpa [responses, Service.replies, Machine.answers, hx] using hc
    · simp [responses, Service.replies, Machine.answers, hn]
  | cons p ps ih =>
    rcases he with ⟨x,hx,hc⟩ | ⟨hn,hv⟩
    · simpa [List.head?_append, hx] using hc
    · rw [hn, List.nil_append, responses_cons]
      exact ih _ (held_passed files e.2 p hv)

theorem expect_first (c : Connection) (cs : Bytes) (l : List Response)
    (he : (c.rx.receive cs).1 = .expectContinue) :
    (((admin files).receiveHandler c cs).1++l).head?.map Response.code = some 413 ↔
      WebAdmin.maxLength < (c.rx.receive cs).2.request.shown.contentLength := by
  unfold Service.receiveHandler Service.receive
  generalize c.rx.receive cs = p at he ⊢
  obtain ⟨s,rx⟩ := p
  obtain rfl : s = .expectContinue := he
  simp only [admin, served, WebAdmin.handle, Http.Connection.send, shown, List.nil_append,
    List.map_cons, List.map_nil, List.cons_append, List.head?_cons, Option.map_some,
    Option.some.injEq, Response.code]
  by_cases hl : WebAdmin.maxLength < rx.request.shown.contentLength <;> simp [Status.code, hl]

def hearing (r : RxRequest) : Connection := ⟨.hearing r,true⟩

theorem hearing_packet (r : RxRequest) (p : Bytes) :
    (hearing r).receivePacket files p = (admin files).receiveHandler (hearing r) p := rfl

/-- The packet that completes a request is answered with 413 exactly when the
guard sees the request. -/
theorem done_first {r : RxRequest} (hr : r.valid = false) {p : Bytes}
    (hp : (r.parse p).1 = true) (ps : List Bytes) :
    (responses files (hearing r) (p::ps)).head?.map Response.code = some 413 ↔
      Guarded (r.parse p).2.1.shown (r.parse p).2.1.expectContinue ∧
        ¬ Refuses (r.parse p).2.2 := by
  have hv : (r.parse p).2.1.valid = true := by rw [r.parse_valid, hp, Bool.or_true]
  have hexp := RequestReceiver.content_expects _ hv (r.parse p).2.2
  have hout := RequestReceiver.content_outcome (.hearing (r.parse p).2.1) true (r.parse p).2.2 hv
  rw [← RequestReceiver.receive_done hr hp] at hexp hout
  rw [responses_cons, hearing_packet]
  unfold Guarded
  by_cases he : ((hearing r).rx.receive p).1 = .expectContinue
  · obtain ⟨hchunked,hexpects,hrest⟩ := hexp.mp he
    rw [expect_first files (hearing r) p _ he, show (hearing r).rx = .hearing r from rfl,
      (hout.1 he).2]
    exact ⟨fun hl => ⟨⟨hchunked,hexpects,hl⟩,hrest⟩,fun h => h.1.2.2⟩
  · have hpassed := handled_passed files (hearing r) p he
      (fun hi hl => (hout.2.resolve_left hi).resolve_left hl)
    constructor
    · exact fun h => absurd h (passed_first files _ hpassed ps)
    · rintro ⟨⟨hchunked,hexpects,-⟩,hrest⟩
      exact absurd (hexp.mpr ⟨hchunked,hexpects,hrest⟩) he

theorem first_guarded (r : RxRequest) (hr : r.valid = false) (packets : List Bytes) :
    (responses files (hearing r) packets).head?.map Response.code = some 413 ↔
      ∃ q rest, heard r packets = some (q,rest) ∧ Guarded q.shown q.expectContinue ∧
        ¬ Refuses rest := by
  induction packets generalizing r with
  | nil => simp [responses, Service.replies, Machine.answers, heard, feed]
  | cons p ps ih =>
    cases hp : (r.parse p).1 with
    | true =>
      rw [done_first files hr hp, heard_done hp]
      constructor
      · exact fun h => ⟨_,_,rfl,h⟩
      · rintro ⟨q,rest,hq,h⟩
        obtain ⟨rfl,rfl⟩ := Prod.mk.inj (Option.some.inj hq)
        exact h
    | false =>
      by_cases hf : (r.parse p).2.2 ≠ [] ∨ (r.parse p).2.1.line.fail = true
      · have hreceive : (hearing r).rx.receive p = (.invalid,.cleared) :=
          RequestReceiver.receive_failed hr hp hf
        simp only [heard_stop hp hf, reduceCtorEq, false_and, exists_false, iff_false]
        exact passed_first files _
          (handled_passed files (hearing r) p (by simp [hreceive]) (by simp [hreceive])) ps
      · have hsilent : (hearing r).receivePacket files p = ([],hearing (r.parse p).2.1) :=
          Service.packet_waits (RequestReceiver.receive_waiting hr hp hf)
        rw [heard_more hp hf, responses_cons, hsilent, List.nil_append]
        exact ih _ (by rw [r.parse_valid, hr, hp, Bool.or_false])

end Connection

end RethinkLog.Via
