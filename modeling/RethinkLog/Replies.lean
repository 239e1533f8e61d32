import RethinkLog.Conversation

/-!
# What a connection sends

Whatever a connection receives, it sends responses: those of the application,
and four of its own. When the application gives nothing that cannot be read,
and no more than one response at a time, a client can read every packet that
comes back, unless a number of the version that it is asked in is negative.
-/

set_option autoImplicit false

namespace RethinkLog.Via
open Incremental Machine

structure Sendable (a : TxResponse × Bytes) : Prop where
  wellFormed : a.1.WellFormed
  unsized : ∃ fields, Unsized a.1.headerString fields
  short : a.2.length < 2^31

/-- A receiver reads the packet as a response with this status, complete but for
its body at most. -/
def Readable (code : Int32) (packet : Bytes) : Prop :=
  ∃ (r : TxResponse) (fields : List Field) (body missing : Bytes), r.status = code ∧
    (missing = [] ∨ missing = body) ∧
    ResponseReceiver.Delivered r (sentFields fields body.length) body [packet ++ missing]

def RequestReceiver.Versioned (rx : RequestReceiver) : Prop :=
  0 ≤ rx.request.line.majorVersion ∧ 0 ≤ rx.request.line.minorVersion

theorem Sendable.versioned {a : TxResponse × Bytes} (h : Sendable a) {rx : RequestReceiver}
    (hv : rx.Versioned) : (rx.versioned a.1).WellFormed :=
  ⟨hv.1,hv.2,h.wellFormed.status,h.wellFormed.line,h.wellFormed.blank⟩

theorem Sendable.readable {a : TxResponse × Bytes} (h : Sendable a) {rx : RequestReceiver}
    (hv : rx.Versioned) : Readable a.1.status (rx.respond a.1 a.2) := by
  obtain ⟨fields,hu⟩ := h.unsized
  have hwell := h.versioned hv
  have hsame : Unsized (rx.versioned a.1).headerString fields := hu
  have hshort := h.short
  let missing := if rx.isHead then a.2 else []
  have hwhole : rx.respond a.1 a.2 ++ missing =
      (rx.versioned a.1).message a.2.length ++ a.2 := by
    rw [RequestReceiver.respond]
    cases hhead : rx.isHead with
    | true => simp [missing, hhead]
    | false => simp [missing, hhead]
  refine ⟨rx.versioned a.1,fields,a.2,missing,rfl,?_,?_⟩
  · cases hhead : rx.isHead with
    | true => exact .inr (if_pos hhead)
    | false => exact .inl (if_neg (by simp [hhead]))
  · rw [hwhole]
    refine ResponseReceiver.delivered_whole hwell hsame (by omega)
      (List.forall_mem_singleton.mpr ?_) List.flatten_singleton
      (TxResponse.message_uncut hsame a.2.length a.2) (bmod_length hshort)
    simp [TxResponse.message, TxResponse.lineText]

/-- The status that is read is the one that was sent. -/
theorem Sendable.read_status {a : TxResponse × Bytes} (h : Sendable a) {rx : RequestReceiver}
    (hv : rx.Versioned) {code : Int32} (hr : Readable code (rx.respond a.1 a.2)) :
    code = a.1.status := by
  obtain ⟨fields,hu⟩ := h.unsized
  obtain ⟨r,-,-,missing,rfl,-,quiet,y,hout,hall,⟨-,-,hstatus,-⟩,-⟩ := hr
  have htext : [rx.respond a.1 a.2 ++ missing].flatten =
      (rx.versioned a.1).message a.2.length ++ ((if rx.isHead then [] else a.2) ++ missing) := by
    rw [List.flatten_singleton, RequestReceiver.respond, List.append_assoc]
  have hfull : rx.respond a.1 a.2 ++ missing ≠ [] :=
    List.append_ne_nil_of_left_ne_nil (rx.respond_ne_nil a.1 a.2) missing
  have hsame : Unsized (rx.versioned a.1).headerString fields := hu
  obtain ⟨g,rest,ps,hfed,hpre,-⟩ := ResponseReceiver.response_fed (h.versioned hv) hsame
    a.2.length (List.forall_mem_singleton.mpr hfull) htext
  obtain ⟨b,rfl,-⟩ := ResponseReceiver.receive_carrier.returned ResponseReceiver.receive_headed
    (hu.not_chunked hpre) rfl hfed hout hall
  exact hstatus.symm

theorem readable_versioned {rx : RequestReceiver} {r : TxResponse} {body : Bytes} {code : Int32}
    (h : Readable code (rx.respond r body)) : rx.Versioned := by
  obtain ⟨-,-,-,missing,-,-,quiet,y,hout,-⟩ := h
  by_contra hv
  have htext : rx.respond r body ++ missing =
      httpVersion rx.request.line.majorVersion rx.request.line.minorVersion ++
        (32::Decimal.integer r.status.toInt ++ 32::r.reasonPhrase ++ crlf ++
          headerText r.headerString body.length ++ (if rx.isHead then [] else body) ++
            missing) := by
    simp [RequestReceiver.respond, RequestReceiver.versioned, TxResponse.message,
      TxResponse.lineText]
  rw [outputs_cons, htext, ResponseReceiver.version_refused hv] at hout
  have hlast := congrArg List.getLast? hout
  rw [List.getLast?_concat] at hlast
  simp [outputs, answers] at hlast

namespace Application
variable (app : Application)

def Gives (a : TxResponse × Bytes) : Prop :=
  ∃ rx, a ∈ (app.request rx).toList ∨ a ∈ app.expectContinue rx ∨ a ∈ app.chunk rx

def Single : Prop := ∀ rx, (app.expectContinue rx).length ≤ 1 ∧ (app.chunk rx).length ≤ 1

end Application

namespace Connection

def declined : List (TxResponse × Bytes) := Service.declined.map fun r => (.standard r.1,r.2)

theorem reply_sent {c : Connection} {rs : List (TxResponse × Bytes)} (hs : rs.length ≤ 1)
    {p : Bytes} (hp : p ∈ (c.reply rs).1) : ∃ a ∈ rs, p = c.rx.respond a.1 a.2 := by
  match rs with
  | [] => simp [reply] at hp
  | [r] => exact ⟨r,by simp,List.mem_singleton.mp hp⟩
  | _::_::_ => simp at hs

variable {app : Application} (hsingle : app.Single)
include hsingle

/-- Every packet that is sent is a response of the application or of the
connection to the request that is held then. -/
theorem handlePacket_sent {c : Connection} {cs p : Bytes} (hp : p ∈ (c.handlePacket app cs).1) :
    ∃ a, (a ∈ declined ∨ app.Gives a) ∧ p = (c.rx.receive cs).2.respond a.1 a.2 := by
  unfold handlePacket Service.receivePacket at hp
  split at hp
  · rcases app.service.receiveHandler_cases c cs with ⟨r,hr,hc⟩ | ⟨-,hc⟩ | ⟨-,hc⟩ | ⟨-,hc⟩ | ⟨-,hc⟩
    · rw [hc] at hp
      obtain ⟨a,ha,hsent⟩ := reply_sent (by simp) hp
      rw [List.mem_singleton.mp ha] at hsent
      exact ⟨_,.inl (List.mem_map_of_mem hr),hsent⟩
    · rw [hc] at hp
      obtain ⟨a,ha,hsent⟩ := reply_sent Option.length_toList_le hp
      exact ⟨a,.inr ⟨_,.inl ha⟩,hsent⟩
    · rw [hc] at hp
      obtain ⟨a,ha,hsent⟩ := reply_sent (hsingle _).1 hp
      exact ⟨a,.inr ⟨_,.inr (.inl ha)⟩,hsent⟩
    · rw [hc] at hp
      obtain ⟨a,ha,hsent⟩ := reply_sent (hsingle _).2 hp
      exact ⟨a,.inr ⟨_,.inr (.inr ha)⟩,hsent⟩
    · rw [hc] at hp
      exact absurd hp (by simp)
  · exact absurd hp (by simp)

def reading (app : Application) (c : Connection) (before : List Bytes) (cs : Bytes) :
    RequestReceiver := ((final (handlePacket app) c before).rx.receive cs).2

theorem replies_sent {c : Connection} {packets : List Bytes} {p : Bytes}
    (hp : p ∈ c.replies app packets) :
    ∃ before cs after a, packets = before ++ cs::after ∧
      p ∈ ((final (handlePacket app) c before).handlePacket app cs).1 ∧
      (a ∈ declined ∨ app.Gives a) ∧ p = (reading app c before cs).respond a.1 a.2 := by
  induction packets generalizing c with
  | nil => exact absurd hp (by simp [replies, Service.replies, answers])
  | cons cs packets ih =>
    rw [replies_cons] at hp
    rcases List.mem_append.mp hp with hfirst | hrest
    · obtain ⟨a,ha,hsent⟩ := handlePacket_sent hsingle hfirst
      exact ⟨[],cs,packets,a,rfl,hfirst,ha,hsent⟩
    · obtain ⟨before,ds,after,a,rfl,hstep,ha,hsent⟩ := ih hrest
      exact ⟨cs::before,ds,after,a,rfl,hstep,ha,hsent⟩

end Connection

end RethinkLog.Via
