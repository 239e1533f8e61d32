import RethinkLog.Exchange

/-!
# A client and a server in conversation

A connection that is kept alive carries one request after the other. Each is
read by the server, given to the application and answered, and the answer is
read by the client before it sends again. Neither side keeps anything of an
exchange: the client clears its receiver when it sends, and the server when it
answers. So the conversation is as long as its exchanges are, until a request
is left unanswered. The server keeps that one, and every later packet brings
it again.
-/

set_option autoImplicit false

namespace RethinkLog.Via
open Incremental Machine

/-- What an application sends for what a connection brings. It may leave a
request unanswered. -/
structure Application where
  request : RequestReceiver → Option (TxResponse × Bytes)
  expectContinue : RequestReceiver → List (TxResponse × Bytes)
  chunk : RequestReceiver → List (TxResponse × Bytes)

namespace Connection

/-- `http_connection::send` with the packet that it sends. -/
def send (c : Connection) (r : TxResponse) (body : Bytes) : Bytes × Connection :=
  (c.rx.respond r body, {
    rx := if r.status = 100 then { c.rx with continueSent := true } else .cleared
    isOpen := c.isOpen && c.rx.request.shown.keepAlive })

def reply (c : Connection) : List (TxResponse × Bytes) → List Bytes × Connection
  | [] => ([], c)
  | r::rs => ((c.send r.1 r.2).1 :: ((c.send r.1 r.2).2.reply rs).1,
      ((c.send r.1 r.2).2.reply rs).2)

end Connection

def Application.service (app : Application) : Service Bytes where
  refuse := fun c code body => c.reply [(.standard code,body)]
  request := fun c => c.reply (app.request c.rx).toList
  expectContinue := fun c => c.reply (app.expectContinue c.rx)
  chunk := fun c => c.reply (app.chunk c.rx)

namespace Connection
variable (app : Application)

def handlePacket (c : Connection) (cs : Bytes) : List Bytes × Connection :=
  app.service.receivePacket c cs

def replies (c : Connection) (packets : List Bytes) : List Bytes :=
  app.service.replies c packets

variable {app}

theorem replies_cons (c : Connection) (cs : Bytes) (packets : List Bytes) :
    c.replies app (cs::packets) =
      (c.handlePacket app cs).1 ++ (c.handlePacket app cs).2.replies app packets := rfl

theorem handlePacket_waits {rx next : RequestReceiver} {cs : Bytes}
    (h : rx.receive cs = (.incomplete,next)) :
    handlePacket app ⟨rx,true⟩ cs = ([],⟨next,true⟩) := Service.packet_waits h

theorem handlePacket_brings {rx next : RequestReceiver} {cs : Bytes}
    (h : rx.receive cs = (.valid,next)) (ht : next.request.isTrace = false)
    (hh : next.request.missingHostHeader = false) :
    handlePacket app ⟨rx,true⟩ cs = reply ⟨next,true⟩ (app.request next).toList :=
  Service.packet_brings h ht hh

theorem replies_delivered {rx next : RequestReceiver} {packets : List Bytes}
    {quiet : List (RxState × RequestReceiver)}
    (h : outputs RequestReceiver.receive rx packets = quiet ++ [(.valid,next)])
    (hq : ∀ a ∈ quiet, a.1 = .incomplete) (ht : next.request.isTrace = false)
    (hh : next.request.missingHostHeader = false) :
    (replies app ⟨rx,true⟩ packets,final (handlePacket app) ⟨rx,true⟩ packets) =
      reply ⟨next,true⟩ (app.request next).toList := by
  induction packets generalizing rx quiet with
  | nil => simp [outputs, answers] at h
  | cons cs packets ih =>
    rw [outputs_cons] at h
    cases quiet with
    | nil =>
      obtain ⟨hfirst,hrest⟩ := List.cons_eq_cons.mp h
      obtain rfl : packets = [] := by
        cases packets with
        | nil => rfl
        | cons p ps => simp [outputs_cons] at hrest
      rw [replies_cons, final, handlePacket_brings hfirst ht hh]
      exact congrArg (·,_) (List.append_nil _)
    | cons a quiet =>
      obtain ⟨hfirst,hrest⟩ := List.cons_eq_cons.mp h
      have hwait : rx.receive cs = (.incomplete,(rx.receive cs).2) := by
        rw [Prod.ext_iff]
        exact ⟨by rw [hfirst]; exact hq a (by simp),rfl⟩
      have hnext := ih hrest (fun b hb => hq b (by simp [hb]))
      rw [replies_cons, final, handlePacket_waits hwait]
      exact hnext

structure Left (rx : RequestReceiver) : Prop where
  complete : rx.Complete
  notHead : rx.request.shown.isHead = false
  translated : rx.isHead = false
  notTrace : rx.request.isTrace = false
  host : rx.request.missingHostHeader = false

theorem Left.handlePacket {rx : RequestReceiver} (h : Left rx) (cs : Bytes) :
    handlePacket app ⟨rx,true⟩ cs = reply ⟨rx,true⟩ (app.request rx).toList := by
  have hsame : rx.request.translated = rx.request := by
    rw [RxRequest.translated, Http.RxRequest.translated, h.notHead, if_neg (by simp)]
    rfl
  have hreceive := (RequestReceiver.complete_receive h.complete cs).1
  rw [hsame, h.notHead, ← h.translated] at hreceive
  exact handlePacket_brings hreceive h.notTrace h.host

/-- A connection is mute to every packet as long as nobody answers the request
that it holds. -/
theorem Left.mute {rx : RequestReceiver} (h : Left rx) (hnone : app.request rx = none)
    (packets : List Bytes) :
    replies app ⟨rx,true⟩ packets = [] ∧
      final (Connection.handlePacket app) ⟨rx,true⟩ packets = ⟨rx,true⟩ := by
  induction packets with
  | nil => exact ⟨rfl,rfl⟩
  | cons cs packets ih =>
    have hstep : Connection.handlePacket app ⟨rx,true⟩ cs = ([],⟨rx,true⟩) := by
      rw [h.handlePacket, hnone]
      rfl
    rw [replies_cons, final, hstep]
    exact ih

end Connection

def fieldOf (fields : List Field) (name : Bytes) : Bytes :=
  ((fields.map Field.kept).lookup name).getD []

/-- A request with its body, the application as it is then, the answer that it
should give, and the packets that carry both. -/
structure Turn where
  request : TxRequest
  fields : List Field
  body : Bytes
  app : Application
  response : TxResponse
  replies : List Field
  answer : Bytes
  outward : List Bytes
  inward : List Bytes

namespace Turn

def written (t : Turn) : List Field := sentFields t.fields t.body.length

def answered (t : Turn) : List Field := sentFields t.replies t.answer.length

def versioned (t : Turn) : TxResponse :=
  { t.response with
    majorVersion := t.request.majorVersion
    minorVersion := t.request.minorVersion }

structure Brought (t : Turn) (rx : RequestReceiver) : Prop where
  method : rx.request.line.method = if t.request.isHead then ascii "GET" else t.request.method
  isHead : rx.isHead = t.request.isHead
  uri : rx.request.line.uri = t.request.uri
  major : rx.request.line.majorVersion = t.request.majorVersion
  minor : rx.request.line.minorVersion = t.request.minorVersion
  find : ∀ name, rx.request.headers.find name = fieldOf t.written name
  body : rx.body = t.body

theorem Brought.versioned {t : Turn} {rx : RequestReceiver} (h : t.Brought rx) :
    rx.versioned t.response = t.versioned := by
  rw [RequestReceiver.versioned, Turn.versioned, h.major, h.minor]

structure Answers (t : Turn) : Prop where
  gives : ∀ rx, t.Brought rx → t.app.request rx = some (t.response,t.answer)
  wellFormed : t.response.WellFormed
  unsized : Unsized t.response.headerString t.replies
  final : t.response.status ≠ 100
  short : t.answer.length < 2^31
  headless : t.request.isHead = true → t.answer = []

def Answered (t : Turn) (sigs : List ClientSignal) : Prop :=
  ∃ (rx : RequestReceiver) (x : RxResponse), t.Brought rx ∧
    Connection.ready.replies t.app t.outward = [rx.respond t.response t.answer] ∧
    sigs = [.response x t.answer] ∧
    (x.line.majorVersion = t.request.majorVersion ∧ x.line.minorVersion = t.request.minorVersion ∧
      x.line.status = t.response.status ∧ x.line.reasonPhrase = t.response.reasonPhrase) ∧
    ∀ name, x.headers.find name = fieldOf t.answered name

end Turn

namespace HttpClient

/-- A request that can be sent and read, which the server leaves to the
application and after which it keeps the connection. -/
structure Asks (c : HttpClient) (t : Turn) : Prop where
  line : (c.addHost t.request).WellFormed
  unsized : Unsized (c.addHost t.request).headerString t.fields
  short : t.body.length < 2^31
  allowed : t.request.method ≠ ascii "TRACE"
  host : fieldOf t.written (ascii "host") ≠ []
  major : 1 ≤ t.request.majorVersion
  minor : 1 ≤ t.request.minorVersion
  stays : Http.contains (ascii "close")
    (Http.toLower (fieldOf t.written (ascii "connection"))) = false

def turn (s : HttpClient × Connection) (t : Turn) :
    List ClientSignal × (HttpClient × Connection) :=
  let c := (s.1.sendMoved t.request t.body).2
  (c.signals t.inward,
    final receiveHandler c t.inward,final (Connection.handlePacket t.app) s.2 t.outward)

structure Carries (s : HttpClient × Connection) (t : Turn) : Prop where
  asked : t.outward.flatten = (s.1.sendMoved t.request t.body).1
  outward : ∀ p ∈ t.outward, p ≠ []
  outwardUncut : Uncut (s.1.addHost t.request).lineText.length t.written t.outward
  answered : t.inward.flatten = (s.2.replies t.app t.outward).flatten
  inward : ∀ p ∈ t.inward, p ≠ []
  inwardUncut : t.inward = [] ∨ Uncut t.versioned.lineText.length t.answered t.inward

def Carried : HttpClient × Connection → List Turn → Prop
  | _, [] => True
  | s, t::ts => Carries s t ∧ Carried (turn s t).2 ts

theorem final_hostName (c : HttpClient) (packets : List Bytes) :
    (final receiveHandler c packets).hostName = c.hostName := by
  induction packets generalizing c with
  | nil => rfl
  | cons p packets ih => exact (ih _).trans rfl

theorem Asks.congr {c d : HttpClient} {t : Turn} (h : c.Asks t) (hd : d.hostName = c.hostName) :
    d.Asks t := by
  have hsame : d.addHost t.request = c.addHost t.request := by rw [addHost, addHost, hd]
  exact { h with line := hsame ▸ h.line, unsized := hsame ▸ h.unsized }

theorem Asks.passed {c : HttpClient} {t : Turn} (ha : c.Asks t) {rx : RequestReceiver}
    (hb : t.Brought rx) : rx.request.isTrace = false ∧ rx.request.missingHostHeader = false ∧
      rx.request.shown.keepAlive = true := by
  have hshown (name : Bytes) : rx.request.shown.find name = fieldOf t.written name := hb.find name
  refine ⟨?_,?_,?_⟩
  · rw [RxRequest.isTrace, hb.method]
    split
    · decide
    · exact decide_eq_false ha.allowed
  · simp [RxRequest.missingHostHeader, hshown, ha.host]
  · have hclose : rx.request.shown.closeConnection = false := by
      rw [Http.RxRequest.closeConnection, hshown]
      exact ha.stays
    have hmajor : 1 ≤ rx.request.shown.majorVersion := ha.major.trans_eq hb.major.symm
    have hminor : 1 ≤ rx.request.shown.minorVersion := ha.minor.trans_eq hb.minor.symm
    simp [Http.RxRequest.keepAlive, hclose, hmajor, hminor]

theorem turn_brought {c : HttpClient} {t : Turn} (ha : c.Asks t)
    (hflat : t.outward.flatten = (c.sendMoved t.request t.body).1)
    (hfull : ∀ p ∈ t.outward, p ≠ [])
    (hcut : Uncut (c.addHost t.request).lineText.length t.written t.outward) :
    ∃ rx : RequestReceiver, t.Brought rx ∧ rx.Complete ∧
      (Connection.ready.replies t.app t.outward,
        final (Connection.handlePacket t.app) .ready t.outward) =
        Connection.reply ⟨rx,true⟩ (t.app.request rx).toList := by
  have hbound := ha.short
  have hlong : t.body.length < 2^63 := by omega
  obtain ⟨h,quiet,hout,hall,hkept⟩ := RequestReceiver.request_carried ha.line ha.unsized hlong
    hfull hflat hcut (bmod_length hbound)
  generalize hr : (⟨(c.addHost t.request).complete.closed,h,true⟩ : RxRequest) = r at hout
  have hrequest : (RequestReceiver.bearingAll r t.body).request.headers = h := by
    rw [← hr]
    rfl
  have hbrought : t.Brought (.bearingAll r t.body) := by
    subst hr
    refine ⟨RequestReceiver.translated_method _,rfl,rfl,rfl,rfl,fun name => ?_,rfl⟩
    rw [hrequest, MessageHeaders.find, hkept]
    rfl
  have hcomplete : (RequestReceiver.bearingAll r t.body).Complete := by
    refine ⟨by rw [← hr]; rfl,?_,?_,?_,?_⟩
    · rw [hrequest]
      exact ha.unsized.not_chunked ⟨[],(List.append_nil _).trans hkept⟩
    · rw [hrequest]
      exact (ha.unsized.contentLength_iff hkept hlong).mpr (bmod_length hbound)
    · exact lt_of_lt_of_le hbound (by decide)
    · rw [hrequest, ha.unsized.find_length hkept]
      exact toDecString_ne_nil _
  obtain ⟨htrace,hhost,-⟩ := ha.passed hbrought
  exact ⟨_,hbrought,hcomplete,Connection.replies_delivered hout hall htrace hhost⟩

theorem turn_replies {c : HttpClient} {t : Turn} (ha : c.Asks t) (hanswers : t.Answers)
    (hflat : t.outward.flatten = (c.sendMoved t.request t.body).1)
    (hfull : ∀ p ∈ t.outward, p ≠ [])
    (hcut : Uncut (c.addHost t.request).lineText.length t.written t.outward) :
    ∃ rx, t.Brought rx ∧
      Connection.ready.replies t.app t.outward = [rx.respond t.response t.answer] ∧
      final (Connection.handlePacket t.app) .ready t.outward = .ready := by
  obtain ⟨rx,hbrought,-,hleft⟩ := turn_brought ha hflat hfull hcut
  obtain ⟨-,-,hstays⟩ := ha.passed hbrought
  rw [hanswers.gives rx hbrought, Option.toList_some, Connection.reply, Connection.reply,
    Connection.send, if_neg hanswers.final, Bool.true_and, hstays] at hleft
  obtain ⟨hreplies,hfinal⟩ := Prod.mk.inj hleft
  exact ⟨rx,hbrought,hreplies,hfinal⟩

theorem turn_answered {s : HttpClient × Connection} {t : Turn} (hs : s.2 = .ready)
    (ha : s.1.Asks t) (hanswers : t.Answers) (hc : Carries s t) :
    t.Answered (turn s t).1 ∧ (turn s t).2.2 = .ready := by
  obtain ⟨c,v⟩ := s
  obtain rfl : v = .ready := hs
  obtain ⟨rx,hbrought,hreplies,hfinal⟩ :=
    turn_replies ha hanswers hc.asked hc.outward hc.outwardUncut
  have hin := hc.answered
  rw [show Connection.replies t.app (c,Connection.ready).2 t.outward = _ from hreplies,
    List.flatten_singleton, RequestReceiver.respond, hbrought.versioned] at hin
  have htext : t.inward.flatten = t.versioned.message t.answer.length ++ t.answer := by
    rw [hin, hbrought.isHead]
    cases hhead : t.request.isHead with
    | true => rw [hanswers.headless hhead, if_pos rfl]
    | false => rw [if_neg (by simp)]
  have hwell : t.versioned.WellFormed := ⟨ha.line.major,ha.line.minor,
    hanswers.wellFormed.status,hanswers.wellFormed.line,hanswers.wellFormed.blank⟩
  have hunsized : Unsized t.versioned.headerString t.replies := hanswers.unsized
  have hcut : Uncut t.versioned.lineText.length t.answered t.inward := by
    refine hc.inwardUncut.resolve_left fun hnone => ?_
    rw [hnone] at htext
    simp [TxResponse.message, TxResponse.lineText] at htext
  have hshort := hanswers.short
  obtain ⟨x,hx,hline,hname⟩ := (c.sendMoved t.request t.body).2.signals_delivered rfl
    (ResponseReceiver.delivered_whole hwell hunsized (by omega) hc.inward htext hcut
      (bmod_length hshort))
  exact ⟨⟨rx,x,hbrought,hreplies,hx,hline,hname⟩,hfinal⟩

theorem turns_answered {s : HttpClient × Connection} {ts : List Turn} (hs : s.2 = .ready)
    (ha : ∀ t ∈ ts, s.1.Asks t) (hanswers : ∀ t ∈ ts, t.Answers) (hc : Carried s ts) :
    List.Forall₂ Turn.Answered ts (answers turn s ts) ∧ (final turn s ts).2 = .ready ∧
      (final turn s ts).1.hostName = s.1.hostName := by
  induction ts generalizing s with
  | nil => exact ⟨.nil,hs,rfl⟩
  | cons t ts ih =>
    obtain ⟨hfirst,hrest⟩ := hc
    obtain ⟨hanswered,hready⟩ := turn_answered hs (ha t (by simp)) (hanswers t (by simp)) hfirst
    have hname : (turn s t).2.1.hostName = s.1.hostName := final_hostName _ _
    obtain ⟨hall,hfinal,hsame⟩ := ih hready (fun u hu => (ha u (by simp [hu])).congr hname)
      (fun u hu => hanswers u (by simp [hu])) hrest
    rw [answers_cons, final]
    exact ⟨.cons hanswered hall,hfinal,hsame.trans hname⟩

/-- On a connection that is kept alive every request reaches the application as
it was sent, and every answer is signalled, one by one in their order, in
however many exchanges and in whatever packets. -/
theorem conversation (c : HttpClient) (ts : List Turn) (ha : ∀ t ∈ ts, c.Asks t)
    (hanswers : ∀ t ∈ ts, t.Answers) (hc : Carried (c,.ready) ts) :
    List.Forall₂ Turn.Answered ts (answers turn (c,.ready) ts) ∧
      (final turn (c,.ready) ts).2 = .ready := by
  obtain ⟨hall,hready,-⟩ := turns_answered rfl ha hanswers hc
  exact ⟨hall,hready⟩

theorem asked_whole {c : HttpClient} {t : Turn} (ha : c.Asks t)
    (hout : t.outward = [(c.sendMoved t.request t.body).1]) :
    t.outward.flatten = (c.sendMoved t.request t.body).1 ∧ (∀ p ∈ t.outward, p ≠ []) ∧
      Uncut (c.addHost t.request).lineText.length t.written t.outward := by
  rw [hout]
  refine ⟨List.flatten_singleton,List.forall_mem_singleton.mpr ?_,
    TxRequest.message_uncut ha.unsized t.body.length t.body⟩
  simp [sendMoved, send, TxRequest.message, TxRequest.lineText]

theorem carries_whole {s : HttpClient × Connection} {t : Turn} (hs : s.2 = .ready)
    (ha : s.1.Asks t) (hanswers : t.Answers)
    (hout : t.outward = [(s.1.sendMoved t.request t.body).1])
    (hin : t.inward = s.2.replies t.app t.outward) : Carries s t := by
  obtain ⟨hflat,hfull,hcut⟩ := asked_whole ha hout
  obtain ⟨rx,hbrought,hreplies,-⟩ := turn_replies ha hanswers hflat hfull hcut
  rw [hs, hreplies] at hin
  refine ⟨hflat,hfull,hcut,by rw [hs, hreplies, hin],?_,.inr ?_⟩
  · rw [hin]
    exact List.forall_mem_singleton.mpr (rx.respond_ne_nil _ _)
  · rw [hin, ← hbrought.versioned]
    exact rx.respond_uncut hanswers.unsized _

theorem carries_unanswered {s : HttpClient × Connection} {t : Turn} (ha : s.1.Asks t)
    (hout : t.outward = [(s.1.sendMoved t.request t.body).1]) (hin : t.inward = [])
    (hnone : s.2.replies t.app t.outward = []) : Carries s t := by
  obtain ⟨hflat,hfull,hcut⟩ := asked_whole ha hout
  exact ⟨hflat,hfull,hcut,by rw [hin, hnone],by simp [hin],.inl hin⟩

theorem conversation_two :
    let c : HttpClient := ⟨.cleared,ascii "h"⟩
    let q : TxRequest := ⟨ascii "PUT",ascii "/",1,1,[]⟩
    let app : Application :=
      ⟨fun _ => some (⟨1,1,200,ascii "OK",[]⟩,ascii "cd"),fun _ => [],fun _ => []⟩
    let outward := [(c.sendMoved q (ascii "ab")).1]
    let t : Turn := ⟨q,[⟨HeaderId.host.standardName,32::ascii "h"⟩],ascii "ab",app,
      ⟨1,1,200,ascii "OK",[]⟩,[],ascii "cd",outward,Connection.ready.replies app outward⟩
    ∃ x y, answers turn (c,.ready) [t,t] =
      [[.response x (ascii "cd")],[.response y (ascii "cd")]] := by
  intro c q app outward t
  have ha : c.Asks t := by
    have hwritten : t.written = [⟨HeaderId.host.standardName,32::ascii "h"⟩,lengthField 2] := rfl
    refine ⟨by decide,by decide,by decide,by decide,?_,by decide,by decide,?_⟩
    · rw [hwritten]
      decide
    · rw [hwritten]
      decide
  have hput : t.request.isHead = false := by decide
  have hanswers : t.Answers :=
    ⟨fun _ _ => rfl,by decide,by decide,by decide,by decide,fun hhead => by simp [hput] at hhead⟩
  have hcarries (s : HttpClient × Connection) (hs : s.2 = .ready)
      (hname : s.1.hostName = c.hostName) : Carries s t := by
    refine carries_whole hs (ha.congr hname) hanswers ?_ (by rw [hs])
    rw [sendMoved, addHost, hname]
    rfl
  have hfirst := hcarries (c,.ready) rfl rfl
  obtain ⟨-,hready⟩ := turn_answered rfl ha hanswers hfirst
  obtain ⟨hall,-⟩ := conversation c [t,t] (by simpa using ha) (by simpa using hanswers)
    ⟨hfirst,hcarries _ hready (final_hostName _ _),trivial⟩
  generalize hrun : answers turn (c,.ready) [t,t] = run at hall
  obtain _ | ⟨⟨-,x,-,-,rfl,-⟩,_ | ⟨⟨-,y,-,-,rfl,-⟩,_ | _⟩⟩ := hall
  exact ⟨x,y,rfl⟩

theorem Carries.silent {s : HttpClient × Connection} {t : Turn} (hc : Carries s t)
    (h : s.2.replies t.app t.outward = []) : (turn s t).1 = [] := by
  have hin := hc.answered
  rw [h, List.flatten_nil, List.flatten_eq_nil_iff] at hin
  have hnone : t.inward = [] :=
    List.eq_nil_iff_forall_not_mem.mpr fun p hp => hc.inward p hp (hin p hp)
  rw [turn, hnone]
  rfl

theorem turn_left {s : HttpClient × Connection} {t : Turn} (hs : s.2 = .ready)
    (ha : s.1.Asks t) (hc : Carries s t) (hhead : t.request.isHead = false)
    (hnone : ∀ rx, t.Brought rx → t.app.request rx = none) :
    ∃ rx, t.Brought rx ∧ Connection.Left rx ∧ (turn s t).1 = [] ∧
      (turn s t).2.2 = ⟨rx,true⟩ := by
  obtain ⟨c,v⟩ := s
  obtain rfl : v = .ready := hs
  obtain ⟨rx,hbrought,hcomplete,hleft⟩ := turn_brought ha hc.asked hc.outward hc.outwardUncut
  obtain ⟨htrace,hhost,-⟩ := ha.passed hbrought
  rw [hnone rx hbrought, Option.toList_none, Connection.reply] at hleft
  obtain ⟨hreplies,hfinal⟩ := Prod.mk.inj hleft
  have hmethod : rx.request.line.method = t.request.method := by
    rw [hbrought.method, hhead, if_neg (by simp)]
  have hnot : rx.request.shown.isHead = false := by
    rw [← hhead, Http.RxRequest.isHead, TxRequest.isHead, ← hmethod]
    rfl
  exact ⟨rx,hbrought,⟨hcomplete,hnot,hbrought.isHead.trans hhead,htrace,hhost⟩,
    hc.silent hreplies,hfinal⟩

theorem carries_left {s : HttpClient × Connection} {t : Turn} (hs : s.2 = .ready)
    (ha : s.1.Asks t) (hout : t.outward = [(s.1.sendMoved t.request t.body).1])
    (hin : t.inward = []) (hnone : ∀ rx, t.Brought rx → t.app.request rx = none) :
    Carries s t := by
  obtain ⟨hflat,hfull,hcut⟩ := asked_whole ha hout
  obtain ⟨rx,hbrought,-,hleft⟩ := turn_brought ha hflat hfull hcut
  rw [hnone rx hbrought, Option.toList_none, Connection.reply] at hleft
  refine carries_unanswered ha hout hin ?_
  rw [hs]
  exact (Prod.mk.inj hleft).1

theorem turn_mute {s : HttpClient × Connection} {t : Turn} {rx : RequestReceiver}
    (hs : s.2 = ⟨rx,true⟩) (hl : Connection.Left rx) (hnone : t.app.request rx = none)
    (hc : Carries s t) : (turn s t).1 = [] ∧ (turn s t).2.2 = ⟨rx,true⟩ := by
  obtain ⟨hreplies,hfinal⟩ := hl.mute hnone t.outward
  rw [← hs] at hreplies hfinal
  exact ⟨hc.silent hreplies,hfinal.trans hs⟩

theorem conversation_mute {s : HttpClient × Connection} {ts : List Turn} {rx : RequestReceiver}
    (hs : s.2 = ⟨rx,true⟩) (hl : Connection.Left rx)
    (hnone : ∀ t ∈ ts, t.app.request rx = none) (hc : Carried s ts) :
    ∀ sigs ∈ answers turn s ts, sigs = [] := by
  induction ts generalizing s with
  | nil => simp [answers]
  | cons t ts ih =>
    obtain ⟨hfirst,hrest⟩ := hc
    obtain ⟨hsilent,hnext⟩ := turn_mute hs hl (hnone t (by simp)) hfirst
    rw [answers_cons, List.forall_mem_cons]
    exact ⟨hsilent,ih hnext (fun u hu => hnone u (by simp [hu])) hrest⟩

theorem carried_append {s : HttpClient × Connection} {ts us : List Turn}
    (h : Carried s (ts++us)) : Carried s ts ∧ Carried (final turn s ts) us := by
  induction ts generalizing s with
  | nil => exact ⟨trivial,h⟩
  | cons t ts ih =>
    obtain ⟨hfirst,hrest⟩ := h
    obtain ⟨hbefore,hafter⟩ := ih hrest
    exact ⟨⟨hfirst,hbefore⟩,hafter⟩

theorem conversation_until (known : Turn → Bool) {c : HttpClient} {ts : List Turn}
    (ha : ∀ t ∈ ts, c.Asks t) (hanswers : ∀ t ∈ ts, known t = true → t.Answers)
    (hnone : ∀ t ∈ ts, known t = false → t.request.isHead = false ∧
      ∀ u ∈ ts, ∀ rx, t.Brought rx → u.app.request rx = none)
    (hc : Carried (c,.ready) ts) :
    ∃ spoken silent, answers turn (c,.ready) ts = spoken++silent ∧
      List.Forall₂ Turn.Answered (ts.takeWhile known) spoken ∧ ∀ sigs ∈ silent, sigs = [] := by
  have hsplit : ts.takeWhile known ++ ts.dropWhile known = ts := List.takeWhile_append_dropWhile
  have hearly (t : Turn) (ht : t ∈ ts.takeWhile known) : t ∈ ts :=
    (List.takeWhile_prefix known).subset ht
  have hlate (t : Turn) (ht : t ∈ ts.dropWhile known) : t ∈ ts :=
    (List.dropWhile_suffix known).subset ht
  rw [← hsplit] at hc
  obtain ⟨hfirst,hrest⟩ := carried_append hc
  obtain ⟨hall,hready,hname⟩ := turns_answered rfl (fun t ht => ha t (hearly t ht))
    (fun t ht => hanswers t (hearly t ht) (List.mem_takeWhile_imp ht)) hfirst
  refine ⟨_,answers turn (final turn (c,.ready) (ts.takeWhile known)) (ts.dropWhile known),?_,
    hall,?_⟩
  · rw [← hsplit, answers, history_append, List.map_append, hsplit]
    rfl
  · cases hd : ts.dropWhile known with
    | nil => simp [answers]
    | cons t us =>
      have hunknown : known t = false := by
        have hhead := List.head?_dropWhile_not known ts
        rw [hd] at hhead
        simpa using hhead
      rw [hd] at hrest hlate
      obtain ⟨hhead,hsilent⟩ := hnone t (hlate t (by simp)) hunknown
      obtain ⟨rx,hbrought,hleft,hquiet,hheld⟩ := turn_left hready
        ((ha t (hlate t (by simp))).congr hname) hrest.1 hhead (hsilent t (hlate t (by simp)))
      rw [answers_cons, List.forall_mem_cons]
      refine ⟨hquiet,conversation_mute hheld hleft (fun u hu => ?_) hrest.2⟩
      exact hsilent u (hlate u (by simp [hu])) rx hbrought

end HttpClient

end RethinkLog.Via
