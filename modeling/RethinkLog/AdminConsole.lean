import RethinkLog.Replies
import Mathlib.Data.List.Forall2

/-!
# The admin console on the wire

The answers of the admin service in bytes. Its connections send the texts of the
responses that its handlers give, and go through the same states. A client that
talks to it is answered up to the first page that the console does not know.
From there on it is never answered again.
-/

set_option autoImplicit false

namespace RethinkLog.WebAdmin
open Http Via Incremental Machine

variable (date : Bytes) (files : Bytes → Bytes)

def Known (method uri : Bytes) : Prop :=
  Dispatched { Http.RxRequest.cleared with method := method, uri := uri }

instance (method uri : Bytes) : Decidable (Known method uri) :=
  inferInstanceAs (Decidable (Dispatched _))

theorem answer_none {method uri : Bytes} (h : ¬ Known method uri) :
    answer files method uri = none := by
  simp only [Known, Dispatched, not_or, not_not] at h
  obtain ⟨hmethod,hfile,hapi⟩ := h
  simp [answer, hmethod, hfile, hapi]

theorem answer_cases {method uri : Bytes} (h : Known method uri) :
    answer files method uri =
        some (⟨.methodNotAllowed,[.server,.date,.allow (ascii "GET")]⟩,[]) ∨
      (∃ name, answer files method uri =
        some (⟨.ok,[.server,.date,.contentType (contentType name)]⟩,
          files (ascii "./admin/" ++ name))) ∨
      answer files method uri = some (⟨.ok,[.server,.date]⟩,responseBody) := by
  unfold answer
  dsimp only
  split
  · exact .inl rfl
  · rename_i hmethod
    split
    · exact .inr (.inl ⟨_,rfl⟩)
    · rename_i hfile
      rw [if_pos ((h.resolve_left hmethod).resolve_left hfile)]
      exact .inr (.inr rfl)

variable {files} in
theorem answer_known {method uri : Bytes} {a : Http.TxResponse × Bytes}
    (h : answer files method uri = some a) : Known method uri := by
  by_contra hunknown
  rw [answer_none files hunknown] at h
  exact Option.some_ne_none a h.symm

variable {files} in
theorem answer_status {method uri : Bytes} {a : Http.TxResponse × Bytes}
    (h : answer files method uri = some a) : a.1.status ∈ [Status.ok,Status.methodNotAllowed] := by
  rcases answer_cases files (answer_known h) with hcase | ⟨name,hcase⟩ | hcase
  · obtain rfl := Option.some.inj (hcase.symm.trans h)
    simp
  · obtain rfl := Option.some.inj (hcase.symm.trans h)
    simp
  · obtain rfl := Option.some.inj (hcase.symm.trans h)
    simp

variable {files} in
theorem answer_short (hf : ∀ name, (files name).length < 2^31) {method uri : Bytes}
    {a : Http.TxResponse × Bytes} (h : answer files method uri = some a) :
    a.2.length < 2^31 := by
  have hpage : responseBody.length < 2^31 := by decide
  rcases answer_cases files (answer_known h) with hcase | ⟨name,hcase⟩ | hcase
  · obtain rfl := Option.some.inj (hcase.symm.trans h)
    simp
  · obtain rfl := Option.some.inj (hcase.symm.trans h)
    exact hf _
  · obtain rfl := Option.some.inj (hcase.symm.trans h)
    exact hpage

def headerLine : HeaderLine → Bytes
  | .server => toHeader HeaderId.server.standardName (ascii "Via-httplib/1.1.1")
  | .date => toHeader HeaderId.date.standardName date
  | .allow value => toHeader HeaderId.allow.standardName value
  | .contentType value => toHeader HeaderId.contentType.standardName value
  | .contentLength size => contentLengthHeader size

def written (r : Http.TxResponse) : Via.TxResponse :=
  { TxResponse.standard r.status.code with
    headerString := r.headers.flatMap (headerLine date) }

def headerField : HeaderLine → Field
  | .server => ⟨HeaderId.server.standardName,32::ascii "Via-httplib/1.1.1"⟩
  | .date => ⟨HeaderId.date.standardName,32::date⟩
  | .allow value => ⟨HeaderId.allow.standardName,32::value⟩
  | .contentType value => ⟨HeaderId.contentType.standardName,32::value⟩
  | .contentLength size => lengthField size

theorem headerLine_field (l : HeaderLine) : headerLine date l = (headerField date l).line := by
  cases l <;> exact header_line _ _

def Dated : Prop := ∀ c ∈ date, isEndOfLine c = false ∧ c ≠ 45

instance : Decidable (Dated date) :=
  decidable_of_iff (date.all (fun c => !isEndOfLine c && decide (c ≠ 45)) = true) <| by
    simp only [List.all_eq_true, Bool.and_eq_true, Bool.not_eq_true', decide_eq_true_eq, Dated]

variable {date files}

theorem date_harmless (h : Dated date) : Harmless (headerField date .date) := by
  have hline : 45 ∉ HeaderId.date.standardName ++ 58::32::date := by
    intro hin
    rcases List.mem_append.mp hin with hname | hvalue
    · exact absurd hname (by decide)
    · rcases List.mem_cons.mp hvalue with hcolon | hvalue
      · exact absurd hcolon (by decide)
      · rcases List.mem_cons.mp hvalue with hblank | hdate
        · exact absurd hblank (by decide)
        · exact (h 45 hdate).2 rfl
  have hname : HeaderId.date.standardName ≠ [] ∧
      HeaderId.date.standardName.all isToken = true ∧
      HeaderId.date.standardName.all Field.plain = true ∧
      toLower HeaderId.date.standardName ≠ HeaderId.contentLength.lowercaseName ∧
      toLower HeaderId.date.standardName ≠ HeaderId.transferEncoding.lowercaseName := by decide
  obtain ⟨hnamed,htoken,hplain,hlength,hcoding⟩ := hname
  refine ⟨⟨hnamed,List.all_eq_true.mp htoken,?_⟩,hplain,?_,?_,hlength,hcoding⟩
  · intro c hc
    rcases List.mem_cons.mp hc with rfl | hc
    · decide
    · exact (h c hc).1
  · exact contains_missing (show 45 ∈ HeaderId.contentLength.standardName by decide) hline
  · exact contains_missing (show 45 ∈ HeaderId.transferEncoding.standardName by decide) hline

theorem contentType_harmless (uri : Bytes) :
    Harmless (headerField date (.contentType (contentType uri))) := by
  have hall : ∀ v ∈ [ascii "text/javascript",ascii "text/css",ascii "text/html"],
      Harmless ⟨HeaderId.contentType.standardName,32::v⟩ := by decide
  apply hall
  unfold contentType
  split
  · simp
  · split <;> simp

theorem answer_unsized (hd : Dated date) {method uri : Bytes} {a : Http.TxResponse × Bytes}
    (h : answer files method uri = some a) :
    Unsized (written date a.1).headerString (a.1.headers.map (headerField date)) := by
  have htext : (written date a.1).headerString =
      (a.1.headers.map (headerField date)).flatMap Field.line := by
    rw [List.flatMap_map, written]
    exact congrArg (a.1.headers.flatMap ·) (funext (headerLine_field date))
  rw [htext]
  apply unsized_fields
  have hserver : Harmless (headerField date .server) := show Harmless
    ⟨HeaderId.server.standardName,32::ascii "Via-httplib/1.1.1"⟩ by decide
  have hallow : Harmless (headerField date (.allow (ascii "GET"))) := show Harmless
    ⟨HeaderId.allow.standardName,32::ascii "GET"⟩ by decide
  rcases answer_cases files (answer_known h) with hcase | ⟨name,hcase⟩ | hcase
  · obtain rfl := Option.some.inj (hcase.symm.trans h)
    simp [hserver, date_harmless hd, hallow]
  · obtain rfl := Option.some.inj (hcase.symm.trans h)
    simp [hserver, date_harmless hd, contentType_harmless]
  · obtain rfl := Option.some.inj (hcase.symm.trans h)
    simp [hserver, date_harmless hd]

variable (date files)

/-- The admin service as an application, on some date and with some files. -/
def console : Application where
  request := fun rx =>
    if rx.request.shown.isChunked then none
    else (answer files rx.request.line.method rx.request.line.uri).map
      (fun a => (written date a.1,a.2))
  expectContinue := fun rx =>
    [(written date ⟨if maxLength < rx.request.shown.contentLength then .requestEntityTooLarge
      else .continue,[]⟩,[])]
  chunk := fun rx =>
    if rx.chunk.header.isLast then
      ((answer files rx.request.line.method rx.request.line.uri).map
        (fun a => (written date a.1,a.2))).toList
    else []

def packetText (p : Packet) : Bytes :=
  ({ TxResponse.standard p.status.code with
    majorVersion := p.majorVersion
    minorVersion := p.minorVersion } : Via.TxResponse).lineText ++
      p.headers.flatMap (headerLine date) ++ crlf ++ p.body

def Renders : Response → Bytes → Prop
  | .refused code, text => ∃ (rx : RequestReceiver) (body : Bytes),
      text = rx.respond (.standard code) body
  | .served p, text => text = packetText date p

variable {date files}

theorem written_text {r : Http.TxResponse} {fields : List Field}
    (hu : Unsized (written date r).headerString fields) (rx : RequestReceiver) (body : Bytes) :
    rx.respond (written date r) body = packetText date {
      majorVersion := rx.request.line.majorVersion
      minorVersion := rx.request.line.minorVersion
      status := r.status
      headers := r.headers ++ [.contentLength body.length]
      body := if rx.isHead then [] else body } := by
  have hheaders : headerText (written date r).headerString body.length =
      (r.headers ++ [HeaderLine.contentLength body.length]).flatMap (headerLine date) ++ crlf := by
    rw [headerText, hu.noLength, hu.noCoding, List.flatMap_append, List.flatMap_singleton]
    rfl
  have hline : (rx.versioned (written date r)).lineText =
      ({ TxResponse.standard r.status.code with
        majorVersion := rx.request.line.majorVersion
        minorVersion := rx.request.line.minorVersion } : Via.TxResponse).lineText := by
    simp only [TxResponse.lineText, RequestReceiver.versioned, written]
  rw [packetText, ← hline, List.append_assoc _ _ crlf, ← hheaders]
  rfl

/-- `http_connection::send` and a handler that sends do the same. -/
theorem send_refines {r : Http.TxResponse} {fields : List Field}
    (hu : Unsized (written date r).headerString fields) (c : Via.Connection) (body : Bytes) :
    Service.Same (Renders date) (c.served (c.shown.send r body))
      (c.reply [(written date r,body)]) := by
  refine ⟨.cons (written_text hu c.rx body) .nil,?_⟩
  obtain ⟨status,headers⟩ := r
  cases status <;> rfl

theorem answer_refines (hd : Dated date) (c : Via.Connection) :
    Service.Same (Renders date) (c.served (respondToRequest files c.shown))
      (c.reply ((answer files c.rx.request.line.method c.rx.request.line.uri).map
        (fun a => (written date a.1,a.2))).toList) := by
  rw [respondToRequest_answer]
  cases ha : answer files c.rx.request.line.method c.rx.request.line.uri with
  | none =>
    rw [show answer files c.shown.rx.request.method c.shown.rx.request.uri = none from ha]
    exact ⟨.nil,rfl⟩
  | some a =>
    rw [show answer files c.shown.rx.request.method c.shown.rx.request.uri = some a from ha]
    exact send_refines (answer_unsized hd ha) c a.2

theorem chunk_refines (hd : Dated date) (c : Via.Connection) :
    Service.Same (Renders date)
      (if c.rx.chunk.header.isLast then c.served (respondToRequest files c.shown) else ([],c))
      (c.reply ((console date files).chunk c.rx)) := by
  unfold console
  dsimp only
  split
  · exact answer_refines hd c
  · exact ⟨.nil,rfl⟩

theorem request_refines (hd : Dated date) (c : Via.Connection) :
    Service.Same (Renders date)
      (if c.rx.request.shown.isChunked then ([],c)
        else c.served (respondToRequest files c.shown))
      (c.reply ((console date files).request c.rx).toList) := by
  unfold console
  dsimp only
  split
  · exact ⟨.nil,rfl⟩
  · exact answer_refines hd c

theorem continue_refines (c : Via.Connection) :
    Service.Same (Renders date) (c.served (handle files c.shown .expect))
      (c.reply ((console date files).expectContinue c.rx)) := by
  have hu : Unsized [] [] := by decide
  exact send_refines (r := ⟨_,[]⟩) hu c []

theorem console_agrees (hd : Dated date) : Service.Agree (Via.Connection.admin files)
    (console date files).service (Renders date) where
  refuse := by
    intro c r hr
    have hcode : ∀ r ∈ Service.declined, (TxResponse.standard r.1).status ≠ 100 := by decide
    refine ⟨.cons ⟨c.rx,r.2,rfl⟩ .nil,?_⟩
    simp only [Application.service, Via.Connection.admin, Via.Connection.reply,
      Via.Connection.send, Via.Connection.refuse, hcode r hr, if_false]
  request := request_refines hd
  expectContinue := continue_refines
  chunk := chunk_refines hd

theorem responses_refined (hd : Dated date) (c : Via.Connection) (packets : List Bytes) :
    List.Forall₂ (Renders date) (c.responses files packets)
        (c.replies (console date files) packets) ∧
      final (Via.Connection.handlePacket (console date files)) c packets =
        final (Via.Connection.receivePacket files) c packets :=
  (console_agrees hd).run c packets

def codes : List Int32 := [100,200,400,405,411,413]

theorem declined_sendable {a : Via.TxResponse × Bytes} (h : a ∈ Via.Connection.declined) :
    Sendable a ∧ a.1.status ∈ codes := by
  have hall : ∀ b ∈ Via.Connection.declined, b.1.WellFormed ∧ Unsized b.1.headerString [] ∧
      b.2.length < 2^31 ∧ b.1.status ∈ codes := by decide
  obtain ⟨hwell,hunsized,hshort,hcode⟩ := hall a h
  exact ⟨⟨hwell,⟨[],hunsized⟩,hshort⟩,hcode⟩

theorem written_sendable {r : Http.TxResponse} {body : Bytes} {fields : List Field}
    (hu : Unsized (written date r).headerString fields) (hb : body.length < 2^31)
    (hr : r.status ≠ .notFound) :
    Sendable (written date r,body) ∧ (written date r).status ∈ codes := by
  have hall : ∀ s ∈ [Status.continue,.ok,.methodNotAllowed,.requestEntityTooLarge],
      (TxResponse.standard s.code).WellFormed ∧ (TxResponse.standard s.code).status ∈ codes := by
    decide
  have hmem : r.status ∈ [Status.continue,.ok,.methodNotAllowed,.requestEntityTooLarge] := by
    cases hs : r.status with
    | notFound => exact absurd hs hr
    | _ => decide
  obtain ⟨hline,hcode⟩ := hall _ hmem
  exact ⟨⟨⟨hline.major,hline.minor,hline.status,hline.line,hline.blank⟩,⟨fields,hu⟩,hb⟩,hcode⟩

theorem answer_sendable (hd : Dated date) (hf : ∀ name, (files name).length < 2^31)
    {method uri : Bytes} {a : Http.TxResponse × Bytes} (h : answer files method uri = some a) :
    Sendable (written date a.1,a.2) ∧ (written date a.1).status ∈ codes := by
  have hstatus : a.1.status ≠ .notFound := by
    intro hs
    have hmem := answer_status h
    rw [hs] at hmem
    exact absurd hmem (by decide)
  exact written_sendable (answer_unsized hd h) (answer_short hf h) hstatus

theorem gives_sendable (hd : Dated date) (hf : ∀ name, (files name).length < 2^31)
    {a : Via.TxResponse × Bytes} (h : (console date files).Gives a) :
    Sendable a ∧ a.1.status ∈ codes := by
  obtain ⟨rx,hgiven⟩ := h
  have hanswer (h : a ∈ ((answer files rx.request.line.method rx.request.line.uri).map
      (fun b => (written date b.1,b.2))).toList) : Sendable a ∧ a.1.status ∈ codes := by
    obtain ⟨b,hb,rfl⟩ := Option.map_eq_some_iff.mp (Option.mem_toList.mp h)
    exact answer_sendable hd hf hb
  rcases hgiven with hrequest | hcontinue | hchunk
  · unfold console at hrequest
    dsimp only at hrequest
    split at hrequest
    · simp at hrequest
    · exact hanswer hrequest
  · have hu : Unsized [] [] := by decide
    obtain rfl := List.mem_singleton.mp hcontinue
    exact written_sendable (r := ⟨_,[]⟩) hu (by simp) (by split <;> decide)
  · unfold console at hchunk
    dsimp only at hchunk
    split at hchunk
    · exact hanswer hchunk
    · simp at hchunk

theorem console_single : (console date files).Single := by
  intro rx
  refine ⟨le_refl 1,?_⟩
  unfold console
  dsimp only
  split
  · exact Option.length_toList_le
  · exact Nat.zero_le 1

/-- Whatever a connection of the console receives, in whatever packets, each
packet that it sends is a response with one of six codes to the request that is
held then. A client reads it exactly when no number of the version of that
request is negative. -/
theorem console_readable_iff (hd : Dated date) (hf : ∀ name, (files name).length < 2^31)
    (c : Via.Connection) (packets : List Bytes) :
    ∀ p ∈ c.replies (console date files) packets, ∃ before cs after,
      packets = before ++ cs::after ∧
      p ∈ ((final (Via.Connection.handlePacket (console date files)) c before).handlePacket
        (console date files) cs).1 ∧
      ((∃ code, Readable code p) ↔
        (Via.Connection.reading (console date files) c before cs).Versioned) ∧
      ∀ code, Readable code p → code ∈ codes := by
  intro p hp
  obtain ⟨before,cs,after,a,hparts,hstep,ha,rfl⟩ := Via.Connection.replies_sent console_single hp
  have hsendable : Sendable a ∧ a.1.status ∈ codes :=
    ha.elim declined_sendable (gives_sendable hd hf)
  refine ⟨before,cs,after,hparts,hstep,
    ⟨fun ⟨_,hread⟩ => readable_versioned hread,fun hv => ⟨_,hsendable.1.readable hv⟩⟩,?_⟩
  intro code hread
  rw [hsendable.1.read_status (readable_versioned hread) hread]
  exact hsendable.2

/-- A packet with a request whose version outgrows an `int`. -/
def outgrown : Bytes := ascii "GET /api HTTP/4294967295.1\r\n\r\n"

def outgrownRequest : Via.RxRequest :=
  ⟨⟨ascii "GET",ascii "/api",-1,1,.httpEnd,true,true,true,false⟩,⟨[],.cleared,true⟩,true⟩

theorem outgrown_read :
    RequestReceiver.cleared.receive outgrown = (.valid,.bearingAll outgrownRequest []) := by
  have hline : Via.RequestLine.cleared.parse outgrown = (true,outgrownRequest.line,crlf) := by
    decide
  have hparse : Via.RxRequest.cleared.parse outgrown = (true,outgrownRequest,[]) := by
    have hidle : Via.RequestLine.cleared.valid = false := rfl
    simp [RxRequest.parse, Via.RxRequest.cleared, hidle, hline, outgrownRequest,
      RxRequest.parseHeaders, MessageHeaders.parse, MessageHeaders.parseFields,
      MessageHeaders.cleared, crlf, MessageHeaders.afterReturn, isEndOfLine]
  have hreceive := RequestReceiver.receive_done (show Via.RxRequest.cleared.valid = false from rfl)
    (show (Via.RxRequest.cleared.parse outgrown).1 = true by rw [hparse])
  rw [hparse] at hreceive
  exact hreceive.trans (by decide)

/-- A packet that is no request is answered so that it can be read, and a version
that outgrows an `int` is not. -/
theorem console_readable_iff_outgrown :
    let app := console (ascii "Thu, 01 Jan 1970 00:00:00 GMT") fun _ => []
    (∃ p ∈ Via.Connection.ready.replies app [ascii "?"], ∃ code ∈ codes, Readable code p) ∧
      Via.Connection.ready.replies app [outgrown] ≠ [] ∧
      ∀ p ∈ Via.Connection.ready.replies app [outgrown], ∀ code, ¬ Readable code p := by
  intro app
  have hdated : Dated (ascii "Thu, 01 Jan 1970 00:00:00 GMT") := by decide
  have hshort (name : Bytes) : ((fun _ => [] : Bytes → Bytes) name).length < 2^31 := by simp
  have hone {q cs : Bytes} {before after : List Bytes} (h : [q] = before ++ cs::after) :
      before = [] ∧ cs = q := by
    cases before with
    | nil => exact ⟨rfl,(List.cons.inj h).1.symm⟩
    | cons b before => simp at h
  refine ⟨⟨_,List.mem_cons_self,?_⟩,?_,?_⟩
  · obtain ⟨before,cs,after,hparts,-,hreadable,hcodes⟩ :=
      console_readable_iff hdated hshort .ready [ascii "?"] _ List.mem_cons_self
    obtain ⟨rfl,rfl⟩ := hone hparts
    obtain ⟨code,hread⟩ := hreadable.mpr ⟨by decide,by decide⟩
    exact ⟨code,hcodes code hread,hread⟩
  · have hbrings : Via.Connection.ready.handlePacket app outgrown =
        Via.Connection.reply ⟨.bearingAll outgrownRequest [],true⟩
          (app.request (.bearingAll outgrownRequest [])).toList :=
      Via.Connection.handlePacket_brings outgrown_read (by decide) (by decide)
    have hgiven : (app.request (.bearingAll outgrownRequest [])).isSome = true := by decide
    obtain ⟨a,ha⟩ := Option.isSome_iff_exists.mp hgiven
    rw [Via.Connection.replies_cons, hbrings, ha]
    exact List.cons_ne_nil _ _
  · intro p hp code hcode
    obtain ⟨before,cs,after,hparts,-,hversion,-⟩ :=
      console_readable_iff hdated hshort .ready [outgrown] p hp
    obtain ⟨rfl,rfl⟩ := hone hparts
    have hneg := (hversion.mp ⟨code,hcode⟩).1
    rw [Via.Connection.reading, final, show Via.Connection.ready.rx = .cleared from rfl,
      outgrown_read] at hneg
    exact absurd hneg (by decide)

/-- A request to the console, on some date and with some files, and the packets
that carry it and its answer. -/
structure Visit where
  request : TxRequest
  fields : List Field
  body : Bytes
  date : Bytes
  files : Bytes → Bytes
  outward : List Bytes
  inward : List Bytes

namespace Visit

def known (v : Visit) : Bool := decide (Known v.request.method v.request.uri)

def given (v : Visit) : Http.TxResponse × Bytes :=
  (answer v.files v.request.method v.request.uri).getD (⟨.notFound,[]⟩,[])

def turn (v : Visit) : Turn where
  request := v.request
  fields := v.fields
  body := v.body
  app := console v.date v.files
  response := written v.date v.given.1
  replies := v.given.1.headers.map (headerField v.date)
  answer := v.given.2
  outward := v.outward
  inward := v.inward

structure Fits (v : Visit) : Prop where
  notHead : v.request.isHead = false
  dated : Dated v.date
  short : ∀ name, (v.files name).length < 2^31

theorem known_answer {v : Visit} (h : v.known = true) :
    answer v.files v.request.method v.request.uri = some v.given := by
  rw [given]
  rcases answer_cases v.files (of_decide_eq_true h) with hcase | ⟨name,hcase⟩ | hcase
  · rw [hcase, Option.getD_some]
  · rw [hcase, Option.getD_some]
  · rw [hcase, Option.getD_some]

theorem console_request {c : HttpClient} {v u : Visit} (ha : c.Asks v.turn)
    (hf : v.Fits) {rx : RequestReceiver} (hb : v.turn.Brought rx) :
    u.turn.app.request rx = (answer u.files v.request.method v.request.uri).map
      (fun a => (written u.date a.1,a.2)) := by
  have hwhole : ({ MessageHeaders.cleared with
      fields := v.turn.written.map Field.kept } : MessageHeaders).isChunked = false :=
    ha.unsized.not_chunked List.prefix_rfl
  have hplain : rx.request.shown.isChunked = false := by
    have hfind (name : Bytes) : rx.request.shown.find name = fieldOf v.turn.written name :=
      hb.find name
    simp only [Http.RxRequest.isChunked, hfind]
    exact hwhole
  have hmethod : rx.request.line.method = v.request.method := by
    have hnot : v.turn.request.isHead = false := hf.notHead
    rw [hb.method, hnot, if_neg (by simp)]
    rfl
  have huri : rx.request.line.uri = v.request.uri := hb.uri
  rw [show u.turn.app = console u.date u.files from rfl]
  simp only [console, hplain, hmethod, huri, Bool.false_eq_true, if_false]

theorem console_none {c : HttpClient} {v u : Visit} (ha : c.Asks v.turn) (hf : v.Fits)
    {rx : RequestReceiver} (hb : v.turn.Brought rx)
    (h : ¬ Known v.request.method v.request.uri) : u.turn.app.request rx = none := by
  rw [console_request ha hf hb, answer_none _ h]
  rfl

theorem known_answers {c : HttpClient} {v : Visit} (ha : c.Asks v.turn) (hf : v.Fits)
    (h : v.known = true) : v.turn.Answers where
  gives := fun rx hb => by
    rw [console_request (u := v) ha hf hb, known_answer h]
    rfl
  wellFormed := (answer_sendable hf.dated hf.short (known_answer h)).1.wellFormed
  unsized := answer_unsized hf.dated (known_answer h)
  final := by
    have hall : ∀ s ∈ [Status.ok,Status.methodNotAllowed],
        (TxResponse.standard s.code).status ≠ 100 := by decide
    exact hall _ (answer_status (known_answer h))
  short := answer_short hf.short (known_answer h)
  headless := fun hhead => by
    have hnot : v.turn.request.isHead = false := hf.notHead
    simp [hnot] at hhead

end Visit

/-- A client of the console is answered with what `respond_to_request` gives, up
to the first GET for a page that the console does not know. From there on it
receives nothing, whatever it asks for. -/
theorem console_answers (c : HttpClient) (vs : List Visit) (ha : ∀ v ∈ vs, c.Asks v.turn)
    (hf : ∀ v ∈ vs, v.Fits) (hc : HttpClient.Carried (c,.ready) (vs.map Visit.turn)) :
    ∃ spoken silent, answers HttpClient.turn (c,.ready) (vs.map Visit.turn) = spoken++silent ∧
      List.Forall₂ (fun v sigs => v.turn.Answered sigs) (vs.takeWhile Visit.known) spoken ∧
      ∀ sigs ∈ silent, sigs = [] := by
  let known : Turn → Bool := fun t => decide (Known t.request.method t.request.uri)
  have hasks : ∀ t ∈ vs.map Visit.turn, c.Asks t := List.forall_mem_map.mpr ha
  have hanswers : ∀ t ∈ vs.map Visit.turn, known t = true → t.Answers :=
    List.forall_mem_map.mpr fun v hv hknown => Visit.known_answers (ha v hv) (hf v hv) hknown
  have hnone : ∀ t ∈ vs.map Visit.turn, known t = false → t.request.isHead = false ∧
      ∀ u ∈ vs.map Visit.turn, ∀ rx, t.Brought rx → u.app.request rx = none :=
    List.forall_mem_map.mpr fun v hv hunknown => ⟨(hf v hv).notHead,
      List.forall_mem_map.mpr fun u _ _ hb =>
        Visit.console_none (ha v hv) (hf v hv) hb (of_decide_eq_false hunknown)⟩
  obtain ⟨spoken,silent,hrun,hspoken,hsilent⟩ :=
    HttpClient.conversation_until known hasks hanswers hnone hc
  rw [List.takeWhile_map, List.forall₂_map_left_iff] at hspoken
  exact ⟨spoken,silent,hrun,hspoken,hsilent⟩

def visitor : HttpClient := ⟨.cleared,ascii "h"⟩

def getting (uri : Bytes) : TxRequest := ⟨ascii "GET",uri,1,1,[]⟩

def visiting (uri : Bytes) (inward : List Bytes) : Visit where
  request := getting uri
  fields := [⟨HeaderId.host.standardName,32::ascii "h"⟩]
  body := []
  date := ascii "Thu, 01 Jan 1970 00:00:00 GMT"
  files := fun _ => []
  outward := [(visitor.sendMoved (getting uri) []).1]
  inward := inward

theorem visiting_asks {uri : Bytes} (inward : List Bytes)
    (hline : (visitor.addHost (getting uri)).WellFormed) {c : HttpClient}
    (hc : c.hostName = visitor.hostName) : c.Asks (visiting uri inward).turn := by
  have hunsized : Unsized (toHeader HeaderId.host.standardName (ascii "h"))
      [⟨HeaderId.host.standardName,32::ascii "h"⟩] := by decide
  have hwritten : (visiting uri inward).turn.written =
      [⟨HeaderId.host.standardName,32::ascii "h"⟩,lengthField 0] := rfl
  refine HttpClient.Asks.congr (c := visitor) ⟨hline,hunsized,show 0 < 2^31 by decide,
    show ascii "GET" ≠ ascii "TRACE" by decide,?_,show (1 : Int32) ≤ 1 by decide,
    show (1 : Int32) ≤ 1 by decide,?_⟩ hc
  · rw [hwritten]
    decide
  · rw [hwritten]
    decide

theorem visiting_outward (uri : Bytes) (inward : List Bytes) {c : HttpClient}
    (hc : c.hostName = visitor.hostName) :
    (visiting uri inward).turn.outward =
      [(c.sendMoved (visiting uri inward).turn.request (visiting uri inward).turn.body).1] := by
  simp only [HttpClient.sendMoved, HttpClient.send, HttpClient.addHost, hc, visiting, Visit.turn]

theorem visiting_fits (uri : Bytes) (inward : List Bytes) : (visiting uri inward).Fits where
  notHead := show decide (ascii "GET" = ascii "HEAD") = false by decide
  dated := show Dated (ascii "Thu, 01 Jan 1970 00:00:00 GMT") by decide
  short := fun _ => show 0 < 2^31 by decide

theorem console_answers_until :
    let spoken := Via.Connection.ready.replies (visiting (ascii "/api") []).turn.app
      (visiting (ascii "/api") []).turn.outward
    ∃ x, answers HttpClient.turn (visitor,.ready) ([visiting (ascii "/api") spoken,
        visiting (ascii "/favicon.ico") [],visiting (ascii "/api") []].map Visit.turn) =
      [[.response x responseBody],[],[]] := by
  intro spoken
  have hlines : (visitor.addHost (getting (ascii "/api"))).WellFormed ∧
      (visitor.addHost (getting (ascii "/favicon.ico"))).WellFormed := by decide
  obtain ⟨hapi,hother⟩ := hlines
  have hknown : (visiting (ascii "/api") spoken).known = true :=
    show decide (Known (ascii "GET") (ascii "/api")) = true by decide
  have hunknown : ¬ Known (ascii "GET") (ascii "/favicon.ico") := by decide
  have hanswers := Visit.known_answers (visiting_asks spoken hapi rfl) (visiting_fits _ _) hknown
  have hfirst : HttpClient.Carries (visitor,.ready) (visiting (ascii "/api") spoken).turn :=
    HttpClient.carries_whole rfl (visiting_asks spoken hapi rfl) hanswers
      (visiting_outward _ _ rfl) rfl
  obtain ⟨-,hready⟩ := HttpClient.turn_answered rfl (visiting_asks spoken hapi rfl) hanswers hfirst
  have hname : (HttpClient.turn (visitor,.ready)
      (visiting (ascii "/api") spoken).turn).2.1.hostName = visitor.hostName :=
    HttpClient.final_hostName _ _
  generalize hs : (HttpClient.turn (visitor,.ready) (visiting (ascii "/api") spoken).turn).2 = s
    at hready hname
  have hasks := visiting_asks [] hother hname
  have hnone (u : Visit) (rx : RequestReceiver)
      (hb : (visiting (ascii "/favicon.ico") []).turn.Brought rx) : u.turn.app.request rx = none :=
    Visit.console_none hasks (visiting_fits _ _) hb hunknown
  have hsecond : HttpClient.Carries s (visiting (ascii "/favicon.ico") []).turn :=
    HttpClient.carries_left hready hasks (visiting_outward _ _ hname) rfl (hnone _)
  obtain ⟨rx,hbrought,hleft,-,hheld⟩ := HttpClient.turn_left hready hasks hsecond
    (visiting_fits _ []).notHead (hnone _)
  have hnext : (HttpClient.turn s (visiting (ascii "/favicon.ico") []).turn).2.1.hostName =
      visitor.hostName := (HttpClient.final_hostName _ _).trans hname
  have hthird : HttpClient.Carries (HttpClient.turn s (visiting (ascii "/favicon.ico") []).turn).2
      (visiting (ascii "/api") []).turn := by
    refine HttpClient.carries_unanswered (visiting_asks [] hapi hnext)
      (visiting_outward _ _ hnext) rfl ?_
    rw [hheld]
    exact (hleft.mute (hnone _ rx hbrought) _).1
  subst hs
  obtain ⟨told,silent,hrun,htold,hsilent⟩ := console_answers visitor
    [visiting (ascii "/api") spoken,visiting (ascii "/favicon.ico") [],visiting (ascii "/api") []]
    (by simpa using ⟨visiting_asks spoken hapi rfl,visiting_asks [] hother rfl,
      visiting_asks [] hapi rfl⟩)
    (by simp [visiting_fits]) ⟨hfirst,hsecond,hthird,trivial⟩
  have hicon : ¬ (visiting (ascii "/favicon.ico") []).known = true :=
    fun h => hunknown (of_decide_eq_true h)
  rw [List.takeWhile_cons_of_pos hknown, List.takeWhile_cons_of_neg hicon] at htold
  obtain _ | ⟨⟨-,x,-,-,rfl,-⟩,_ | _⟩ := htold
  have hlength : silent.length = 2 := by
    have hthree := congrArg List.length hrun
    simpa [answers, history] using hthree.symm
  obtain ⟨a,b,rfl⟩ := List.length_eq_two.mp hlength
  refine ⟨x,hrun.trans ?_⟩
  rw [hsilent a (by simp), hsilent b (by simp)]
  have hbody : (visiting (ascii "/api") spoken).turn.answer = responseBody :=
    show ((answer (fun _ => []) (ascii "GET") (ascii "/api")).getD (⟨.notFound,[]⟩,[])).2 =
      responseBody by decide
  rw [hbody]
  rfl

end RethinkLog.WebAdmin
