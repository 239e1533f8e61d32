import RethinkLog.RequestDelivery
import RethinkLog.ResponseReading

/-!
# Clients, and exchanges that fail

A client sends a request with a body, a server receives it and answers, and
the client signals the answer. The body is left out of the answer to a HEAD
request, but its length is not: the client waits for it. A body that is passed
by reference is sent behind a length of zero, and the server never has it.
-/

set_option autoImplicit false

namespace RethinkLog.Via
open Incremental Machine

inductive ClientSignal where
  | response (response : RxResponse) (body : Bytes)
  | chunk (chunk : RxChunk) (data : Bytes)
  deriving DecidableEq, Repr

structure HttpClient where
  rx : ResponseReceiver
  hostName : Bytes
  deriving DecidableEq, Repr

namespace HttpClient

def connect (hostName portName : Bytes) : HttpClient :=
  ⟨.cleared,if portName ≠ ascii "http" ∧ portName ≠ ascii "https" then hostName ++ 58::portName
    else hostName⟩

def receiveHandler (c : HttpClient) (data : Bytes) : List ClientSignal × HttpClient :=
  let p := c.rx.receive data
  (match p.1 with
    | .valid => [.response p.2.response p.2.body]
    | .chunk => [.chunk p.2.chunk p.2.chunk.data]
    | _ => [], { c with rx := p.2 })

def signals (c : HttpClient) (packets : List Bytes) : List ClientSignal :=
  (answers receiveHandler c packets).flatten

def send (c : HttpClient) (packet : Bytes) : Bytes × HttpClient :=
  (packet, { c with rx := .cleared })

def addHost (c : HttpClient) (r : TxRequest) : TxRequest :=
  r.addHeader HeaderId.host.standardName c.hostName

def sendRequest (c : HttpClient) (r : TxRequest) : Bytes × HttpClient :=
  c.send ((c.addHost r).message 0)

/-- `http_client::send` for a body that is moved. -/
def sendMoved (c : HttpClient) (r : TxRequest) (body : Bytes) : Bytes × HttpClient :=
  c.send ((c.addHost r).message body.length ++ body)

/-- `http_client::send` for a body that is passed by reference. -/
def sendCopied (c : HttpClient) (r : TxRequest) (body : Bytes) : Bytes × HttpClient :=
  c.send ((c.addHost r).message 0 ++ body)

end HttpClient

def RequestReceiver.versioned (rx : RequestReceiver) (r : TxResponse) : TxResponse :=
  { r with
    majorVersion := rx.request.line.majorVersion
    minorVersion := rx.request.line.minorVersion }

/-- What `http_connection::send` writes of a response with a body. -/
def RequestReceiver.respond (rx : RequestReceiver) (r : TxResponse) (body : Bytes) : Bytes :=
  (rx.versioned r).message body.length ++ (if rx.isHead then [] else body)

theorem bmod_length {n : ℕ} (h : n < 2^31) : (n : ℤ).bmod (2^32) = n :=
  Int.bmod_eq_of_le (by omega) (by omega)

namespace RequestReceiver

theorem respond_ne_nil (rx : RequestReceiver) (r : TxResponse) (body : Bytes) :
    rx.respond r body ≠ [] := by simp [respond, TxResponse.message, TxResponse.lineText]

theorem respond_uncut (rx : RequestReceiver) {r : TxResponse} {fields : List Field}
    (hv : Unsized r.headerString fields) (body : Bytes) :
    Uncut (rx.versioned r).lineText.length (sentFields fields body.length)
      [rx.respond r body] := by
  have hsame : Unsized (rx.versioned r).headerString fields := hv
  exact TxResponse.message_uncut hsame body.length _

structure Complete (rx : RequestReceiver) : Prop where
  valid : rx.request.valid = true
  whole : rx.request.headers.isChunked = false
  length : rx.request.headers.contentLength = rx.body.length
  short : rx.body.length < Http.ulongMax
  field : rx.request.headers.find HeaderId.contentLength.lowercaseName ≠ []

theorem complete_receive {rx : RequestReceiver} (h : rx.Complete) (cs : Bytes) :
    rx.receive cs = (.valid,{ rx with
      isHead := rx.request.shown.isHead
      request := rx.request.translated }) ∧ (rx.receive cs).2.Complete := by
  have hchunked : rx.request.shown.isChunked = false := h.whole
  have hlength : rx.request.shown.contentLength = rx.body.length := h.length
  have hfield : rx.request.shown.find (ascii "content-length") ≠ [] := h.field
  have hrequired : required rx.body.length rx.body = 0 := by
    rw [required, sub_self]
    rfl
  have hextended : extended rx.body.length rx.body cs = rx.body := by
    rw [extended, hrequired]
    by_cases hcs : cs = []
    · simp [hcs]
    · simp [List.length_pos_of_ne_nil hcs]
  have hreceive : rx.receive cs = (.valid,{ rx with
      isHead := rx.request.shown.isHead
      request := rx.request.translated }) := by
    rw [receive, receiveWith, h.valid, if_pos rfl, receiveContentWith, hchunked,
      if_neg (by simp), receiveBody, hlength, takeBody, if_neg h.short.ne,
      if_neg (fun hnone => hfield hnone.2.2), hrequired, if_neg (by simp), hextended,
      if_pos rfl]
    rfl
  rw [hreceive]
  exact ⟨rfl,h.valid,h.whole,h.length,h.short,h.field⟩

/-- What every packet brings of a request that is held. -/
structure Brings (rx : RequestReceiver) (a : RxState × RequestReceiver) : Prop where
  state : a.1 = .valid
  method : a.2.request.line.method = rx.request.shown.translated.method
  uri : a.2.request.line.uri = rx.request.line.uri
  major : a.2.request.line.majorVersion = rx.request.line.majorVersion
  minor : a.2.request.line.minorVersion = rx.request.line.minorVersion
  headers : a.2.request.headers = rx.request.headers
  body : a.2.body = rx.body

theorem complete_outputs {rx : RequestReceiver} (h : rx.Complete) {packets : List Bytes} :
    ∀ a ∈ outputs receive rx packets, rx.Brings a := by
  induction packets generalizing rx with
  | nil => simp [outputs, answers]
  | cons cs packets ih =>
    obtain ⟨hreceive,hnext⟩ := complete_receive h cs
    have hrest := ih hnext
    rw [outputs_cons, List.forall_mem_cons]
    rw [hreceive] at hrest ⊢
    refine ⟨⟨rfl,rfl,rfl,rfl,rfl,rfl,rfl⟩,fun a ha => ?_⟩
    obtain ⟨hstate,hmethod,huri,hmajor,hminor,hheaders,hbody⟩ := hrest a ha
    refine ⟨hstate,hmethod.trans ?_,huri,hmajor,hminor,hheaders,hbody⟩
    rw [RxRequest.shown_translated, Http.RxRequest.translated_twice]

end RequestReceiver

namespace HttpClient

def signalled (a : RxState × ResponseReceiver) : List ClientSignal :=
  match a.1 with
  | .valid => [.response a.2.response a.2.body]
  | .chunk => [.chunk a.2.chunk a.2.chunk.data]
  | _ => []

theorem signals_eq (c : HttpClient) (packets : List Bytes) :
    c.signals packets = (outputs ResponseReceiver.receive c.rx packets).flatMap signalled := by
  induction packets generalizing c with
  | nil => rfl
  | cons p ps ih =>
    rw [outputs_cons, List.flatMap_cons, ← ih { c with rx := (c.rx.receive p).2 }]
    rfl

theorem signals_waiting (c : HttpClient) {packets : List Bytes}
    (h : ∀ a ∈ outputs ResponseReceiver.receive c.rx packets, a.1 = .incomplete) :
    c.signals packets = [] := by
  rw [signals_eq, List.flatMap_eq_nil_iff]
  intro a ha
  rw [signalled, h a ha]

theorem signals_delivered (c : HttpClient) (hc : c.rx = .cleared) {r : TxResponse}
    {fields : List Field} {body : Bytes} {packets : List Bytes}
    (h : ResponseReceiver.Delivered r fields body packets) :
    ∃ x : RxResponse, c.signals packets = [.response x body] ∧
      (x.line.majorVersion = r.majorVersion ∧ x.line.minorVersion = r.minorVersion ∧
        x.line.status = r.status ∧ x.line.reasonPhrase = r.reasonPhrase) ∧
      ∀ name, x.headers.find name = ((fields.map Field.kept).lookup name).getD [] := by
  obtain ⟨quiet,rx,hout,hall,hline,hfind,rfl⟩ := h
  refine ⟨rx.response,?_,hline,hfind⟩
  rw [signals_eq, hc, hout, List.flatMap_append, List.flatMap_singleton,
    List.flatMap_eq_nil_iff.mpr (fun a ha => by rw [signalled, hall a ha])]
  rfl

section Exchanges
variable (c : HttpClient) {q : TxRequest} (hq : (c.addHost q).WellFormed) {fields : List Field}
  (hu : Unsized (c.addHost q).headerString fields) {body : Bytes}

include hq hu

/-- The answer to a HEAD request has a length but no body. A client that is
answered so signals nothing. -/
theorem head_unanswered (hbody : body.length < 2^31) {outward : List Bytes}
    (hfull : ∀ p ∈ outward, p ≠ []) (hp : outward.flatten = (c.sendMoved q body).1)
    (hcut : Uncut (c.addHost q).lineText.length (sentFields fields body.length) outward)
    (hhead : q.isHead = true) {s : TxResponse} (hs : s.WellFormed) {replies : List Field}
    (hv : Unsized s.headerString replies) {answer : Bytes} (ha : answer.length < 2^31)
    (hne : answer ≠ []) :
    ∃ quiet rx, outputs RequestReceiver.receive .cleared outward = quiet ++ [(.valid,rx)] ∧
      (∀ a ∈ quiet, a.1 = .incomplete) ∧
      ∀ inward : List Bytes, (∀ p ∈ inward, p ≠ []) → inward.flatten = rx.respond s answer →
        Uncut (rx.versioned s).lineText.length (sentFields replies answer.length) inward →
        (c.sendMoved q body).2.signals inward = [] := by
  obtain ⟨quiet,rx,hout,hall,⟨-,hrx,-,hmajor,hminor⟩,-⟩ :=
    RequestReceiver.delivered_whole hq hu (by omega) hfull hp hcut (bmod_length hbody)
  refine ⟨quiet,rx,hout,hall,fun inward hin hflat hclear => ?_⟩
  have htext : inward.flatten = (rx.versioned s).message answer.length ++ [] := by
    rw [hflat, RequestReceiver.respond, hrx, show (c.addHost q).isHead = true from hhead,
      if_pos rfl]
  have hwell : (rx.versioned s).WellFormed :=
    ⟨hq.major.trans_eq hmajor.symm,hq.minor.trans_eq hminor.symm,hs.status,hs.line,hs.blank⟩
  obtain ⟨h,rest,ps,hfed,hpre,hfields,hrest,-⟩ :=
    ResponseReceiver.response_fed hwell hv answer.length hin htext
  have hlength : h.contentLength = answer.length :=
    (hv.contentLength_iff (hfields.mpr hclear) (by omega)).mpr (bmod_length ha)
  have hpos := List.length_pos_of_ne_nil hne
  apply signals_waiting
  exact ResponseReceiver.receive_carrier.starved ResponseReceiver.receive_headed
    (hv.not_chunked hpre) rfl hfed (by rw [hlength]; omega) (by rw [hlength]; exact hpos)
    (hrest hclear)

omit hq hu in
theorem head_unanswered_whole :
    let c : HttpClient := ⟨.cleared,ascii "h"⟩
    let q : TxRequest := ⟨ascii "HEAD",ascii "/",1,1,[]⟩
    let s : TxResponse := ⟨1,1,200,ascii "OK",[]⟩
    let p := c.sendMoved q []
    ∃ rx, (RxState.valid,rx) ∈ outputs RequestReceiver.receive .cleared [p.1] ∧
      p.2.signals [rx.respond s (ascii "cd")] = [] := by
  intro c q s p
  have hq : (c.addHost q).WellFormed := by decide
  have hu : Unsized (c.addHost q).headerString [⟨HeaderId.host.standardName,32::ascii "h"⟩] := by
    decide
  have hfull : p.1 ≠ [] := by
    simp [p, sendMoved, send, TxRequest.message, TxRequest.lineText]
  have hcut : Uncut (c.addHost q).lineText.length
      (sentFields [⟨HeaderId.host.standardName,32::ascii "h"⟩] 0) [p.1] :=
    TxRequest.message_uncut hu 0 []
  have hv : Unsized s.headerString [] := by decide
  obtain ⟨quiet,rx,hout,-,hback⟩ := head_unanswered c hq hu
    (show ([] : Bytes).length < 2^31 by decide) (List.forall_mem_singleton.mpr hfull)
    List.flatten_singleton hcut (by decide) (by decide) hv
    (show (ascii "cd").length < 2^31 by decide) (by decide)
  exact ⟨rx,by rw [hout]; simp,hback _
    (List.forall_mem_singleton.mpr (rx.respond_ne_nil s (ascii "cd"))) List.flatten_singleton
    (rx.respond_uncut hv (ascii "cd"))⟩

/-- A body that is passed by reference never arrives: from the packet that ends
the head on, every packet brings the request with an empty body. -/
theorem copied_body_lost {outward : List Bytes} (hfull : ∀ p ∈ outward, p ≠ [])
    (hp : outward.flatten = (c.sendCopied q body).1)
    (hcut : Uncut (c.addHost q).lineText.length (sentFields fields 0) outward) :
    ∃ quiet loud, outputs RequestReceiver.receive .cleared outward = quiet++loud ∧
      (∀ a ∈ quiet, a.1 = .incomplete) ∧ loud ≠ [] ∧
      ∀ a ∈ loud, a.1 = .valid ∧
        (a.2.request.line.method = (if q.isHead then ascii "GET" else q.method) ∧
          a.2.request.line.uri = q.uri ∧ a.2.request.line.majorVersion = q.majorVersion ∧
          a.2.request.line.minorVersion = q.minorVersion) ∧
        (∀ name, a.2.request.headers.find name =
          (((sentFields fields 0).map Field.kept).lookup name).getD []) ∧
        a.2.body = [] := by
  obtain ⟨h,rest,ps,hfed,hpre,hfields,-⟩ := RequestReceiver.request_fed hq hu 0 hfull hp
  have hkept := hfields.mpr hcut
  have hlength : h.contentLength = ([] : Bytes).length :=
    (hu.contentLength_iff hkept (by simp)).mpr rfl
  have hfield : h.find HeaderId.contentLength.lowercaseName ≠ [] := by
    rw [hu.find_length hkept]
    exact toDecString_ne_nil 0
  obtain ⟨hvalid,quiet,hquiet,hall⟩ := RequestReceiver.receive_carrier.outputs
    RequestReceiver.receive_headed (hu.not_chunked hpre) rfl hfed
  refine ⟨quiet,_,hquiet,hall,by simp [outputs_cons],fun a ha => ?_⟩
  have hsmall : ([] : Bytes).length < Http.ulongMax := by simp [Http.ulongMax]
  have hbrings := RequestReceiver.complete_outputs
    ⟨hvalid,hu.not_chunked hpre,hlength,hsmall,hfield⟩ a ha
  refine ⟨hbrings.state,⟨hbrings.method.trans (RequestReceiver.translated_method _),hbrings.uri,
    hbrings.major,hbrings.minor⟩,fun name => ?_,hbrings.body⟩
  rw [hbrings.headers, ← hkept]
  rfl

omit hq hu in
theorem copied_body_lost_whole :
    let c : HttpClient := ⟨.cleared,ascii "h"⟩
    let q : TxRequest := ⟨ascii "PUT",ascii "/",1,1,[]⟩
    ∃ quiet loud, outputs RequestReceiver.receive .cleared [(c.sendCopied q (ascii "ab")).1] =
        quiet++loud ∧ loud ≠ [] ∧ ∀ a ∈ loud, a.1 = .valid ∧ a.2.body = [] := by
  intro c q
  have hq : (c.addHost q).WellFormed := by decide
  have hu : Unsized (c.addHost q).headerString [⟨HeaderId.host.standardName,32::ascii "h"⟩] := by
    decide
  have hfull : (c.sendCopied q (ascii "ab")).1 ≠ [] :=
    List.append_ne_nil_of_right_ne_nil _ (by decide)
  have hcut : Uncut (c.addHost q).lineText.length
      (sentFields [⟨HeaderId.host.standardName,32::ascii "h"⟩] 0)
      [(c.sendCopied q (ascii "ab")).1] := TxRequest.message_uncut hu 0 (ascii "ab")
  obtain ⟨quiet,loud,hout,-,hne,hall⟩ := copied_body_lost c hq hu
    (List.forall_mem_singleton.mpr hfull) List.flatten_singleton hcut
  exact ⟨quiet,loud,hout,hne,fun a ha => ⟨(hall a ha).1,(hall a ha).2.2.2⟩⟩

end Exchanges

end HttpClient

end RethinkLog.Via
