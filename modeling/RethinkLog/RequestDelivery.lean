import RethinkLog.MessageBody
import RethinkLog.RequestReading

/-!
# Requests that arrive as they were sent

What a client writes for a request is read by the receiver of a server as it
was sent, under the conditions that hold for a response: no packet begins in a
line end of the fields, and the length is that of the body. A method that is
not in capitals is never read.
-/

set_option autoImplicit false

namespace RethinkLog.Via
open Incremental

namespace RequestLine

def closed (l : RequestLine) : RequestLine := { l with valid := true }

def Sound (l : RequestLine) : Prop := l.valid = false ∧ l.fail = false

theorem parse_loop : Loop parse IsDone parseChar Sound closed where
  nil := fun l hl hd => parse_nil hl.1 hd
  cons := fun l c cs hl hd ht => parse_char hl.2 hd ht cs
  done := by
    intro l cs hl hd
    cases cs with
    | nil => simp [parse, closed, show l.state = .httpEnd from hd]
    | cons c cs => simp [parse, closed, show l.state = .httpEnd from hd]
  keeps := by
    rintro l c ⟨hv,hf⟩ -
    exact ⟨(parseChar_flags l c).1.trans hv,(parseChar_flags l c).2.trans hf⟩

theorem parse_valid (l : RequestLine) (hv : l.valid = false) (cs : Bytes) :
    (l.parse cs).2.1.valid = (l.parse cs).1 := by
  induction cs generalizing l with
  | nil => rfl
  | cons c cs ih =>
    have hchar := (parseChar_flags l c).1.trans hv
    rw [parse]
    split
    · rfl
    · split
      · exact ih _ hchar
      · exact hchar

def majoring (m u w : Bytes) : RequestLine :=
  ⟨m,u,Int32.ofNat (Decimal.value w),0,.httpMajor,w ≠ [],false,false,false⟩

def minoring (m u : Bytes) (a : Int32) (w : Bytes) : RequestLine :=
  ⟨m,u,a,Int32.ofNat (Decimal.value w),.httpMinor,true,w ≠ [],false,false⟩

theorem name_takes (m u : Bytes) (hu : u ≠ []) :
    Takes IsDone parseChar (targeting m u) (32::ascii "HTTP/") (majoring m u []) := by
  rw [show ascii "HTTP/" = [72,84,84,80,47] by decide]
  have hblank : (targeting m u).parseChar 32 = (true,⟨m,u,0,0,.http,false,false,false,false⟩) := by
    simp [parseChar, targeting, isEndOfLine, isSpaceOrTab, hu]
  refine .next (by simp [IsDone, targeting]) hblank ?_
  iterate 5 refine .next (by simp [IsDone]) rfl ?_
  exact .nil _

theorem major_takes (m u : Bytes) {a : Int32} (ha : 0 ≤ a) :
    Takes IsDone parseChar (majoring m u []) (Decimal.integer a.toInt ++ [46])
      (minoring m u a []) := by
  obtain ⟨n,rfl,hn⟩ := integer_natural ha
  have hdigits : Takes IsDone parseChar (majoring m u []) (Decimal.natural n)
      (majoring m u (Decimal.natural n)) :=
    Takes.repeat (majoring m u) (fun w => by simp [IsDone, majoring]) []
      (fun c hc w => by simp [parseChar, majoring, natural_digits hc, value_readDigit])
  have hpoint : parseChar (majoring m u (Decimal.natural n)) 46 =
      (true,minoring m u (Int32.ofNat n) []) := by
    simp [parseChar, majoring, minoring, Decimal.natural_ne_nil, isDigit, Decimal.IsDigit,
      Decimal.value_natural]
  rw [hn]
  exact hdigits.trans (.next (by simp [IsDone, majoring]) hpoint (.nil _))

theorem minor_takes (m u : Bytes) (a : Int32) {b : Int32} (hb : 0 ≤ b) :
    Takes IsDone parseChar (minoring m u a []) (Decimal.integer b.toInt ++ crlf)
      ⟨m,u,a,b,.httpEnd,true,true,false,false⟩ := by
  obtain ⟨n,rfl,hn⟩ := integer_natural hb
  have hdigits : Takes IsDone parseChar (minoring m u a []) (Decimal.natural n)
      (minoring m u a (Decimal.natural n)) :=
    Takes.repeat (minoring m u a) (fun w => by simp [IsDone, minoring]) []
      (fun c hc w => by simp [parseChar, minoring, natural_digits hc, value_readDigit])
  have hreturn : parseChar (minoring m u a (Decimal.natural n)) 13 =
      (true,⟨m,u,a,Int32.ofNat n,.httpLF,true,true,false,false⟩) := by
    simp [parseChar, minoring, Decimal.natural_ne_nil, isDigit, Decimal.IsDigit, isEndOfLine,
      Decimal.value_natural]
  rw [hn]
  exact hdigits.trans (.next (by simp [IsDone, minoring]) hreturn
    (.next (by simp [IsDone]) rfl (.nil _)))

theorem version_takes (m u : Bytes) (hu : u ≠ []) {a b : Int32} (ha : 0 ≤ a) (hb : 0 ≤ b) :
    Takes IsDone parseChar (targeting m u) (32::(httpVersion a b ++ crlf))
      ⟨m,u,a,b,.httpEnd,true,true,false,false⟩ := by
  have htext : 32::(httpVersion a b ++ crlf) = (32::ascii "HTTP/") ++
      ((Decimal.integer a.toInt ++ [46]) ++ (Decimal.integer b.toInt ++ crlf)) := by
    simp [httpVersion]
  rw [htext]
  exact (name_takes m u hu).trans ((major_takes m u ha).trans (minor_takes m u a hb))

end RequestLine

namespace TxRequest

structure WellFormed (r : TxRequest) : Prop where
  called : r.method ≠ []
  method : ∀ c ∈ r.method, isUpper c = true
  targeted : r.uri ≠ []
  uri : ∀ c ∈ r.uri, (isEndOfLine c || isSpaceOrTab c) = false
  major : 0 ≤ r.majorVersion
  minor : 0 ≤ r.minorVersion

instance (r : TxRequest) : Decidable r.WellFormed :=
  decidable_of_iff (r.method ≠ [] ∧ r.method.all isUpper = true ∧ r.uri ≠ [] ∧
      r.uri.all (fun c => !(isEndOfLine c || isSpaceOrTab c)) = true ∧
      0 ≤ r.majorVersion ∧ 0 ≤ r.minorVersion) <| by
    simp only [List.all_eq_true, Bool.not_eq_true']
    exact ⟨fun h => ⟨h.1,h.2.1,h.2.2.1,h.2.2.2.1,h.2.2.2.2.1,h.2.2.2.2.2⟩,
      fun h => ⟨h.called,h.method,h.targeted,h.uri,h.major,h.minor⟩⟩

def complete (r : TxRequest) : RequestLine :=
  ⟨r.method,r.uri,r.majorVersion,r.minorVersion,.httpEnd,true,true,false,false⟩

def isHead (r : TxRequest) : Bool := r.method = ascii "HEAD"

theorem line_takes {r : TxRequest} (hr : r.WellFormed) :
    Takes RequestLine.IsDone RequestLine.parseChar .cleared r.lineText r.complete := by
  have hmethod : Takes RequestLine.IsDone RequestLine.parseChar .cleared r.method
      (naming r.method) := method_takes [] r.method hr.method
  have hblank : (naming r.method).parseChar 32 = (true,targeting r.method []) := by
    simp [RequestLine.parseChar, naming, targeting, isUpper, isSpaceOrTab, hr.called]
  have huri : Takes RequestLine.IsDone RequestLine.parseChar (targeting r.method []) r.uri
      (targeting r.method r.uri) := uri_takes r.method [] r.uri hr.uri
  have htext : r.lineText = r.method ++ 32::(r.uri ++
      32::(httpVersion r.majorVersion r.minorVersion ++ crlf)) := by simp [lineText]
  rw [htext]
  exact hmethod.trans (.next (by simp [RequestLine.IsDone, naming]) hblank
    (huri.trans (RequestLine.version_takes _ _ hr.targeted hr.major hr.minor)))

end TxRequest

theorem RxRequest.parses : Parses RequestLine.parse RequestLine.valid RequestLine.fail
    RxRequest.mk RxRequest.parse (fun r => r.line.fail) where
  lost := fun _ _ _ => rfl
  waits := fun l cs hv hd => (l.parse_valid hv cs).trans hd
  line := by
    intro l h cs hv hd
    simp [RxRequest.parse, hv, hd]
  through := by
    intro l h cs hv hd
    have hvalid := (l.parse_valid hv cs).trans hd
    simp [RxRequest.parse, hv, hd, hvalid]
  headers := by
    intro l h cs hl hv
    simp [RxRequest.parse, RxRequest.parseHeaders, hl, hv]

theorem TxRequest.message_uncut {r : TxRequest} {fields : List Field}
    (hu : Unsized r.headerString fields) (size : ℕ) (t : Bytes) :
    Uncut r.lineText.length (sentFields fields size) [r.message size ++ t] := by
  apply uncut_whole
  rw [message, hu.headerText_eq]
  simp

namespace RxRequest
variable {r : TxRequest} (hr : r.WellFormed) {fields : List Field}
  (hw : ∀ f ∈ fields, f.WellFormed) (hp : ∀ f ∈ fields, f.name.all Field.plain = true)
include hr hw hp

theorem text_fed {packets : List Bytes} {t : Bytes} (hfull : ∀ p ∈ packets, p ≠ [])
    (hflat : packets.flatten = r.lineText ++ (fieldsText fields ++ t)) :
    ∃ h rest ps, feed parse (fun r => r.line.fail) .cleared packets =
        some (⟨r.complete.closed,h,true⟩,rest,ps) ∧
      h.fields <+: fields.map Field.kept ∧
      (h.fields = fields.map Field.kept ↔ Uncut r.lineText.length fields packets) ∧
      (Uncut r.lineText.length fields packets → rest++ps.flatten = t) ∧ (∀ q ∈ ps, q ≠ []) := by
  have hsound : RequestLine.cleared.Sound := ⟨rfl,rfl⟩
  exact parses.head_fed RequestLine.parse_loop (fun l hl => hl.2) hsound rfl
    (TxRequest.line_takes hr) rfl ⟨rfl,rfl⟩ (by simp [TxRequest.lineText]) hw hp hfull hflat

theorem text_whole (t : Bytes) : ∃ h : MessageHeaders, h.fields = fields.map Field.kept ∧
    cleared.parse (r.lineText ++ (fieldsText fields ++ t)) =
      (true,⟨r.complete.closed,h,true⟩,t) := by
  have huncut : Uncut r.lineText.length fields [r.lineText ++ (fieldsText fields ++ t)] := by
    apply uncut_whole
    simp
  have hflat : [r.lineText ++ (fieldsText fields ++ t)].flatten =
      r.lineText ++ (fieldsText fields ++ t) := List.flatten_singleton
  obtain ⟨h,rest,ps,hfed,-,hfields,hrest,-⟩ :=
    text_fed hr hw hp (by simp [TxRequest.lineText]) hflat
  obtain ⟨hparse,rfl⟩ := feed_one hfed
  rw [hparse, ← hrest huncut, List.flatten_nil, List.append_nil]
  exact ⟨h,hfields.mpr huncut,rfl⟩

end RxRequest

namespace RequestReceiver

def head (rx : RequestReceiver) (cs : Bytes) : Parsed RequestReceiver :=
  ((rx.request.parse cs).1,{ rx with request := (rx.request.parse cs).2.1 },
    (rx.request.parse cs).2.2)

def bearing (r : RxRequest) (body : Bytes) : RequestReceiver :=
  { cleared with request := r, body := body }

def bearingAll (r : RxRequest) (body : Bytes) : RequestReceiver :=
  { bearing r body with
    isHead := r.shown.isHead
    request := r.translated }

theorem receive_headed : Headed receive head (fun rx => rx.request.line.fail)
    (fun rx => rx.request.valid) (fun parsed rx cs => rx.receiveContent parsed cs)
    .incomplete .invalid cleared where
  done := by
    intro rx cs hv hd
    rw [receive, receiveWith, hv, if_neg (by simp)]
    exact if_pos hd
  stop := by
    intro rx cs hv hd hr
    rw [receive, receiveWith, hv, if_neg (by simp)]
    exact (if_neg (by simp [show (rx.request.parse cs).1 = false from hd])).trans (if_pos hr)
  more := by
    intro rx cs hv hd hr
    rw [receive, receiveWith, hv, if_neg (by simp)]
    exact (if_neg (by simp [show (rx.request.parse cs).1 = false from hd])).trans (if_neg hr)
  within := fun rx cs hv => if_pos hv
  held := by
    intro rx cs hv
    have hvalid := rx.request.parse_valid cs
    rwa [show rx.request.valid = false from hv, Bool.false_or] at hvalid

theorem receive_carrier : Carrier receive (fun parsed rx cs => rx.receiveContent parsed cs)
    RxRequest.headers bearing bearingAll (fun rx => rx.request.valid) cleared where
  holds := fun _ _ => rfl
  within := receive_headed.within
  content := by
    intro r b parsed cs hc
    rw [receiveContent, receiveContentWith,
      show (bearing r b).request.shown.isChunked = false from hc, if_neg (by simp)]
    rfl

theorem head_within {r : RxRequest} {packets ps : List Bytes} {rest : Bytes}
    (h : feed RxRequest.parse (fun r => r.line.fail) .cleared packets = some (r,rest,ps)) :
    feed head (fun rx => rx.request.line.fail) cleared packets = some (bearing r [],rest,ps) := by
  have hwithin : feed head (fun rx => rx.request.line.fail) cleared packets =
      (feed RxRequest.parse (fun r => r.line.fail) .cleared packets).map
        (fun x => (bearing x.1 [],x.2)) :=
    feed_within (fun _ => True) RequestReceiver.request (fun rx r => { rx with request := r })
      (fun rx r => { rx with request := r }) (by intro k cs _; split <;> rfl)
      (fun _ _ _ _ => trivial) (fun _ _ => rfl) (fun _ _ _ => rfl) (fun _ _ _ => rfl) trivial
      packets
  rw [hwithin, h]
  rfl

theorem request_fed {r : TxRequest} (hr : r.WellFormed) {fields : List Field}
    (hu : Unsized r.headerString fields) (size : ℕ) {body : Bytes} {packets : List Bytes}
    (hfull : ∀ p ∈ packets, p ≠ []) (hp : packets.flatten = r.message size ++ body) :
    ∃ h rest ps, feed head (fun rx => rx.request.line.fail) cleared packets =
        some (bearing ⟨r.complete.closed,h,true⟩ [],rest,ps) ∧
      h.fields <+: (sentFields fields size).map Field.kept ∧
      (h.fields = (sentFields fields size).map Field.kept ↔
        Uncut r.lineText.length (sentFields fields size) packets) ∧
      (Uncut r.lineText.length (sentFields fields size) packets → rest++ps.flatten = body) ∧
      (∀ q ∈ ps, q ≠ []) := by
  rw [TxRequest.message, hu.headerText_eq, List.append_assoc] at hp
  obtain ⟨h,rest,ps,hfed,hrest⟩ :=
    RxRequest.text_fed hr (hu.sent_wellFormed size) (hu.sent_plain size) hfull hp
  exact ⟨h,rest,ps,head_within hfed,hrest⟩

theorem request_carried {r : TxRequest} (hr : r.WellFormed) {fields : List Field}
    (hu : Unsized r.headerString fields) {size : ℕ} {body : Bytes} (hn : body.length < 2^63)
    {packets : List Bytes} (hfull : ∀ p ∈ packets, p ≠ [])
    (hp : packets.flatten = r.message size ++ body)
    (hcut : Uncut r.lineText.length (sentFields fields size) packets)
    (hsize : (size : ℤ).bmod (2^32) = body.length) :
    ∃ h quiet, outputs receive cleared packets =
        quiet ++ [(.valid,bearingAll ⟨r.complete.closed,h,true⟩ body)] ∧
      (∀ a ∈ quiet, a.1 = .incomplete) ∧ h.fields = (sentFields fields size).map Field.kept := by
  obtain ⟨h,rest,ps,hfed,hpre,hfields,hrest,hps⟩ := request_fed hr hu size hfull hp
  have hkept := hfields.mpr hcut
  obtain ⟨quiet,hout,hall⟩ := receive_carrier.carried receive_headed (hu.not_chunked hpre) rfl
    hfed hn ((hu.contentLength_iff hkept hn).mpr hsize) hps (hrest hcut)
  exact ⟨h,quiet,hout,hall,hkept⟩

theorem translated_method (r : Http.RxRequest) :
    r.translated.method = if r.isHead then ascii "GET" else r.method := by
  unfold Http.RxRequest.translated
  split <;> rfl

/-- The packets of a request are waited for, and the last brings it as it was
sent with a body; a HEAD request is brought as a GET request. -/
def Delivered (r : TxRequest) (fields : List Field) (body : Bytes) (packets : List Bytes) : Prop :=
  ∃ quiet rx, outputs receive cleared packets = quiet ++ [(.valid,rx)] ∧
    (∀ a ∈ quiet, a.1 = .incomplete) ∧
    (rx.request.line.method = (if r.isHead then ascii "GET" else r.method) ∧
      rx.isHead = r.isHead ∧ rx.request.line.uri = r.uri ∧
      rx.request.line.majorVersion = r.majorVersion ∧
      rx.request.line.minorVersion = r.minorVersion) ∧
    (∀ name, rx.request.headers.find name = ((fields.map Field.kept).lookup name).getD []) ∧
    rx.body = body

theorem delivered_whole {r : TxRequest} (hr : r.WellFormed) {fields : List Field}
    (hu : Unsized r.headerString fields) {size : ℕ} {body : Bytes} (hn : body.length < 2^63)
    {packets : List Bytes} (hfull : ∀ p ∈ packets, p ≠ [])
    (hp : packets.flatten = r.message size ++ body)
    (hcut : Uncut r.lineText.length (sentFields fields size) packets)
    (hsize : (size : ℤ).bmod (2^32) = body.length) :
    Delivered r (sentFields fields size) body packets := by
  obtain ⟨h,quiet,hout,hall,hkept⟩ := request_carried hr hu hn hfull hp hcut hsize
  refine ⟨quiet,_,hout,hall,⟨translated_method _,rfl,rfl,rfl,rfl⟩,fun name => ?_,rfl⟩
  rw [← hkept]
  rfl

/-- A request arrives as it was sent exactly when no packet begins in a line end of
its fields, and its length, as an `int`, is that of its body. -/
theorem request_delivered_iff {r : TxRequest} (hr : r.WellFormed) {fields : List Field}
    (hu : Unsized r.headerString fields) (size : ℕ) {body : Bytes} (hn : body.length < 2^63)
    {packets : List Bytes} (hfull : ∀ p ∈ packets, p ≠ [])
    (hp : packets.flatten = r.message size ++ body) :
    Delivered r (sentFields fields size) body packets ↔
      Uncut r.lineText.length (sentFields fields size) packets ∧
        (size : ℤ).bmod (2^32) = body.length := by
  constructor
  · rintro ⟨quiet,rx,hout,hall,-,hfind,hbody⟩
    obtain ⟨h,rest,ps,hfed,hpre,hfields,-⟩ := request_fed hr hu size hfull hp
    obtain ⟨b,rfl,hlength⟩ := receive_carrier.returned receive_headed (hu.not_chunked hpre)
      rfl hfed hout hall
    have hname := hfind HeaderId.contentLength.lowercaseName
    rw [hu.sent_length size] at hname
    have hkept := hu.lookup_prefix hpre hname
    rw [show b = body from hbody] at hlength
    exact ⟨hfields.mp hkept,(hu.contentLength_iff hkept hn).mp hlength.symm⟩
  · exact fun h => delivered_whole hr hu hn hfull hp h.1 h.2

theorem request_delivered_whole :
    let r : TxRequest := ⟨ascii "PUT",ascii "/",1,1,toHeader HeaderId.host.standardName (ascii "h")⟩
    let fields : List Field := [⟨HeaderId.host.standardName,32::ascii "h"⟩]
    Delivered r (sentFields fields 2) (ascii "ab") [r.message 2 ++ ascii "ab"] ∧
      ¬ Delivered r (sentFields fields 3) (ascii "ab") [r.message 3 ++ ascii "ab"] := by
  intro r fields
  have hr : r.WellFormed := by decide
  have hu : Unsized r.headerString fields := by decide
  have hlength : (ascii "ab").length < 2^63 := by decide
  have hfull (size : ℕ) : ∀ p ∈ [r.message size ++ ascii "ab"], p ≠ [] :=
    List.forall_mem_singleton.mpr (List.append_ne_nil_of_right_ne_nil _ (by decide))
  have hiff (size : ℕ) := request_delivered_iff hr hu size hlength (hfull size)
    List.flatten_singleton
  constructor
  · exact (hiff 2).mpr ⟨TxRequest.message_uncut hu 2 _,by decide⟩
  · exact fun h => absurd ((hiff 3).mp h).2 (by decide)

end RequestReceiver

end RethinkLog.Via
