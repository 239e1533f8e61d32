import RethinkLog.MessageBody

/-!
# Responses as a client receives them

A client parses the line of a response, its headers, and then its body or its
chunks. The line may be cut anywhere. A response whose header string names no
length arrives as it was sent exactly when no packet begins in a line end of
its fields and the length, as an `int`, is that of the body.
-/

set_option autoImplicit false

namespace RethinkLog.Via
open Incremental

inductive ResponseState where
  | http
  | httpT1
  | httpT2
  | httpP
  | httpSlash
  | httpMajor
  | httpMinor
  | httpStatus
  | httpReason
  | httpLF
  | httpEnd
  deriving DecidableEq, Repr

structure ResponseLine where
  majorVersion : Int32
  minorVersion : Int32
  status : Int32
  reasonPhrase : Bytes
  state : ResponseState
  majorRead : Bool
  minorRead : Bool
  statusRead : Bool
  valid : Bool
  fail : Bool
  deriving DecidableEq, Repr

namespace ResponseLine

def cleared : ResponseLine := ⟨0,0,0,[],.http,false,false,false,false,false⟩

def expect (l : ResponseLine) (c want : UInt8) (next : ResponseState) : Bool × ResponseLine :=
  if c = want then (true, { l with state := next }) else (false, l)

def parseChar (l : ResponseLine) (c : UInt8) : Bool × ResponseLine :=
  match l.state with
  | .http => if isSpaceOrTab c then (true, l) else l.expect c 72 .httpT1
  | .httpT1 => l.expect c 84 .httpT2
  | .httpT2 => l.expect c 84 .httpP
  | .httpP => l.expect c 80 .httpSlash
  | .httpSlash => l.expect c 47 .httpMajor
  | .httpMajor =>
    if isDigit c then
      (true, { l with majorRead := true, majorVersion := l.majorVersion*10+readDigit c })
    else if l.majorRead && c = 46 then (true, { l with state := .httpMinor })
    else (false, l)
  | .httpMinor =>
    if isDigit c then
      (true, { l with minorRead := true, minorVersion := l.minorVersion*10+readDigit c })
    else if l.minorRead && isSpaceOrTab c then (true, { l with state := .httpStatus })
    else (false, l)
  | .httpStatus =>
    if isDigit c then
      (true, { l with statusRead := true, status := l.status*10+readDigit c })
    else if isSpaceOrTab c then
      (true, if l.statusRead then { l with state := .httpReason } else l)
    else (false, l)
  | .httpReason =>
    if isEndOfLine c then
      (true, { l with state := if c = 13 then .httpLF else .httpEnd })
    else if l.reasonPhrase ≠ [] || !isSpaceOrTab c then
      (true, { l with reasonPhrase := l.reasonPhrase++[c] })
    else (true, l)
  | .httpLF => l.expect c 10 .httpEnd
  | .httpEnd => (false, l)

def parse (l : ResponseLine) : Bytes → Parsed ResponseLine
  | [] => (l.state = .httpEnd, { l with valid := l.state = .httpEnd }, [])
  | c::cs =>
    if l.state = .httpEnd then (true, { l with valid := true }, c::cs)
    else if (l.parseChar c).1 then { (l.parseChar c).2 with fail := false }.parse cs
    else (false, { (l.parseChar c).2 with fail := true }, cs)

end ResponseLine

structure RxResponse where
  line : ResponseLine
  headers : MessageHeaders
  valid : Bool
  deriving DecidableEq, Repr

namespace RxResponse

def cleared : RxResponse := ⟨.cleared,.cleared,false⟩

def parseLine (r : RxResponse) (cs : Bytes) : Parsed RxResponse :=
  ((r.line.parse cs).1,{ r with line := (r.line.parse cs).2.1 },(r.line.parse cs).2.2)

def parseHeaders (r : RxResponse) (cs : Bytes) : Parsed RxResponse :=
  if r.headers.valid then (true, { r with valid := true }, cs)
  else
    let p := r.headers.parse cs
    (p.1, { r with headers := p.2.1, valid := r.valid || p.1 }, p.2.2)

def parse (r : RxResponse) (cs : Bytes) : Parsed RxResponse :=
  if r.line.valid then r.parseHeaders cs
  else if (r.parseLine cs).1 then (r.parseLine cs).2.1.parseHeaders (r.parseLine cs).2.2
  else r.parseLine cs

end RxResponse

structure ResponseReceiver where
  response : RxResponse
  chunk : RxChunk
  body : Bytes
  deriving DecidableEq, Repr

namespace ResponseReceiver

def cleared : ResponseReceiver := ⟨.cleared,.cleared,[]⟩

def receiveBody (rx : ResponseReceiver) (cs : Bytes) : RxState × ResponseReceiver :=
  settled cleared (fun body => { rx with body := body }) (fun body => { rx with body := body })
    (rx.response.headers.takeBody rx.body cs)

/-- The next chunk; `parsed` when its packet has completed the response. -/
def receiveChunk (rx : ResponseReceiver) (parsed : Bool) (cs : Bytes) :
    RxState × ResponseReceiver :=
  let p := rx.chunk.next.parse cs
  let rx := { rx with chunk := p.2.1 }
  if p.1 = false ∧ p.2.2 ≠ [] then (.invalid, cleared)
  else if parsed then (.valid, rx)
  else if rx.chunk.valid then (.chunk, rx)
  else (.incomplete, rx)

def receiveContent (rx : ResponseReceiver) (parsed : Bool) (cs : Bytes) :
    RxState × ResponseReceiver :=
  if rx.response.headers.isChunked then rx.receiveChunk parsed cs else rx.receiveBody cs

def receive (rx : ResponseReceiver) (cs : Bytes) : RxState × ResponseReceiver :=
  if rx.response.valid then rx.receiveContent false cs
  else
    let p := rx.response.parse cs
    let rx := { rx with response := p.2.1, chunk := .cleared }
    if p.1 then rx.receiveContent true p.2.2
    else if p.2.2 ≠ [] ∨ p.2.1.line.fail then (.invalid, cleared)
    else (.incomplete, rx)

end ResponseReceiver

namespace ResponseLine

def IsDone (l : ResponseLine) : Prop := l.state = .httpEnd

def closed (l : ResponseLine) : ResponseLine := { l with valid := true }

def Sound (l : ResponseLine) : Prop := l.valid = false ∧ l.fail = false

theorem parseChar_flags (l : ResponseLine) (c : UInt8) :
    (l.parseChar c).2.valid = l.valid ∧ (l.parseChar c).2.fail = l.fail := by
  unfold parseChar expect
  split <;> (repeat' split) <;> simp

theorem parse_loop : Loop parse IsDone parseChar Sound closed where
  nil := by
    rintro ⟨a,b,s,rp,st,ar,br,sr,v,f⟩ ⟨hv,-⟩ hd
    obtain rfl : v = false := hv
    simp [parse, show st ≠ .httpEnd from hd]
  cons := by
    intro l c cs hl hd ht
    have hfail := (l.parseChar_flags c).2.trans hl.2
    rw [parse, if_neg (show ¬ l.state = .httpEnd from hd), if_pos ht]
    generalize (l.parseChar c).2 = k at hfail ⊢
    obtain ⟨a,b,s,rp,st,ar,br,sr,v,f⟩ := k
    obtain rfl : f = false := hfail
    rfl
  done := by
    intro l cs hl hd
    cases cs with
    | nil => simp [parse, closed, show l.state = .httpEnd from hd]
    | cons c cs => simp [parse, closed, show l.state = .httpEnd from hd]
  keeps := by
    rintro l c ⟨hv,hf⟩ -
    exact ⟨(l.parseChar_flags c).1.trans hv,(l.parseChar_flags c).2.trans hf⟩

theorem parse_valid (l : ResponseLine) (hv : l.valid = false) (cs : Bytes) :
    (l.parse cs).2.1.valid = (l.parse cs).1 := by
  induction cs generalizing l with
  | nil => rfl
  | cons c cs ih =>
    have hchar := (l.parseChar_flags c).1.trans hv
    rw [parse]
    split
    · rfl
    · split
      · exact ih _ hchar
      · exact hchar

end ResponseLine

namespace TxResponse

structure WellFormed (r : TxResponse) : Prop where
  major : 0 ≤ r.majorVersion
  minor : 0 ≤ r.minorVersion
  status : 0 ≤ r.status
  line : ∀ c ∈ r.reasonPhrase, isEndOfLine c = false
  blank : r.reasonPhrase.head?.any isSpaceOrTab = false

instance (r : TxResponse) : Decidable r.WellFormed :=
  decidable_of_iff (0 ≤ r.majorVersion ∧ 0 ≤ r.minorVersion ∧ 0 ≤ r.status ∧
      r.reasonPhrase.all (fun c => !isEndOfLine c) = true ∧
      r.reasonPhrase.head?.any isSpaceOrTab = false) <| by
    simp only [List.all_eq_true, Bool.not_eq_true']
    exact ⟨fun h => ⟨h.1,h.2.1,h.2.2.1,h.2.2.2.1,h.2.2.2.2⟩,
      fun h => ⟨h.major,h.minor,h.status,h.line,h.blank⟩⟩

def complete (r : TxResponse) : ResponseLine :=
  ⟨r.majorVersion,r.minorVersion,r.status,r.reasonPhrase,.httpEnd,true,true,true,false,false⟩

theorem message_uncut {r : TxResponse} {fields : List Field}
    (hu : Unsized r.headerString fields) (size : ℕ) (t : Bytes) :
    Uncut r.lineText.length (sentFields fields size) [r.message size ++ t] := by
  apply uncut_whole
  rw [message, hu.headerText_eq]
  simp

end TxResponse

namespace ResponseLine

def majoring (w : Bytes) : ResponseLine :=
  ⟨Int32.ofNat (Decimal.value w),0,0,[],.httpMajor,w ≠ [],false,false,false,false⟩

def minoring (a : Int32) (w : Bytes) : ResponseLine :=
  ⟨a,Int32.ofNat (Decimal.value w),0,[],.httpMinor,true,w ≠ [],false,false,false⟩

def grading (a b : Int32) (w : Bytes) : ResponseLine :=
  ⟨a,b,Int32.ofNat (Decimal.value w),[],.httpStatus,true,true,w ≠ [],false,false⟩

def reasoning (a b s : Int32) (w : Bytes) : ResponseLine :=
  ⟨a,b,s,w,.httpReason,true,true,true,false,false⟩

theorem name_takes : Takes IsDone parseChar .cleared (ascii "HTTP/") (majoring []) := by
  rw [show ascii "HTTP/" = [72,84,84,80,47] by decide]
  iterate 5 refine .next (by simp [IsDone, cleared]) rfl ?_
  exact .nil _

theorem major_takes {a : Int32} (ha : 0 ≤ a) : Takes IsDone parseChar (majoring [])
    (Decimal.integer a.toInt ++ [46]) (minoring a []) := by
  obtain ⟨n,rfl,hn⟩ := integer_natural ha
  have hdigits : Takes IsDone parseChar (majoring []) (Decimal.natural n)
      (majoring (Decimal.natural n)) :=
    Takes.repeat majoring (fun w => by simp [IsDone, majoring]) []
      (fun c hc w => by simp [parseChar, majoring, natural_digits hc, value_readDigit])
  have hpoint : parseChar (majoring (Decimal.natural n)) 46 =
      (true,minoring (Int32.ofNat n) []) := by
    simp [parseChar, majoring, minoring, Decimal.natural_ne_nil, isDigit, Decimal.IsDigit,
      Decimal.value_natural]
  rw [hn]
  exact hdigits.trans (.next (by simp [IsDone, majoring]) hpoint (.nil _))

theorem minor_takes (a : Int32) {b : Int32} (hb : 0 ≤ b) : Takes IsDone parseChar (minoring a [])
    (Decimal.integer b.toInt ++ [32]) (grading a b []) := by
  obtain ⟨n,rfl,hn⟩ := integer_natural hb
  have hdigits : Takes IsDone parseChar (minoring a []) (Decimal.natural n)
      (minoring a (Decimal.natural n)) :=
    Takes.repeat (minoring a) (fun w => by simp [IsDone, minoring]) []
      (fun c hc w => by simp [parseChar, minoring, natural_digits hc, value_readDigit])
  have hblank : parseChar (minoring a (Decimal.natural n)) 32 =
      (true,grading a (Int32.ofNat n) []) := by
    simp [parseChar, minoring, grading, Decimal.natural_ne_nil, isDigit, Decimal.IsDigit,
      isSpaceOrTab, Decimal.value_natural]
  rw [hn]
  exact hdigits.trans (.next (by simp [IsDone, minoring]) hblank (.nil _))

theorem version_takes {a b : Int32} (ha : 0 ≤ a) (hb : 0 ≤ b) :
    Takes IsDone parseChar .cleared (httpVersion a b ++ [32]) (grading a b []) := by
  have htext : httpVersion a b ++ [32] = ascii "HTTP/" ++
      ((Decimal.integer a.toInt ++ [46]) ++ (Decimal.integer b.toInt ++ [32])) := by
    simp [httpVersion]
  rw [htext]
  exact name_takes.trans ((major_takes ha).trans (minor_takes a hb))

theorem status_takes (a b : Int32) {s : Int32} (hs : 0 ≤ s) :
    Takes IsDone parseChar (grading a b []) (Decimal.integer s.toInt ++ [32])
      (reasoning a b s []) := by
  obtain ⟨n,rfl,hn⟩ := integer_natural hs
  have hdigits : Takes IsDone parseChar (grading a b []) (Decimal.natural n)
      (grading a b (Decimal.natural n)) :=
    Takes.repeat (grading a b) (fun w => by simp [IsDone, grading]) []
      (fun c hc w => by simp [parseChar, grading, natural_digits hc, value_readDigit])
  have hblank : parseChar (grading a b (Decimal.natural n)) 32 =
      (true,reasoning a b (Int32.ofNat n) []) := by
    simp [parseChar, grading, reasoning, Decimal.natural_ne_nil, isDigit, Decimal.IsDigit,
      isSpaceOrTab, Decimal.value_natural]
  rw [hn]
  exact hdigits.trans (.next (by simp [IsDone, grading]) hblank (.nil _))

theorem reason_takes (a b s : Int32) {w : Bytes} (hw : ∀ c ∈ w, isEndOfLine c = false)
    (hb : w.head?.any isSpaceOrTab = false) : Takes IsDone parseChar (reasoning a b s [])
      (w++crlf) ⟨a,b,s,w,.httpEnd,true,true,true,false,false⟩ := by
  have hend (v : Bytes) : Takes IsDone parseChar (reasoning a b s v) crlf
      ⟨a,b,s,v,.httpEnd,true,true,true,false,false⟩ :=
    .next (by simp [IsDone, reasoning]) rfl (.next (by simp [IsDone]) rfl (.nil _))
  cases w with
  | nil => exact hend []
  | cons c w =>
    have hfirst : parseChar (reasoning a b s []) c = (true,reasoning a b s [c]) := by
      have hblank : isSpaceOrTab c = false := by simpa using hb
      simp [parseChar, reasoning, hw c (by simp), hblank]
    have hrest : Takes IsDone parseChar (reasoning a b s ([c]++[])) w
        (reasoning a b s ([c]++([]++w))) :=
      Takes.repeat (fun v => reasoning a b s ([c]++v)) (fun v => by simp [IsDone, reasoning]) []
        (fun d hd v => by simp [parseChar, reasoning, hw d (by simp [hd])])
    exact .next (by simp [IsDone, reasoning]) hfirst (hrest.trans (hend (c::w)))

end ResponseLine

namespace TxResponse

theorem line_takes {r : TxResponse} (hr : r.WellFormed) :
    Takes ResponseLine.IsDone ResponseLine.parseChar .cleared r.lineText r.complete := by
  have htext : r.lineText = (httpVersion r.majorVersion r.minorVersion ++ [32]) ++
      ((Decimal.integer r.status.toInt ++ [32]) ++ (r.reasonPhrase ++ crlf)) := by simp [lineText]
  rw [htext]
  exact (ResponseLine.version_takes hr.major hr.minor).trans
    ((ResponseLine.status_takes _ _ hr.status).trans
      (ResponseLine.reason_takes _ _ _ hr.line hr.blank))

end TxResponse

namespace RxResponse

theorem parse_valid (r : RxResponse) (cs : Bytes) :
    (r.parse cs).2.1.valid = (r.valid || (r.parse cs).1) := by
  have hheaders (q : RxResponse) (bs : Bytes) :
      (q.parseHeaders bs).2.1.valid = (q.valid || (q.parseHeaders bs).1) := by
    unfold parseHeaders
    split <;> simp
  unfold parse
  split
  · exact hheaders r cs
  · split
    · exact hheaders _ _
    · rename_i hline
      rw [Bool.not_eq_true] at hline
      rw [hline, Bool.or_false]
      rfl

theorem parses : Parses ResponseLine.parse ResponseLine.valid ResponseLine.fail RxResponse.mk
    parse (fun r => r.line.fail) where
  lost := fun _ _ _ => rfl
  waits := fun l cs hv hd => (l.parse_valid hv cs).trans hd
  line := by
    intro l h cs hv hd
    have hline : ((⟨l,h,false⟩ : RxResponse).parseLine cs).1 = false := hd
    rw [parse, if_neg (by simp [hv]), hline, if_neg (by simp)]
    simp [parseLine, hd]
  through := by
    intro l h cs hv hd
    have hline : ((⟨l,h,false⟩ : RxResponse).parseLine cs).1 = true := hd
    have hvalid := (l.parse_valid hv cs).trans hd
    rw [parse, if_neg (by simp [hv]), hline, if_pos rfl, parse, if_pos hvalid]
    rfl
  headers := by
    intro l h cs hl hv
    rw [parse, if_pos hl]
    simp [parseHeaders, hv]

end RxResponse

theorem RxResponse.text_fed {r : TxResponse} (hr : r.WellFormed) {fields : List Field}
    (hw : ∀ f ∈ fields, f.WellFormed) (hp : ∀ f ∈ fields, f.name.all Field.plain = true)
    {packets : List Bytes} {t : Bytes} (hfull : ∀ p ∈ packets, p ≠ [])
    (hflat : packets.flatten = r.lineText ++ (fieldsText fields ++ t)) :
    ∃ h rest ps, feed parse (fun r => r.line.fail) .cleared packets =
        some (⟨r.complete.closed,h,true⟩,rest,ps) ∧
      h.fields <+: fields.map Field.kept ∧
      (h.fields = fields.map Field.kept ↔ Uncut r.lineText.length fields packets) ∧
      (Uncut r.lineText.length fields packets → rest++ps.flatten = t) ∧ (∀ q ∈ ps, q ≠ []) := by
  have hsound : ResponseLine.cleared.Sound := ⟨rfl,rfl⟩
  exact parses.head_fed ResponseLine.parse_loop (fun l hl => hl.2) hsound rfl
    (TxResponse.line_takes hr) rfl ⟨rfl,rfl⟩ (by simp [TxResponse.lineText]) hw hp hfull hflat

namespace ResponseReceiver

def head (rx : ResponseReceiver) (cs : Bytes) : Parsed ResponseReceiver :=
  ((rx.response.parse cs).1,{ rx with response := (rx.response.parse cs).2.1, chunk := .cleared },
    (rx.response.parse cs).2.2)

def holding (r : RxResponse) (body : Bytes) : ResponseReceiver := ⟨r,.cleared,body⟩

theorem receive_headed : Headed receive head (fun rx => rx.response.line.fail)
    (fun rx => rx.response.valid) (fun parsed rx cs => rx.receiveContent parsed cs)
    .incomplete .invalid cleared where
  done := by
    intro rx cs hv hd
    rw [receive, hv, if_neg (by simp)]
    exact if_pos hd
  stop := by
    intro rx cs hv hd hr
    rw [receive, hv, if_neg (by simp)]
    exact (if_neg (by simp [show (rx.response.parse cs).1 = false from hd])).trans (if_pos hr)
  more := by
    intro rx cs hv hd hr
    rw [receive, hv, if_neg (by simp)]
    exact (if_neg (by simp [show (rx.response.parse cs).1 = false from hd])).trans (if_neg hr)
  within := fun rx cs hv => if_pos hv
  held := by
    intro rx cs hv
    have hvalid := rx.response.parse_valid cs
    rwa [show rx.response.valid = false from hv, Bool.false_or] at hvalid

theorem receive_carrier : Carrier receive (fun parsed rx cs => rx.receiveContent parsed cs)
    RxResponse.headers holding holding (fun rx => rx.response.valid) cleared where
  holds := fun _ _ => rfl
  within := receive_headed.within
  content := by
    intro r b parsed cs hc
    rw [receiveContent, show (holding r b).response.headers.isChunked = false from hc,
      if_neg (by simp), receiveBody]
    rw [show (holding r b).response.headers.takeBody (holding r b).body cs =
      r.headers.takeBody b cs from rfl]
    generalize r.headers.takeBody b cs = p
    obtain ⟨st,body⟩ := p
    cases st <;> rfl

theorem head_within {r : RxResponse} {packets ps : List Bytes} {rest : Bytes}
    (h : feed RxResponse.parse (fun r => r.line.fail) .cleared packets = some (r,rest,ps)) :
    feed head (fun rx => rx.response.line.fail) cleared packets = some (holding r [],rest,ps) := by
  have hwithin : feed head (fun rx => rx.response.line.fail) cleared packets =
      (feed RxResponse.parse (fun r => r.line.fail) .cleared packets).map
        (fun x => (holding x.1 [],x.2)) :=
    feed_within (fun _ => True) ResponseReceiver.response
      (fun rx r => { rx with response := r, chunk := .cleared })
      (fun rx r => { rx with response := r, chunk := .cleared }) (by intro k cs _; split <;> rfl)
      (fun _ _ _ _ => trivial) (fun _ _ => rfl) (fun _ _ _ => rfl) (fun _ _ _ => rfl) trivial
      packets
  rw [hwithin, h]
  rfl

theorem response_fed {r : TxResponse} (hr : r.WellFormed) {fields : List Field}
    (hu : Unsized r.headerString fields) (size : ℕ) {body : Bytes} {packets : List Bytes}
    (hfull : ∀ p ∈ packets, p ≠ []) (hp : packets.flatten = r.message size ++ body) :
    ∃ h rest ps, feed head (fun rx => rx.response.line.fail) cleared packets =
        some (holding ⟨r.complete.closed,h,true⟩ [],rest,ps) ∧
      h.fields <+: (sentFields fields size).map Field.kept ∧
      (h.fields = (sentFields fields size).map Field.kept ↔
        Uncut r.lineText.length (sentFields fields size) packets) ∧
      (Uncut r.lineText.length (sentFields fields size) packets → rest++ps.flatten = body) ∧
      (∀ q ∈ ps, q ≠ []) := by
  rw [TxResponse.message, hu.headerText_eq, List.append_assoc] at hp
  obtain ⟨h,rest,ps,hfed,hrest⟩ :=
    RxResponse.text_fed hr (hu.sent_wellFormed size) (hu.sent_plain size) hfull hp
  exact ⟨h,rest,ps,head_within hfed,hrest⟩

/-- The packets of a response are waited for, and the last brings it as it was
sent with a body. -/
def Delivered (r : TxResponse) (fields : List Field) (body : Bytes) (packets : List Bytes) :
    Prop :=
  ∃ quiet rx, outputs receive cleared packets = quiet ++ [(.valid,rx)] ∧
    (∀ a ∈ quiet, a.1 = .incomplete) ∧
    (rx.response.line.majorVersion = r.majorVersion ∧
      rx.response.line.minorVersion = r.minorVersion ∧ rx.response.line.status = r.status ∧
      rx.response.line.reasonPhrase = r.reasonPhrase) ∧
    (∀ name, rx.response.headers.find name =
      ((fields.map Field.kept).lookup name).getD []) ∧
    rx.body = body

theorem delivered_whole {r : TxResponse} (hr : r.WellFormed) {fields : List Field}
    (hu : Unsized r.headerString fields) {size : ℕ} {body : Bytes} (hn : body.length < 2^63)
    {packets : List Bytes} (hfull : ∀ p ∈ packets, p ≠ [])
    (hp : packets.flatten = r.message size ++ body)
    (hcut : Uncut r.lineText.length (sentFields fields size) packets)
    (hsize : (size : ℤ).bmod (2^32) = body.length) :
    Delivered r (sentFields fields size) body packets := by
  obtain ⟨h,rest,ps,hfed,hpre,hfields,hrest,hps⟩ := response_fed hr hu size hfull hp
  have hkept := hfields.mpr hcut
  obtain ⟨quiet,hout,hall⟩ := receive_carrier.carried receive_headed (hu.not_chunked hpre) rfl
    hfed hn ((hu.contentLength_iff hkept hn).mpr hsize) hps (hrest hcut)
  refine ⟨quiet,_,hout,hall,⟨rfl,rfl,rfl,rfl⟩,fun name => ?_,rfl⟩
  rw [← hkept]
  rfl

/-- A response arrives as it was sent exactly when no packet begins in a line end of
its fields, and its length, as an `int`, is that of its body. -/
theorem response_delivered_iff {r : TxResponse} (hr : r.WellFormed) {fields : List Field}
    (hu : Unsized r.headerString fields) (size : ℕ) {body : Bytes} (hn : body.length < 2^63)
    {packets : List Bytes} (hfull : ∀ p ∈ packets, p ≠ [])
    (hp : packets.flatten = r.message size ++ body) :
    Delivered r (sentFields fields size) body packets ↔
      Uncut r.lineText.length (sentFields fields size) packets ∧
        (size : ℤ).bmod (2^32) = body.length := by
  constructor
  · rintro ⟨quiet,rx,hout,hall,-,hfind,hbody⟩
    obtain ⟨h,rest,ps,hfed,hpre,hfields,-⟩ := response_fed hr hu size hfull hp
    obtain ⟨b,rfl,hlength⟩ := receive_carrier.returned receive_headed (hu.not_chunked hpre)
      rfl hfed hout hall
    have hname := hfind HeaderId.contentLength.lowercaseName
    rw [hu.sent_length size] at hname
    have hkept := hu.lookup_prefix hpre hname
    rw [show b = body from hbody] at hlength
    exact ⟨hfields.mp hkept,(hu.contentLength_iff hkept hn).mp hlength.symm⟩
  · exact fun h => delivered_whole hr hu hn hfull hp h.1 h.2

/-- A line is refused at the sign of a negative number of its version. -/
theorem version_refused {a b : Int32} (h : ¬ (0 ≤ a ∧ 0 ≤ b)) (t : Bytes) :
    cleared.receive (httpVersion a b ++ t) = (.invalid,cleared) := by
  have hrefused : ∃ w l rest, httpVersion a b ++ t = w ++ 45::rest ∧
      Takes ResponseLine.IsDone ResponseLine.parseChar .cleared w l ∧ ¬ l.IsDone ∧
      (l.parseChar 45).1 = false := by
    by_cases ha : 0 ≤ a
    · obtain ⟨n,hn⟩ := integer_negative (fun hb => h ⟨ha,hb⟩)
      refine ⟨_,_,Decimal.natural n ++ t,?_,ResponseLine.name_takes.trans
        (ResponseLine.major_takes ha),by simp [ResponseLine.IsDone, ResponseLine.minoring],rfl⟩
      simp [httpVersion, hn]
    · obtain ⟨n,hn⟩ := integer_negative ha
      refine ⟨_,_,Decimal.natural n ++ 46::(Decimal.integer b.toInt ++ t),?_,
        ResponseLine.name_takes,by simp [ResponseLine.IsDone, ResponseLine.majoring],rfl⟩
      simp [httpVersion, hn]
  obtain ⟨w,l,rest,htext,htakes,hmore,hsign⟩ := hrefused
  have hsound : ResponseLine.cleared.Sound := ⟨rfl,rfl⟩
  have hline : ResponseLine.cleared.parse (w ++ 45::rest) =
      (false,{ (l.parseChar 45).2 with fail := true },rest) := by
    rw [(ResponseLine.parse_loop.takes hsound htakes _).1, ResponseLine.parse,
      if_neg (show ¬ l.state = .httpEnd from hmore), hsign, if_neg (by simp)]
  have hhead : cleared.response.parse (w ++ 45::rest) =
      (false,⟨{ (l.parseChar 45).2 with fail := true },.cleared,false⟩,rest) := by
    have hparse := RxResponse.parses.line .cleared .cleared (w ++ 45::rest) rfl (by rw [hline])
    rw [hline] at hparse
    exact hparse
  rw [htext]
  exact receive_headed.stop cleared _ rfl (by rw [head, hhead]) (.inr (by rw [head, hhead]))

theorem response_delivered_whole :
    let r : TxResponse := ⟨1,1,200,ascii "OK",toHeader HeaderId.server.standardName (ascii "s")⟩
    let fields : List Field := [⟨HeaderId.server.standardName,32::ascii "s"⟩]
    Delivered r (sentFields fields 2) (ascii "ab") [r.message 2 ++ ascii "ab"] ∧
      ¬ Delivered r (sentFields fields 3) (ascii "ab") [r.message 3 ++ ascii "ab"] := by
  intro r fields
  have hr : r.WellFormed := by decide
  have hu : Unsized r.headerString fields := by decide
  have hlength : (ascii "ab").length < 2^63 := by decide
  have hfull (size : ℕ) : ∀ p ∈ [r.message size ++ ascii "ab"], p ≠ [] :=
    List.forall_mem_singleton.mpr (List.append_ne_nil_of_right_ne_nil _ (by decide))
  have hiff (size : ℕ) := response_delivered_iff hr hu size hlength (hfull size)
    List.flatten_singleton
  constructor
  · exact (hiff 2).mpr ⟨TxResponse.message_uncut hu 2 _,by decide⟩
  · exact fun h => absurd ((hiff 3).mp h).2 (by decide)

end ResponseReceiver

end RethinkLog.Via
