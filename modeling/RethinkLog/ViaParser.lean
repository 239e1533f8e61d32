import RethinkLog.HttpConnection

/-!
# The parsers of the HTTP library

Each parser keeps its state between packets and takes what it can from the
next one. It tells whether it came to its end, and returns the bytes that are
left of the packet. A parser that failed with nothing left looks like one that
ran out of data.
-/

set_option autoImplicit false

namespace RethinkLog.Via

def isEndOfLine (c : UInt8) : Bool := c = 13 || c = 10

def isSpaceOrTab (c : UInt8) : Bool := c = 32 || c = 9

def isUpper (c : UInt8) : Bool := 65 ≤ c && c ≤ 90

def isAlpha (c : UInt8) : Bool := isUpper c || (97 ≤ c && c ≤ 122)

def isDigit (c : UInt8) : Bool := decide (Decimal.IsDigit c)

def isXDigit (c : UInt8) : Bool := isDigit c || (65 ≤ c && c ≤ 70) || (97 ≤ c && c ≤ 102)

/-- The digit as an `int`, which wraps when a number outgrows it. -/
def readDigit (c : UInt8) : Int32 := Int32.ofNat (c.toNat-48)

abbrev Parsed (σ : Type) := Bool × σ × Bytes

inductive RequestState where
  | method
  | uri
  | http
  | httpT1
  | httpT2
  | httpP
  | httpSlash
  | httpMajor
  | httpMinor
  | httpLF
  | httpEnd
  deriving DecidableEq, Repr

structure RequestLine where
  method : Bytes
  uri : Bytes
  majorVersion : Int32
  minorVersion : Int32
  state : RequestState
  majorRead : Bool
  minorRead : Bool
  valid : Bool
  fail : Bool
  deriving DecidableEq, Repr

namespace RequestLine

def cleared : RequestLine := ⟨[],[],0,0,.method,false,false,false,false⟩

def expect (l : RequestLine) (c want : UInt8) (next : RequestState) : Bool × RequestLine :=
  if c = want then (true, { l with state := next }) else (false, l)

def parseChar (l : RequestLine) (c : UInt8) : Bool × RequestLine :=
  match l.state with
  | .method =>
    if isUpper c then (true, { l with method := l.method++[c] })
    else if isSpaceOrTab c && l.method ≠ [] then (true, { l with state := .uri })
    else (false, l)
  | .uri =>
    if isEndOfLine c then (false, l)
    else if isSpaceOrTab c then
      (true, if l.uri ≠ [] then { l with state := .http } else l)
    else (true, { l with uri := l.uri++[c] })
  | .http => if isSpaceOrTab c then (true, l) else l.expect c 72 .httpT1
  | .httpT1 => l.expect c 84 .httpT2
  | .httpT2 => l.expect c 84 .httpP
  | .httpP => l.expect c 80 .httpSlash
  | .httpSlash => l.expect c 47 .httpMajor
  | .httpMajor =>
    if isDigit c then
      (true, { l with majorRead := true, majorVersion := l.majorVersion*10+readDigit c })
    else if l.majorRead && c = 46 then (true, { l with state := .httpMinor })
    else (false, l)
  | .httpMinor =>
    if isDigit c then
      (true, { l with minorRead := true, minorVersion := l.minorVersion*10+readDigit c })
    else if isEndOfLine c && l.minorRead then
      (true, { l with state := if c = 13 then .httpLF else .httpEnd })
    else (false, l)
  | .httpLF => l.expect c 10 .httpEnd
  | .httpEnd => (false, l)

def parse (l : RequestLine) : Bytes → Parsed RequestLine
  | [] => (l.state = .httpEnd, { l with valid := l.state = .httpEnd }, [])
  | c::cs =>
    if l.state = .httpEnd then (true, { l with valid := true }, c::cs)
    else if (l.parseChar c).1 then { (l.parseChar c).2 with fail := false }.parse cs
    else (false, { (l.parseChar c).2 with fail := true }, cs)

end RequestLine

inductive FieldState where
  | headerName
  | headerValueLS
  | headerValue
  | headerLF
  | headerEnd
  deriving DecidableEq, Repr

structure FieldLine where
  name : Bytes
  value : Bytes
  state : FieldState
  deriving DecidableEq, Repr

namespace FieldLine

def cleared : FieldLine := ⟨[],[],.headerName⟩

def parseValue (f : FieldLine) (c : UInt8) : FieldLine :=
  if !isEndOfLine c then { f with value := f.value++[c], state := .headerValue }
  else if c = 13 then { f with state := .headerLF }
  else { f with state := .headerEnd }

def parseChar (f : FieldLine) (c : UInt8) : Bool × FieldLine :=
  match f.state with
  | .headerName =>
    if isAlpha c || c = 45 then (true, { f with name := f.name++[Http.lower c] })
    else if c = 58 then (true, { f with state := .headerValueLS })
    else (false, f)
  | .headerValueLS => if isSpaceOrTab c then (true, f) else (true, f.parseValue c)
  | .headerValue => (true, f.parseValue c)
  | .headerLF => if c = 10 then (true, { f with state := .headerEnd }) else (false, f)
  | .headerEnd => (false, f)

def continued (f : FieldLine) (rest : Bytes) : FieldLine :=
  if f.state = .headerEnd && rest.head?.any isSpaceOrTab then
    { f with value := f.value++[32], state := .headerValueLS }
  else f

def parse (f : FieldLine) : Bytes → Parsed FieldLine
  | [] => (f.state = .headerEnd, f, [])
  | c::cs =>
    if f.state = .headerEnd then (true, f, c::cs)
    else if (f.parseChar c).1 then ((f.parseChar c).2.continued cs).parse cs
    else (false, (f.parseChar c).2, cs)

theorem continued_state (f : FieldLine) (rest : Bytes) (h : f.state ≠ .headerEnd) :
    f.continued rest = f := by simp [continued, h]

theorem parse_rest (f : FieldLine) (cs : Bytes) :
    (f.parse cs).2.2.length ≤ cs.length ∧
      ((f.parse cs).1 = true → f.state ≠ .headerEnd → (f.parse cs).2.2.length < cs.length) := by
  induction cs generalizing f with
  | nil => simp [parse]
  | cons c cs ih =>
    unfold parse
    by_cases he : f.state = .headerEnd
    · simp [he]
    · rw [if_neg he]
      split
      · have hle := (ih ((f.parseChar c).2.continued cs)).1
        exact ⟨Nat.le_succ_of_le hle,fun _ _ => Nat.lt_succ_of_le hle⟩
      · simp

end FieldLine

/-- The fields in the order they came in; the first of a name counts. -/
structure MessageHeaders where
  fields : List (Bytes × Bytes)
  field : FieldLine
  valid : Bool
  deriving DecidableEq, Repr

namespace MessageHeaders

def cleared : MessageHeaders := ⟨[],.cleared,false⟩

def add (h : MessageHeaders) (f : FieldLine) : MessageHeaders :=
  { h with fields := h.fields++[(f.name,f.value)], field := .cleared }

def parseFields (h : MessageHeaders) (cs : Bytes) : Parsed MessageHeaders :=
  if cs.head?.all isEndOfLine then (true, h, cs)
  else if (h.field.parse cs).1 then
    parseFields (h.add (h.field.parse cs).2.1) (h.field.parse cs).2.2
  else (false, { h with field := (h.field.parse cs).2.1 }, (h.field.parse cs).2.2)
termination_by (cs.length, if h.field.state = .headerEnd then 1 else 0)
decreasing_by
  rename_i hdone
  obtain ⟨hle,hlt⟩ := h.field.parse_rest cs
  by_cases he : h.field.state = .headerEnd
  · rcases Nat.lt_or_eq_of_le hle with hl | hl
    · exact Prod.Lex.left _ _ hl
    · rw [hl]
      exact Prod.Lex.right _ (by simp [he, add, FieldLine.cleared])
  · exact Prod.Lex.left _ _ (hlt hdone he)

/-- A carriage return before the line feed may be left out. -/
def afterReturn : Bytes → Bytes
  | 13::cs => cs
  | cs => cs

def parse (h : MessageHeaders) (cs : Bytes) : Parsed MessageHeaders :=
  match h.parseFields cs with
  | (false, h, rest) => (false, h, rest)
  | (true, h, rest) => match rest with
    | [] => (false, h, [])
    | c::cs => match afterReturn (c::cs) with
      | 10::rest => (true, { h with valid := true }, rest)
      | rest => (false, h, rest)

end MessageHeaders

structure RxRequest where
  line : RequestLine
  headers : MessageHeaders
  valid : Bool
  deriving DecidableEq, Repr

namespace RxRequest

def cleared : RxRequest := ⟨.cleared,.cleared,false⟩

def parseHeaders (r : RxRequest) (cs : Bytes) : Parsed RxRequest :=
  if r.headers.valid then (true, { r with valid := true }, cs)
  else
    let p := r.headers.parse cs
    (p.1, { r with headers := p.2.1, valid := r.valid || p.1 }, p.2.2)

def parse (r : RxRequest) (cs : Bytes) : Parsed RxRequest :=
  if r.line.valid then r.parseHeaders cs
  else
    let p := r.line.parse cs
    if p.1 then { r with line := p.2.1 }.parseHeaders p.2.2
    else (false, { r with line := p.2.1 }, p.2.2)

theorem parse_valid (r : RxRequest) (cs : Bytes) :
    (r.parse cs).2.1.valid = (r.valid || (r.parse cs).1) := by
  have hheaders (q : RxRequest) (bs : Bytes) :
      (q.parseHeaders bs).2.1.valid = (q.valid || (q.parseHeaders bs).1) := by
    unfold parseHeaders
    split <;> simp
  unfold parse
  split
  · exact hheaders r cs
  · dsimp only
    split
    · exact hheaders _ _
    · simp

def shown (r : RxRequest) : Http.RxRequest :=
  ⟨r.line.method,r.line.uri,r.line.majorVersion,r.line.minorVersion,r.headers.fields,r.valid⟩

def isTrace (r : RxRequest) : Bool := r.line.method = ascii "TRACE"

def expectContinue (r : RxRequest) : Bool :=
  1 ≤ r.line.majorVersion && 1 ≤ r.line.minorVersion &&
    Http.contains (ascii "100-continue") (Http.toLower (r.shown.find (ascii "expect")))

def missingHostHeader (r : RxRequest) : Bool :=
  r.line.majorVersion = 1 && r.line.minorVersion = 1 && r.shown.find (ascii "host") = []

def translated (r : RxRequest) : RxRequest :=
  { r with line := { r.line with method := r.shown.translated.method } }

theorem shown_translated (r : RxRequest) : r.translated.shown = r.shown.translated := by
  unfold translated Http.RxRequest.translated
  split <;> rfl

end RxRequest

def hexDigit (c : UInt8) : ℕ :=
  if isDigit c then c.toNat-48 else if c ≤ 70 then c.toNat-55 else c.toNat-87

def fromHexString (s : Bytes) : ℕ :=
  if s.all isXDigit && s ≠ [] then min (s.foldl (fun n c => 16*n+hexDigit c) 0) Http.ulongMax
  else Http.ulongMax

inductive ChunkState where
  | chunkSizeLS
  | chunkSize
  | chunkExtensionLS
  | chunkExtension
  | chunkLF
  | chunkEnd
  deriving DecidableEq, Repr

structure ChunkHeader where
  size : ℕ
  hexSize : Bytes
  extension : Bytes
  state : ChunkState
  sizeRead : Bool
  valid : Bool
  deriving DecidableEq, Repr

namespace ChunkHeader

def cleared : ChunkHeader := ⟨0,[],[],.chunkSizeLS,false,false⟩

def parseSize (h : ChunkHeader) (c : UInt8) : Bool × ChunkHeader :=
  let h := { h with state := .chunkSize }
  if isXDigit c then (true, { h with hexSize := h.hexSize++[c] })
  else if isEndOfLine c || c = 59 then
    (true, { h with
      size := fromHexString h.hexSize
      sizeRead := true
      state := if c = 59 then .chunkExtensionLS else if c = 13 then .chunkLF else .chunkEnd })
  else (false, h)

def parseExtension (h : ChunkHeader) (c : UInt8) : ChunkHeader :=
  if !isEndOfLine c then { h with extension := h.extension++[c], state := .chunkExtension }
  else if c = 13 then { h with state := .chunkLF }
  else { h with state := .chunkEnd }

def parseChar (h : ChunkHeader) (c : UInt8) : Bool × ChunkHeader :=
  match h.state with
  | .chunkSizeLS => if isSpaceOrTab c then (true, h) else h.parseSize c
  | .chunkSize => h.parseSize c
  | .chunkExtensionLS => if isSpaceOrTab c then (true, h) else (true, h.parseExtension c)
  | .chunkExtension => (true, h.parseExtension c)
  | .chunkLF => if c = 10 then (true, { h with state := .chunkEnd }) else (false, h)
  | .chunkEnd => (false, h)

def parse (h : ChunkHeader) : Bytes → Parsed ChunkHeader
  | [] => (h.state = .chunkEnd, { h with valid := h.state = .chunkEnd }, [])
  | c::cs =>
    if h.state = .chunkEnd then (true, { h with valid := true }, c::cs)
    else if (h.parseChar c).1 then (h.parseChar c).2.parse cs
    else (false, (h.parseChar c).2, cs)

def isLast (h : ChunkHeader) : Bool := h.size = 0

end ChunkHeader

structure RxChunk where
  header : ChunkHeader
  data : Bytes
  trailers : MessageHeaders
  valid : Bool
  deriving DecidableEq, Repr

namespace RxChunk

def cleared : RxChunk := ⟨.cleared,[],.cleared,false⟩

def next (k : RxChunk) : RxChunk := if k.valid then .cleared else k

def parseContent (k : RxChunk) (cs : Bytes) : Parsed RxChunk :=
  if k.header.isLast then
    let p := k.trailers.parse cs
    (p.1, { k with trailers := p.2.1, valid := k.valid || p.1 }, p.2.2)
  else
    let required := k.header.size-k.data.length
    let k := { k with data := k.data++cs.take required }
    match cs.drop required with
    | [] => (false, k, [])
    | c::rest => match MessageHeaders.afterReturn (c::rest) with
      | 10::rest => (true, { k with valid := true }, rest)
      | rest => (false, k, rest)

def parse (k : RxChunk) (cs : Bytes) : Parsed RxChunk :=
  if k.header.valid then k.parseContent cs
  else
    let p := k.header.parse cs
    if p.1 then { k with header := p.2.1 }.parseContent p.2.2
    else (false, { k with header := p.2.1 }, p.2.2)

end RxChunk

end RethinkLog.Via
