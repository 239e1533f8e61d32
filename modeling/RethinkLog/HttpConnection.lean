import RethinkLog.Wire
import Mathlib.Data.List.DropRight

/-!
# Requests and responses on one connection

The receiver of a connection holds the last request until it is cleared, and
only then parses the next bytes as a new one. Sending a response other than
100 Continue clears it. Header names are kept in lower case, and the first of
several headers with one name counts.
-/

set_option autoImplicit false

namespace RethinkLog.Http

def ulongMax : ℕ := 2^64-1

def lower (b : UInt8) : UInt8 := if 65 ≤ b ∧ b ≤ 90 then b+32 else b

def toLower (s : Bytes) : Bytes := s.map lower

def contains (part s : Bytes) : Bool := s.tails.any part.isPrefixOf

def fromDecString (s : Bytes) : ℕ :=
  if s.all (fun b => decide (Decimal.IsDigit b)) then min (leading s) ulongMax else ulongMax

structure RxRequest where
  method : Bytes
  uri : Bytes
  majorVersion : Int32
  minorVersion : Int32
  headers : List (Bytes × Bytes)
  valid : Bool
  deriving DecidableEq, Repr

namespace RxRequest

def cleared : RxRequest := ⟨[],[],0,0,[],false⟩

def find (r : RxRequest) (name : Bytes) : Bytes := (r.headers.lookup name).getD []

def contentLength (r : RxRequest) : ℕ :=
  if r.find (ascii "content-length") = [] then 0
  else fromDecString (r.find (ascii "content-length"))

def isChunked (r : RxRequest) : Bool :=
  let encoding := r.find (ascii "transfer-encoding")
  encoding ≠ [] && !contains (ascii "identity") (toLower encoding)

def closeConnection (r : RxRequest) : Bool :=
  contains (ascii "close") (toLower (r.find (ascii "connection")))

def keepAlive (r : RxRequest) : Bool :=
  1 ≤ r.majorVersion && 1 ≤ r.minorVersion && !r.closeConnection

def isHead (r : RxRequest) : Bool := r.method = ascii "HEAD"

def translated (r : RxRequest) : RxRequest :=
  if r.isHead then { r with method := ascii "GET" } else r

theorem translated_twice (r : RxRequest) : r.translated.translated = r.translated := by
  have hnot : r.translated.isHead = false := by
    unfold translated
    split
    · exact show decide (ascii "GET" = ascii "HEAD") = false by decide
    · rename_i h
      exact Bool.eq_false_iff.mpr h
  conv_lhs => rw [translated, hnot, if_neg (by simp)]

theorem translated_keepAlive (r : RxRequest) : r.translated.keepAlive = r.keepAlive := by
  unfold translated
  split <;> rfl

end RxRequest

structure Receiver where
  request : RxRequest
  body : Bytes
  continueSent : Bool
  isHead : Bool
  deriving DecidableEq, Repr

namespace Receiver

def cleared : Receiver := ⟨.cleared,[],false,false⟩

/-- The request line and headers of the next bytes are parsed only when the
last request is gone. -/
def parse (rx : Receiver) (r : RxRequest) : Receiver :=
  if rx.request.valid then rx else { rx with request := r }

def complete (rx : Receiver) (body : Bytes) : Receiver :=
  { rx with body := body, isHead := rx.request.isHead, request := rx.request.translated }

end Receiver

inductive Status where
  | continue
  | ok
  | notFound
  | methodNotAllowed
  | requestEntityTooLarge
  deriving DecidableEq, Repr

def Status.code : Status → ℕ
  | .continue => 100
  | .ok => 200
  | .notFound => 404
  | .methodNotAllowed => 405
  | .requestEntityTooLarge => 413

inductive HeaderLine where
  | server
  | date
  | allow (value : Bytes)
  | contentType (value : Bytes)
  | contentLength (size : ℕ)
  deriving DecidableEq, Repr

structure TxResponse where
  status : Status
  headers : List HeaderLine
  deriving DecidableEq, Repr

structure Packet where
  majorVersion : Int32
  minorVersion : Int32
  status : Status
  headers : List HeaderLine
  body : Bytes
  deriving DecidableEq, Repr

def Packet.isFinal (p : Packet) : Bool := p.status.code ≠ 100

structure Connection where
  rx : Receiver
  sent : List Packet
  isOpen : Bool
  deriving DecidableEq, Repr

namespace Connection

def fresh : Connection := ⟨.cleared,[],true⟩

/-- `http_connection::send`; without a body the length is zero. -/
def send (c : Connection) (response : TxResponse) (body : Bytes) : Connection where
  rx := if response.status = .continue then { c.rx with continueSent := true } else .cleared
  sent := c.sent ++ [{
    majorVersion := c.rx.request.majorVersion
    minorVersion := c.rx.request.minorVersion
    status := response.status
    headers := response.headers ++ [.contentLength body.length]
    body := if c.rx.isHead then [] else body }]
  isOpen := c.isOpen && c.rx.request.keepAlive

def finals (c : Connection) : ℕ := (c.sent.filter Packet.isFinal).length

theorem send_final (c : Connection) (response : TxResponse) (body : Bytes)
    (h : response.status ≠ .continue) :
    (c.send response body).rx = .cleared ∧ (c.send response body).finals = c.finals+1 := by
  have hf : response.status.code ≠ 100 := by
    cases hs : response.status <;> simp_all [Status.code]
  refine ⟨if_neg h,?_⟩
  simp [finals, send, List.filter_append, Packet.isFinal, hf]

theorem send_continue (c : Connection) (response : TxResponse) (body : Bytes)
    (h : response.status = .continue) :
    (c.send response body).rx = { c.rx with continueSent := true } ∧
      (c.send response body).finals = c.finals := by
  refine ⟨if_pos h,?_⟩
  simp [finals, send, List.filter_append, Packet.isFinal, h, Status.code]

end Connection
end RethinkLog.Http
