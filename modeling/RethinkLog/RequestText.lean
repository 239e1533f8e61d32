import RethinkLog.FirstResponse

/-!
# The text of a request in packets

A request comes as a request line, field lines and an empty line. Where its
packets begin matters to the parser in two ways: a packet that begins in the
line end of a field line ends the headers, and a byte that no field name may
have is passed over when it is the last of its packet. What is read of a
request is described here by its text and its packets alone.
-/

set_option autoImplicit false

namespace RethinkLog.Via
open Incremental

/-- The packets behind some bytes. A packet that is used up stays in front,
empty, until the next byte is asked for. -/
def advance : ℕ → List Bytes → List Bytes
  | _, [] => []
  | n, p::ps => if n ≤ p.length then p.drop n :: ps else advance (n-p.length) ps

def atStart (packets : List Bytes) : Bool := packets.head? = some []

def isToken (c : UInt8) : Bool :=
  32 < c && c < 127 && c ∉ ascii "()<>@,;:\\\"/[]?=\x7b\x7d"

structure Field where
  name : Bytes
  content : Bytes
  deriving DecidableEq, Repr

structure Request where
  method : Bytes
  uri : Bytes
  fields : List Field
  deriving DecidableEq, Repr

def crlf : Bytes := [13,10]

namespace Field

def line (f : Field) : Bytes := f.name ++ 58::f.content ++ crlf

structure WellFormed (f : Field) : Prop where
  named : f.name ≠ []
  name : ∀ c ∈ f.name, isToken c = true
  content : ∀ c ∈ f.content, isEndOfLine c = false

instance (f : Field) : Decidable f.WellFormed :=
  decidable_of_iff (f.name ≠ [] ∧ f.name.all isToken = true ∧
      f.content.all (fun c => !isEndOfLine c) = true) <| by
    simp only [List.all_eq_true, Bool.not_eq_true']
    exact ⟨fun h => ⟨h.1,h.2.1,h.2.2⟩,fun h => ⟨h.named,h.name,h.content⟩⟩

def plain (c : UInt8) : Bool := isAlpha c || c = 45

def kept (f : Field) : Bytes × Bytes :=
  ((f.name.filter plain).map Http.lower, f.content.dropWhile isSpaceOrTab)

end Field

/-- A byte that is not taken for a part of a name has more of its packet
behind it. -/
def refused : Bytes → List Bytes → Bool
  | [], _ => false
  | c::cs, packets =>
    (!Field.plain c && !atStart (advance 1 packets)) || refused cs (advance 1 packets)

def Field.behind (f : Field) (packets : List Bytes) : List Bytes :=
  advance (f.name.length+1+f.content.length) packets

def cut (packets : List Bytes) : Bool := atStart packets || atStart (advance 1 packets)

def left (packets : List Bytes) : Bytes := (advance 2 packets).headD []

/-- The fields that are kept until the headers end, and what is then left of
the packet; nothing when a name is refused. -/
def reading : List Field → List Bytes → Option (List (Bytes × Bytes) × Bytes)
  | [], packets => some ([], left packets)
  | f::fs, packets =>
    if refused f.name packets then none
    else if cut (f.behind packets) then some ([], left (f.behind packets))
    else (reading fs (advance 2 (f.behind packets))).map (fun x => (f.kept::x.1,x.2))

namespace Request

def firstLine (q : Request) : Bytes := q.method ++ 32::q.uri ++ ascii " HTTP/1.1\r\n"

def text (q : Request) : Bytes := q.firstLine ++ q.fields.flatMap Field.line ++ crlf

structure WellFormed (q : Request) : Prop where
  called : q.method ≠ []
  method : ∀ c ∈ q.method, isToken c = true
  targeted : q.uri ≠ []
  uri : ∀ c ∈ q.uri, (isEndOfLine c || isSpaceOrTab c) = false
  fields : ∀ f ∈ q.fields, f.WellFormed

instance (q : Request) : Decidable q.WellFormed :=
  decidable_of_iff (q.method ≠ [] ∧ q.method.all isToken = true ∧ q.uri ≠ [] ∧
      q.uri.all (fun c => !(isEndOfLine c || isSpaceOrTab c)) = true ∧
      ∀ f ∈ q.fields, f.WellFormed) <| by
    simp only [List.all_eq_true, Bool.not_eq_true']
    exact ⟨fun h => ⟨h.1,h.2.1,h.2.2.1,h.2.2.2.1,h.2.2.2.2⟩,
      fun h => ⟨h.called,h.method,h.targeted,h.uri,h.fields⟩⟩

def shown (q : Request) (fields : List (Bytes × Bytes)) : Http.RxRequest :=
  ⟨q.method,q.uri,1,1,fields,true⟩

end Request

theorem advance_cons (n : ℕ) (p : Bytes) (ps : List Bytes) : advance n (p::ps) =
    if n ≤ p.length then p.drop n :: ps else advance (n-p.length) ps := rfl

theorem advance_add (m n : ℕ) (ps : List Bytes) :
    advance (m+n) ps = advance n (advance m ps) := by
  induction ps generalizing m with
  | nil => rfl
  | cons p ps ih =>
    rw [advance_cons, advance_cons]
    by_cases hm : m ≤ p.length
    · rw [if_pos hm, advance_cons, List.length_drop, List.drop_drop]
      by_cases hn : m+n ≤ p.length
      · rw [if_pos hn, if_pos (by omega)]
      · rw [if_neg hn, if_neg (by omega), show n-(p.length-m) = m+n-p.length by omega]
    · rw [if_neg hm, if_neg (by omega), show m+n-p.length = m-p.length+n by omega]
      exact ih _

structure Holds (packets : List Bytes) (text : Bytes) : Prop where
  flat : packets.flatten = text
  full : ∀ p ∈ packets.tail, p ≠ []

theorem holds_cons {packets : List Bytes} {c : UInt8} {t : Bytes} (h : Holds packets (c::t)) :
    ∃ p ps, (packets = (c::p)::ps ∨ packets = []::(c::p)::ps) ∧
      advance 1 packets = p::ps ∧ Holds (p::ps) t := by
  obtain ⟨hflat,hfull⟩ := h
  match packets with
  | [] => simp at hflat
  | (b::p)::ps =>
    obtain ⟨rfl,ht⟩ := List.cons.inj hflat
    exact ⟨p,ps,Or.inl rfl,by simp [advance],ht,hfull⟩
  | []::ps =>
    match ps with
    | [] => simp at hflat
    | []::ps => exact absurd rfl (hfull [] (by simp))
    | (b::p)::ps =>
      obtain ⟨rfl,ht⟩ := List.cons.inj hflat
      exact ⟨p,ps,Or.inr rfl,by simp [advance],ht,
        fun q hq => hfull q (List.mem_cons_of_mem _ hq)⟩

theorem advance_zero (packets : List Bytes) : advance 0 packets = packets := by
  cases packets <;> simp [advance]

theorem advance_succ (n : ℕ) (packets : List Bytes) :
    advance (n+1) packets = advance n (advance 1 packets) := by
  rw [Nat.add_comm, advance_add]

theorem holds_advance (w : Bytes) {packets : List Bytes} {t : Bytes} (h : Holds packets (w++t)) :
    Holds (advance w.length packets) t := by
  induction w generalizing packets with
  | nil => rwa [List.length_nil, advance_zero]
  | cons c w ih =>
    obtain ⟨p,ps,-,hone,hp⟩ := holds_cons h
    rw [List.length_cons, advance_succ, hone]
    exact ih hp

def RequestLine.IsDone (l : RequestLine) : Prop := l.state = .httpEnd

theorem parseChar_flags (l : RequestLine) (c : UInt8) :
    (l.parseChar c).2.valid = l.valid ∧ (l.parseChar c).2.fail = l.fail := by
  unfold RequestLine.parseChar RequestLine.expect
  split <;> (repeat' split) <;> simp

def naming (m : Bytes) : RequestLine := ⟨m,[],0,0,.method,false,false,false,false⟩

def targeting (m u : Bytes) : RequestLine := ⟨m,u,0,0,.uri,false,false,false,false⟩

def Request.complete (q : Request) : RequestLine :=
  ⟨q.method,q.uri,1,1,.httpEnd,true,true,false,false⟩

section Lines
open RequestLine

theorem method_takes (m w : Bytes) (hw : ∀ c ∈ w, isUpper c = true) :
    Takes IsDone parseChar (naming m) w (naming (m++w)) :=
  Takes.repeat naming (fun v => by simp [IsDone, naming]) m
    (fun c hc v => by simp [parseChar, naming, hw c hc])

theorem uri_takes (m u w : Bytes) (hw : ∀ c ∈ w, (isEndOfLine c || isSpaceOrTab c) = false) :
    Takes IsDone parseChar (targeting m u) w (targeting m (u++w)) := by
  refine Takes.repeat (targeting m) (fun v => by simp [IsDone, targeting]) u fun c hc v => ?_
  have hplain := hw c hc
  rw [Bool.or_eq_false_iff] at hplain
  simp [parseChar, targeting, hplain.1, hplain.2]

theorem protocol_takes (m u : Bytes) (hu : u ≠ []) : Takes IsDone parseChar (targeting m u)
    (ascii " HTTP/1.1\r\n") ⟨m,u,1,1,.httpEnd,true,true,false,false⟩ := by
  cases u with
  | nil => exact absurd rfl hu
  | cons b u =>
    have hsize : ascii " HTTP/1.1\r\n" = [32,72,84,84,80,47,49,46,49,13,10] := by decide
    rw [hsize, targeting]
    iterate 11 refine .next (by simp [IsDone]) rfl ?_
    exact .nil _

end Lines

theorem parse_nil {l : RequestLine} (hv : l.valid = false) (he : l.state ≠ .httpEnd) :
    l.parse [] = (false,l,[]) := by
  obtain ⟨m,u,a,b,s,ar,br,v,f⟩ := l
  obtain rfl : v = false := hv
  simp [RequestLine.parse, show s ≠ .httpEnd from he]

theorem parse_char {l : RequestLine} (hf : l.fail = false) (he : l.state ≠ .httpEnd) {c : UInt8}
    (hc : (l.parseChar c).1 = true) (cs : Bytes) :
    l.parse (c::cs) = (l.parseChar c).2.parse cs := by
  have hfail := (parseChar_flags l c).2.trans hf
  rw [RequestLine.parse, if_neg he, if_pos hc]
  generalize (l.parseChar c).2 = k at hfail ⊢
  obtain ⟨m,u,a,b,s,ar,br,v,f⟩ := k
  obtain rfl : f = false := hfail
  rfl

namespace Connection

theorem heard_congr {r s : RxRequest} {p q : Bytes} (h : r.parse p = s.parse q)
    (ps : List Bytes) : heard r (p::ps) = heard s (q::ps) := by
  simp only [heard, feed, h]

section RequestLine
variable {l : RequestLine} (hs : MessageHeaders) (v : Bool) (hv : l.valid = false)
include hv

theorem line_nil (hf : l.fail = false) (he : l.state ≠ .httpEnd) (ps : List Bytes) :
    heard ⟨l,hs,v⟩ ([]::ps) = heard ⟨l,hs,v⟩ ps := by
  have hparse : RxRequest.parse ⟨l,hs,v⟩ [] = (false,⟨l,hs,v⟩,[]) := by
    simp [RxRequest.parse, hv, parse_nil hv he]
  rw [heard_more (by rw [hparse]) (by simp [hparse, hf]), hparse]

theorem line_char (hf : l.fail = false) (he : l.state ≠ .httpEnd) {c : UInt8}
    (hc : (l.parseChar c).1 = true) (p : Bytes) (ps : List Bytes) :
    heard ⟨l,hs,v⟩ ((c::p)::ps) = heard ⟨(l.parseChar c).2,hs,v⟩ (p::ps) := by
  apply heard_congr
  simp only [RxRequest.parse, hv, (parseChar_flags l c).1, parse_char hf he hc,
    Bool.false_eq_true, if_false]

theorem line_refused (he : l.state ≠ .httpEnd) {c : UInt8} (hc : (l.parseChar c).1 = false)
    (p : Bytes) (ps : List Bytes) : heard ⟨l,hs,v⟩ ((c::p)::ps) = none := by
  apply heard_stop <;> simp [RxRequest.parse, RequestLine.parse, hv, he, hc]

theorem line_end (he : l.state = .httpEnd) (p : Bytes) (ps : List Bytes) :
    heard ⟨l,hs,v⟩ (p::ps) = heard ⟨{ l with valid := true },hs,v⟩ (p::ps) := by
  apply heard_congr
  cases p <;> simp [RxRequest.parse, RequestLine.parse, hv, he]

theorem takes_heard {w : Bytes} {m : RequestLine}
    (h : Takes RequestLine.IsDone RequestLine.parseChar l w m) (hf : l.fail = false)
    {packets : List Bytes} {t : Bytes} (hp : Holds packets (w++t)) :
    heard ⟨l,hs,v⟩ packets = heard ⟨m,hs,v⟩ (advance w.length packets) ∧
      m.valid = false ∧ m.fail = false := by
  induction h generalizing packets with
  | nil l => exact ⟨by rw [List.length_nil, advance_zero],hv,hf⟩
  | @cons l m c cs more taken rest ih =>
    obtain ⟨p,ps,hcase,hone,hrest⟩ := holds_cons hp
    obtain ⟨hvalid,hfail⟩ := parseChar_flags l c
    obtain ⟨heq,hm⟩ := ih (hvalid.trans hv) (hfail.trans hf) hrest
    refine ⟨?_,hm⟩
    rw [List.length_cons, advance_succ, hone, ← heq]
    rcases hcase with rfl | rfl
    · exact line_char hs v hv hf more taken p ps
    · rw [line_nil hs v hv hf more]
      exact line_char hs v hv hf more taken p ps

end RequestLine

end Connection

end RethinkLog.Via
