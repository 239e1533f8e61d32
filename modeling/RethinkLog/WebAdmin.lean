import RethinkLog.HttpConnection
import RethinkLog.Machine

/-!
# The admin web service

Three handlers share the duty to answer a request: for the request itself,
for its last chunk, and for an expectation to continue. A GET request for
neither a file of the console nor the API falls through the dispatch, and its
connection keeps the old request.
-/

set_option autoImplicit false

namespace RethinkLog.WebAdmin
open Http Machine

def maxLength : ℕ := 1048576

def responseBody : Bytes :=
  ascii "<html>\r\n<head><title>Accepted</title></head>\r\n" ++
    ascii "<body><h1>200 - Accepted</h1></body>\r\n</html>\r\n"

/-- `trim_if` at slashes. -/
def trim (s : Bytes) : Bytes := (s.dropWhile (· = 47)).rdropWhile (· = 47)

/-- `split` at slashes with adjacent slashes taken as one. -/
def split : Bytes → List Bytes
  | [] => [[]]
  | b::bs => if b = 47 then (if bs.head? = some 47 then split bs else [] :: split bs)
      else match split bs with
        | [] => [[b]]
        | t::ts => (b::t)::ts

example : split (ascii "api//node/") = [ascii "api",ascii "node",[]] := by decide

def consoleFiles : List Bytes :=
  [[],ascii "js/bootstrap.min.js",ascii "css/bootstrap.min.css",ascii "css/styles.css"]

def contentType (uri : Bytes) : Bytes :=
  if contains (ascii ".js") uri then ascii "text/javascript"
  else if contains (ascii ".css") uri then ascii "text/css"
  else ascii "text/html"

/-- `WebSvc::respond_to_request`; `files` is the content of the files under
their names, and nothing where there is no file. -/
def respondToRequest (files : Bytes → Bytes) (c : Connection) : Connection :=
  let request := c.rx.request
  let response : TxResponse := ⟨.notFound,[.server,.date]⟩
  if request.method ≠ ascii "GET" then
    c.send ⟨.methodNotAllowed,response.headers ++ [.allow (ascii "GET")]⟩ []
  else
    let response : TxResponse := { response with status := .ok }
    let uri := toLower (trim request.uri)
    let path := if uri ≠ [] then split uri else []
    if uri ∈ consoleFiles then
      let uri := if uri = [] then ascii "index.html" else uri
      c.send { response with headers := response.headers ++ [.contentType (contentType uri)] }
        (files (ascii "./admin/" ++ uri))
    else if path.head? = some (ascii "api") then c.send response responseBody
    else c

inductive Event where
  | expect
  | request (body : Bytes)
  | chunk (size : ℕ) (data : Bytes)
  deriving DecidableEq, Repr

def handle (files : Bytes → Bytes) (c : Connection) : Event → Connection
  | .expect => c.send
      ⟨if maxLength < c.rx.request.contentLength then .requestEntityTooLarge else .continue,[]⟩ []
  | .request body =>
    if c.rx.request.isChunked then c
    else respondToRequest files { c with rx := c.rx.complete body }
  | .chunk size _ => if size = 0 then respondToRequest files c else c

/-- One complete request and the way it is delivered: with a body or in
chunks, after an expectation to continue or not. The request event may be left
out only for a request in chunks. -/
structure Delivery where
  request : RxRequest
  expect : Bool
  announced : Bool
  body : Bytes
  parts : List Bytes
  valid : request.valid = true
  alive : request.keepAlive = true
  whole : request.isChunked = false → announced = true
  nonempty : ∀ p ∈ parts, p ≠ []

namespace Delivery

def rest (d : Delivery) : List Event :=
  (if d.announced then [.request d.body] else []) ++
    if d.request.isChunked then d.parts.map (fun p => .chunk p.length p) ++ [.chunk 0 []] else []

def events (d : Delivery) : List Event := (if d.expect then [.expect] else []) ++ d.rest

end Delivery

def deliver (files : Bytes → Bytes) (c : Connection) (d : Delivery) : Connection :=
  d.events.foldl (handle files) { c with rx := c.rx.parse d.request }

def step (files : Bytes → Bytes) (c : Connection) (d : Delivery) : List Packet × Connection :=
  ((deliver files { c with sent := [] } d).sent, deliver files { c with sent := [] } d)

def Answered (files : Bytes → Bytes) (c : Connection) (d : Delivery) : Prop :=
  ((step files c d).1.filter Packet.isFinal).length = 1 ∧
    (step files c d).2.rx = .cleared ∧ (step files c d).2.isOpen = true

/-- The requests that the dispatch has an answer for. -/
def Dispatched (r : RxRequest) : Prop :=
  r.method ≠ ascii "GET" ∨ toLower (trim r.uri) ∈ consoleFiles ∨
    (split (toLower (trim r.uri))).head? = some (ascii "api")

instance : DecidablePred Dispatched := fun _ => inferInstanceAs (Decidable (_ ∨ _ ∨ _))

def Delivery.shown (d : Delivery) : RxRequest :=
  if d.request.isChunked then d.request else d.request.translated

def Answerable (d : Delivery) : Prop :=
  Dispatched d.shown ∧ (d.expect = true → d.request.contentLength ≤ maxLength)

variable (files : Bytes → Bytes)

theorem respond_dispatched (c : Connection) (h : Dispatched c.rx.request) :
    ∃ response body, response.status ≠ .continue ∧
      respondToRequest files c = c.send response body := by
  unfold respondToRequest
  dsimp only
  split
  · exact ⟨_,_,by simp,rfl⟩
  · rename_i hm
    split
    · exact ⟨_,_,by simp,rfl⟩
    · rename_i hf
      have hne : toLower (trim c.rx.request.uri) ≠ [] := by
        intro he
        rw [he] at hf
        exact hf (by decide)
      rcases h with h | h | h
      · exact absurd h hm
      · exact absurd h hf
      · rw [if_pos hne, if_pos h]
        exact ⟨_,_,by simp,rfl⟩

theorem respond_silent (c : Connection) (h : ¬ Dispatched c.rx.request) :
    respondToRequest files c = c := by
  simp only [Dispatched, not_or, not_not] at h
  obtain ⟨hm,hf,ha⟩ := h
  have hne : toLower (trim c.rx.request.uri) ≠ [] := by
    intro he
    rw [he] at hf
    exact hf (by decide)
  unfold respondToRequest
  dsimp only
  rw [if_neg (by simpa using hm), if_neg hf, if_pos hne, if_neg ha]

/-- The answer of `WebSvc::respond_to_request` to a method and a URI, if there is
one. -/
def answer (method uri : Bytes) : Option (TxResponse × Bytes) :=
  let headers : List HeaderLine := [.server,.date]
  if method ≠ ascii "GET" then
    some (⟨.methodNotAllowed,headers ++ [.allow (ascii "GET")]⟩,[])
  else
    let uri := toLower (trim uri)
    if uri ∈ consoleFiles then
      let name := if uri = [] then ascii "index.html" else uri
      some (⟨.ok,headers ++ [.contentType (contentType name)]⟩,files (ascii "./admin/" ++ name))
    else if (split uri).head? = some (ascii "api") then some (⟨.ok,headers⟩,responseBody)
    else none

theorem respondToRequest_answer (c : Connection) : respondToRequest files c =
    match answer files c.rx.request.method c.rx.request.uri with
    | some a => c.send a.1 a.2
    | none => c := by
  unfold respondToRequest answer
  dsimp only
  split
  · rfl
  · split
    · rfl
    · rename_i hfile
      have hne : toLower (trim c.rx.request.uri) ≠ [] := fun hnil => hfile (by rw [hnil]; decide)
      rw [if_pos hne]
      split <;> rfl

/-- Events after the expectation reach one call of `respond_to_request`, on
the request as the application sees it. -/
theorem rest_responds (c : Connection) (d : Delivery) (hr : c.rx.request = d.request) :
    ∃ rx, rx.request = d.shown ∧
      d.rest.foldl (handle files) c = respondToRequest files { c with rx := rx } := by
  have hparts : ∀ parts : List Bytes, (∀ p ∈ parts, p ≠ []) →
      (parts.map (fun p => Event.chunk p.length p)).foldl (handle files) c = c := by
    intro parts hne
    induction parts with
    | nil => rfl
    | cons p parts ih =>
      have hp : p.length ≠ 0 := by simpa using hne p (by simp)
      simp only [List.map_cons, List.foldl_cons, handle, if_neg hp]
      exact ih (fun q hq => hne q (by simp [hq]))
  unfold Delivery.rest Delivery.shown
  cases hc : d.request.isChunked with
  | false =>
    refine ⟨c.rx.complete d.body,by simp [Receiver.complete, hr],?_⟩
    simp [d.whole hc, handle, hr, hc]
  | true =>
    refine ⟨c.rx,by simp [hr],?_⟩
    cases d.announced <;>
      simp [handle, hr, hc, List.foldl_append, hparts d.parts d.nonempty]

theorem shown_keepAlive (d : Delivery) : d.shown.keepAlive = true := by
  unfold Delivery.shown
  split
  · exact d.alive
  · rw [RxRequest.translated_keepAlive]
    exact d.alive

theorem rest_answers (c : Connection) (d : Delivery) (hr : c.rx.request = d.request)
    (hf : c.finals = 0) (ho : c.isOpen = true) :
    let t := d.rest.foldl (handle files) c
    t.finals = 1 ∧ t.rx = .cleared ∧ t.isOpen = true ↔ Dispatched d.shown := by
  obtain ⟨rx,hrx,heq⟩ := rest_responds files c d hr
  rw [heq]
  by_cases hd : Dispatched d.shown
  · obtain ⟨response,body,hs,hsend⟩ :=
      respond_dispatched files { c with rx := rx } (by rwa [hrx])
    obtain ⟨hclear,hcount⟩ := Connection.send_final { c with rx := rx } response body hs
    have hopen : (Connection.send { c with rx := rx } response body).isOpen = true := by
      simp [Connection.send, ho, hrx, shown_keepAlive]
    rw [hsend]
    exact ⟨fun _ => hd,fun _ => ⟨hcount.trans (congrArg (·+1) hf),hclear,hopen⟩⟩
  · rw [respond_silent files _ (by rwa [hrx])]
    constructor
    · rintro ⟨hone,-,-⟩
      exact absurd (hf.symm.trans hone) (by decide)
    · exact fun h => absurd h hd

theorem cleared_responds (c : Connection) (hc : c.rx.request = .cleared) :
    (respondToRequest files c).rx = .cleared ∧ (respondToRequest files c).finals = c.finals+1 := by
  obtain ⟨response,body,hs,hsend⟩ := respond_dispatched files c (by rw [hc]; decide)
  rw [hsend]
  exact Connection.send_final c response body hs

theorem cleared_handle (c : Connection) (hc : c.rx.request = .cleared) (e : Event)
    (he : e ≠ .expect) :
    (handle files c e).rx.request = .cleared ∧ c.finals ≤ (handle files c e).finals := by
  cases e with
  | expect => exact absurd rfl he
  | request body =>
    have hchunk : c.rx.request.isChunked = false := by rw [hc]; decide
    obtain ⟨hx,hn⟩ := cleared_responds files { c with rx := c.rx.complete body }
      (by simp only [Receiver.complete, hc]; decide)
    simp only [handle, hchunk, Bool.false_eq_true, if_false]
    exact ⟨congrArg Receiver.request hx,hn ▸ Nat.le_succ _⟩
  | chunk size data =>
    simp only [handle]
    split
    · obtain ⟨hx,hn⟩ := cleared_responds files c hc
      exact ⟨congrArg Receiver.request hx,hn ▸ Nat.le_succ _⟩
    · exact ⟨hc,le_refl _⟩

theorem cleared_fold (c : Connection) (hc : c.rx.request = .cleared) (es : List Event)
    (he : Event.expect ∉ es) :
    (es.foldl (handle files) c).rx.request = .cleared ∧
      c.finals ≤ (es.foldl (handle files) c).finals := by
  induction es generalizing c with
  | nil => exact ⟨hc,le_refl _⟩
  | cons e es ih =>
    simp only [List.mem_cons, not_or] at he
    obtain ⟨hx,hn⟩ := cleared_handle files c hc e (Ne.symm he.1)
    obtain ⟨hx',hn'⟩ := ih (handle files c e) hx he.2
    exact ⟨hx',hn.trans hn'⟩

theorem cleared_rest (c : Connection) (hc : c.rx.request = .cleared) (d : Delivery) :
    c.finals+1 ≤ (d.rest.foldl (handle files) c).finals := by
  unfold Delivery.rest
  cases hchunk : d.request.isChunked with
  | false =>
    have hno : c.rx.request.isChunked = false := by rw [hc]; decide
    have hn := (cleared_responds files { c with rx := c.rx.complete d.body }
      (by simp only [Receiver.complete, hc]; decide)).2
    simp only [d.whole hchunk, if_true, Bool.false_eq_true, if_false, List.append_nil,
      List.foldl_cons, List.foldl_nil, handle, hno]
    exact hn.ge
  | true =>
    have hinit : Event.expect ∉ (if d.announced then [.request d.body] else []) ++
        d.parts.map (fun p => Event.chunk p.length p) := by
      cases d.announced <;> simp
    obtain ⟨hx,hn⟩ := cleared_fold files c hc _ hinit
    rw [if_pos rfl, ← List.append_assoc, List.foldl_append]
    have hlast := (cleared_responds files _ hx).2
    exact (Nat.succ_le_succ hn).trans hlast.ge

theorem answered_iff (c : Connection) (hc : c.rx = .cleared) (ho : c.isOpen = true)
    (d : Delivery) : Answered files c d ↔ Answerable d := by
  have hstart : ({ c with sent := [], rx := c.rx.parse d.request } : Connection) =
      ⟨⟨d.request,[],false,false⟩,[],true⟩ := by
    rw [hc, ho]
    rfl
  have hstep : deliver files { c with sent := [] } d =
      d.events.foldl (handle files) ⟨⟨d.request,[],false,false⟩,[],true⟩ := by
    unfold deliver
    rw [← hstart]
  unfold Answered Answerable step
  change (deliver files { c with sent := [] } d).finals = 1 ∧ _ ↔ _
  rw [hstep]
  unfold Delivery.events
  cases he : d.expect with
  | false =>
    have hr := rest_answers files ⟨⟨d.request,[],false,false⟩,[],true⟩ d rfl rfl rfl
    simpa using hr
  | true =>
    rw [if_pos rfl, List.foldl_append]
    simp only [List.foldl_cons, List.foldl_nil, handle, forall_const]
    by_cases hl : maxLength < d.request.contentLength
    · rw [if_pos hl]
      obtain ⟨hx,hn⟩ := Connection.send_final ⟨⟨d.request,[],false,false⟩,[],true⟩
        ⟨.requestEntityTooLarge,[]⟩ [] (by simp)
      have htwo := cleared_rest files _ (congrArg Receiver.request hx) d
      rw [hn] at htwo
      constructor
      · rintro ⟨hone,-,-⟩
        rw [hone] at htwo
        exact absurd (show 2 ≤ 1 from htwo) (by decide)
      · exact fun h => absurd h.2 (Nat.not_le.mpr hl)
    · rw [if_neg hl]
      obtain ⟨hx,hn⟩ := Connection.send_continue ⟨⟨d.request,[],false,false⟩,[],true⟩
        ⟨.continue,[]⟩ [] rfl
      have hr := rest_answers files _ d (congrArg Receiver.request hx) hn (by
        simp [Connection.send, d.alive])
      exact ⟨fun h => ⟨hr.mp h,Nat.le_of_not_lt hl⟩,fun h => hr.mpr h.1⟩

theorem answered_ready (ds : List Delivery)
    (h : EveryStep (fun before d => Answered files (final (step files) .fresh before) d) ds) :
    (final (step files) .fresh ds).rx = .cleared ∧
      (final (step files) .fresh ds).isOpen = true := by
  induction ds using List.reverseRecOn with
  | nil => exact ⟨rfl,rfl⟩
  | append_singleton ds d _ =>
    rw [final_concat]
    exact ((everyStep_concat _ ds d).mp h).2.2

/-- On a live connection every complete request gets exactly one final
response, and the next one is parsed as a new request, exactly when every
request has an answer in the dispatch and none goes on after it was refused as
too large. -/
theorem one_response_iff (ds : List Delivery) :
    EveryStep (fun before d => Answered files (final (step files) .fresh before) d) ds ↔
      ∀ d ∈ ds, Answerable d := by
  induction ds using List.reverseRecOn with
  | nil => simp [everyStep_nil]
  | append_singleton ds d ih =>
    rw [everyStep_concat, List.forall_mem_append, List.forall_mem_singleton, ← ih]
    apply and_congr_right
    intro h
    obtain ⟨hrx,hopen⟩ := answered_ready files ds h
    exact answered_iff files _ hrx hopen d

/-- `GET /foo` in HTTP 1.1, delivered as one request event. -/
def unknownPage : Delivery where
  request := ⟨ascii "GET",ascii "/foo",1,1,[(ascii "host",ascii "localhost")],true⟩
  expect := false
  announced := true
  body := []
  parts := []
  valid := rfl
  alive := by decide
  whole _ := rfl
  nonempty := by simp

theorem unknown_page_unanswered : ¬ ∀ (files : Bytes → Bytes) (ds : List Delivery),
    EveryStep (fun before d => Answered files (final (step files) .fresh before) d) ds := by
  intro hall
  have h := (hall (fun _ => []) [unknownPage] [] unknownPage [] rfl).1
  exact absurd h (by decide)

end RethinkLog.WebAdmin
