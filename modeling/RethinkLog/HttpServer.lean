import RethinkLog.SendQueue
import RethinkLog.FirstResponse

/-!
# The connections of a server

A server keeps its connections in a set, and an HTTP connection for each that
it has heard of in a map whose keys are addresses. An HTTP connection has a
weak pointer to its connection; memory that is free is used again. Events of
the connections come in any order. Every connection is answered as if it were
the only one, and its end is told once if it was heard of.
-/

set_option autoImplicit false

namespace RethinkLog.Via
open Comms Machine

structure Peer where
  pointer : ℕ
  serial : ℕ
  deriving DecidableEq, Repr

/-- An `http_connection` with the connection that it has a weak pointer to. -/
structure HttpEntry where
  serial : ℕ
  http : Connection
  deriving DecidableEq, Repr

structure HttpServer where
  created : ℕ
  acceptorOpen : Bool
  nextConnection : Option Peer
  connections : List Peer
  httpConnections : ℕ → Option HttpEntry

inductive Output where
  | sent (serial : ℕ) (response : Response)
  | disconnected (serial : ℕ)
  deriving DecidableEq, Repr

def Output.response (n : ℕ) : Output → Option Response
  | .sent m r => if m = n then some r else none
  | .disconnected _ => none

inductive ServerEvent where
  | listen (bound : Bool) (pointer : ℕ)
  | accept (error : Option ErrorCode) (pointer : ℕ)
  | signal (serial : ℕ) (s : Signal) (data : Bytes)
  | error (serial : ℕ) (e : ErrorCode)
  | close
  deriving DecidableEq, Repr

namespace HttpServer

def create : HttpServer := ⟨0,false,none,[],fun _ => none⟩

def live (s : HttpServer) : List Peer := s.nextConnection.toList ++ s.connections

/-- `server::start_accept`, with the address of the new connection. -/
def startAccept (s : HttpServer) (pointer : ℕ) : HttpServer :=
  { s with created := s.created+1, nextConnection := some ⟨pointer,s.created⟩ }

/-- `server::accept_connections` when no acceptor is open. -/
def acceptConnections (s : HttpServer) (bound : Bool) (pointer : ℕ) : HttpServer :=
  let s := { s with acceptorOpen := true }
  if bound then s.startAccept pointer else s

def acceptHandler (s : HttpServer) (error : Option ErrorCode) (pointer : ℕ) : HttpServer :=
  if s.acceptorOpen = true ∧ error ≠ some .operationAborted then
    (if error = none then
      { s with connections := s.live, nextConnection := none }
    else s).startAccept pointer
  else s

variable (files : Bytes → Bytes)

/-- `http_connection::receive` for an event of `p`. Only the connection of the
event has data in its buffer, and one that is gone is not read. -/
def receive (s : HttpServer) (e : HttpEntry) (p : Peer) (data : Bytes) :
    List Response × Connection :=
  if e.serial = p.serial then e.http.receivePacket files data
  else if e.serial ∈ s.live.map Peer.serial then e.http.receivePacket files []
  else ([], e.http)

def receiveHandler (s : HttpServer) (p : Peer) (data : Bytes) : List Output × HttpServer :=
  let e := (s.httpConnections p.pointer).getD ⟨p.serial,.ready⟩
  let r := s.receive files e p data
  (r.1.map (.sent e.serial), { s with
    httpConnections := Function.update s.httpConnections p.pointer (some ⟨e.serial,r.2⟩) })

def disconnectedHandler (s : HttpServer) (p : Peer) : List Output × HttpServer :=
  match s.httpConnections p.pointer with
  | none => ([], s)
  | some e => ([.disconnected e.serial], { s with
      httpConnections := Function.update s.httpConnections p.pointer none })

/-- `http_server::event_handler` -/
def httpEvent (s : HttpServer) (p : Peer) (event : Signal) (data : Bytes) :
    List Output × HttpServer :=
  match event with
  | .received => s.receiveHandler files p data
  | .disconnected => s.disconnectedHandler p
  | _ => ([], s)

/-- `server::event_handler` -/
def eventHandler (s : HttpServer) (p : Peer) (event : Signal) (data : Bytes) :
    List Output × HttpServer :=
  let r := s.httpEvent files p event data
  if event = .disconnected then
    (r.1, { r.2 with connections := r.2.connections.filter (· ≠ p) })
  else r

def close (s : HttpServer) : HttpServer :=
  { s with
    acceptorOpen := false
    nextConnection := none
    connections := []
    httpConnections := fun _ => none }

/-- An event of a connection that is gone is not heard, and no address is given
out that is in use. -/
def step (s : HttpServer) : ServerEvent → Option (List Output) × HttpServer
  | .listen bound pointer =>
    if s.acceptorOpen = true ∨ pointer ∈ s.live.map Peer.pointer then (none, s)
    else (some [], s.acceptConnections bound pointer)
  | .accept error pointer =>
    if s.nextConnection = none ∨ pointer ∈ s.live.map Peer.pointer then (none, s)
    else (some [], s.acceptHandler error pointer)
  | .signal n event data =>
    match s.connections.find? (fun p => p.serial = n) with
    | none => (none, s)
    | some p => (some (s.eventHandler files p event data).1, (s.eventHandler files p event data).2)
  | .error _ _ => (some [], s)
  | .close => (some [], s.close)

abbrev History := List (ServerEvent × Option (List Output))

def heard (n : ℕ) (hist : History) : List Bytes :=
  hist.filterMap (fun x => match x with
    | (.signal m .received data, some _) => if m = n then some data else none
    | _ => none)

def gone (n : ℕ) (hist : History) : Bool :=
  hist.any (fun x => match x with
    | (.signal m .disconnected _, some _) => m = n
    | _ => false)

def outputs (hist : History) : List Output := hist.flatMap (fun x => x.2.getD [])

def sentTo (n : ℕ) (hist : History) : List Response := (outputs hist).filterMap (Output.response n)

def told (n : ℕ) (hist : History) : ℕ := (outputs hist).count (.disconnected n)

def entryOf (n : ℕ) (packets : List Bytes) : Option HttpEntry :=
  if packets = [] then none
  else some ⟨n,final (Connection.receivePacket files) .ready packets⟩

/-- What a run keeps. -/
structure Serves (s : HttpServer) (hist : History) : Prop where
  numbered : ∀ p ∈ s.live, p.serial < s.created
  unique : ∀ p ∈ s.live, ∀ q ∈ s.live, p.pointer = q.pointer ∨ p.serial = q.serial → p = q
  held : ∀ p ∈ s.connections,
    s.httpConnections p.pointer = entryOf files p.serial (heard p.serial hist)
  owned : ∀ k e, s.httpConnections k = some e → ∃ p ∈ s.connections, p.pointer = k
  waiting : ∀ p ∈ s.nextConnection, p ∉ s.connections ∧ heard p.serial hist = []
  later : ∀ n, s.created ≤ n → heard n hist = [] ∧ gone n hist = false
  ended : ∀ n, gone n hist = true → ∀ p ∈ s.live, p.serial ≠ n
  sent : ∀ n, sentTo n hist = Connection.responses files .ready (heard n hist)
  told : ∀ n, told n hist = if gone n hist = true ∧ heard n hist ≠ [] then 1 else 0

variable {files} {s : HttpServer} {hist : History}

theorem heard_concat (n : ℕ) (hist : History) (x : ServerEvent × Option (List Output)) :
    heard n (hist++[x]) = heard n hist ++ heard n [x] := List.filterMap_append

theorem gone_concat (n : ℕ) (hist : History) (x : ServerEvent × Option (List Output)) :
    gone n (hist++[x]) = (gone n hist || gone n [x]) := List.any_append

theorem sentTo_concat (n : ℕ) (hist : History) (x : ServerEvent × Option (List Output)) :
    sentTo n (hist++[x]) = sentTo n hist ++ sentTo n [x] := by
  rw [sentTo, outputs, List.flatMap_append, List.filterMap_append]
  rfl

theorem told_concat (n : ℕ) (hist : History) (x : ServerEvent × Option (List Output)) :
    told n (hist++[x]) = told n hist + told n [x] := by
  rw [told, outputs, List.flatMap_append, List.count_append]
  rfl

structure Silent (x : ServerEvent × Option (List Output)) : Prop where
  heard : ∀ n, heard n [x] = []
  gone : ∀ n, gone n [x] = false
  quiet : outputs [x] = []

namespace Silent
variable {x : ServerEvent × Option (List Output)} (hx : Silent x)
include hx

theorem heard_eq (n : ℕ) : HttpServer.heard n (hist++[x]) = HttpServer.heard n hist := by
  rw [heard_concat, hx.heard, List.append_nil]

theorem gone_eq (n : ℕ) : HttpServer.gone n (hist++[x]) = HttpServer.gone n hist := by
  rw [gone_concat, hx.gone, Bool.or_false]

theorem sent_eq (n : ℕ) : sentTo n (hist++[x]) = sentTo n hist := by
  rw [sentTo_concat, sentTo, sentTo, hx.quiet, List.filterMap_nil, List.append_nil]

theorem told_eq (n : ℕ) : HttpServer.told n (hist++[x]) = HttpServer.told n hist := by
  rw [told_concat, HttpServer.told, HttpServer.told, hx.quiet, List.count_nil, Nat.add_zero]

end Silent

theorem silent_none (e : ServerEvent) : Silent (e,none) := by
  refine ⟨fun n => ?_,fun n => ?_,rfl⟩
  · cases e with
    | signal m event data => cases event <;> rfl
    | _ => rfl
  · cases e with
    | signal m event data => cases event <;> rfl
    | _ => rfl

theorem silent_other {e : ServerEvent} (h : ∀ n data, e ≠ .signal n .received data)
    (g : ∀ n data, e ≠ .signal n .disconnected data) : Silent (e,some []) := by
  refine ⟨fun n => ?_,fun n => ?_,rfl⟩
  · cases e with
    | signal m event data =>
      cases event with
      | received => exact absurd rfl (h m data)
      | _ => rfl
    | _ => rfl
  · cases e with
    | signal m event data =>
      cases event with
      | disconnected => exact absurd rfl (g m data)
      | _ => rfl
    | _ => rfl

theorem mem_live {p : Peer} : p ∈ s.live ↔ p ∈ s.nextConnection ∨ p ∈ s.connections := by
  simp [live]

theorem Serves.live_held (hs : Serves files s hist) {p : Peer} (hp : p ∈ s.live) :
    s.httpConnections p.pointer = entryOf files p.serial (heard p.serial hist) := by
  rcases mem_live.mp hp with hn | hc
  · rw [entryOf, if_pos (hs.waiting p hn).2]
    cases he : s.httpConnections p.pointer with
    | none => rfl
    | some e =>
      obtain ⟨q,hq,hqp⟩ := hs.owned _ e he
      obtain rfl := hs.unique q (mem_live.mpr (Or.inr hq)) p hp (Or.inl hqp)
      exact absurd hq (hs.waiting q hn).1
  · exact hs.held p hc

theorem serves_silent (hs : Serves files s hist) {x : ServerEvent × Option (List Output)}
    (hx : Silent x) : Serves files s (hist++[x]) := by
  constructor
  · exact hs.numbered
  · exact hs.unique
  · intro p hp
    rw [hx.heard_eq]
    exact hs.held p hp
  · exact hs.owned
  · intro p hp
    rw [hx.heard_eq]
    exact hs.waiting p hp
  · intro n hn
    rw [hx.heard_eq, hx.gone_eq]
    exact hs.later n hn
  · intro n
    rw [hx.gone_eq]
    exact hs.ended n
  · intro n
    rw [hx.sent_eq, hx.heard_eq]
    exact hs.sent n
  · intro n
    rw [hx.told_eq, hx.gone_eq, hx.heard_eq]
    exact hs.told n

theorem serves_created (hs : Serves files s hist) {conns : List Peer}
    (hin : ∀ p ∈ s.connections, p ∈ conns) (hlive : ∀ p ∈ conns, p ∈ s.live) {pointer : ℕ}
    (hp : pointer ∉ s.live.map Peer.pointer) (acceptorOpen : Bool) :
    Serves files (startAccept
      { s with acceptorOpen := acceptorOpen, connections := conns } pointer) hist := by
  have hnew : ∀ p ∈ s.live, p.pointer ≠ pointer ∧ p.serial ≠ s.created := by
    intro p hpl
    refine ⟨?_,(hs.numbered p hpl).ne⟩
    rintro rfl
    exact hp (List.mem_map_of_mem hpl)
  have hmem {p : Peer} (h : p ∈ live (startAccept
      { s with acceptorOpen := acceptorOpen, connections := conns } pointer)) :
      p = ⟨pointer,s.created⟩ ∨ p ∈ s.live := by
    rcases mem_live.mp h with h | h
    · exact Or.inl (Option.mem_some.mp h).symm
    · exact Or.inr (hlive p h)
  obtain ⟨hheard,hgone⟩ := hs.later s.created le_rfl
  constructor
  · intro p hpl
    rcases hmem hpl with rfl | hpl
    · exact Nat.lt_succ_self _
    · exact Nat.lt_succ_of_lt (hs.numbered p hpl)
  · intro p hpl q hql h
    rcases hmem hpl with rfl | hpl <;> rcases hmem hql with rfl | hql
    · rfl
    · exact absurd h (not_or.mpr ⟨(hnew q hql).1.symm,(hnew q hql).2.symm⟩)
    · exact absurd h (not_or.mpr (hnew p hpl))
    · exact hs.unique p hpl q hql h
  · exact fun p hpc => hs.live_held (hlive p hpc)
  · intro k e he
    obtain ⟨p,hpc,hk⟩ := hs.owned k e he
    exact ⟨p,hin p hpc,hk⟩
  · intro p hpn
    obtain rfl := Option.mem_some.mp hpn
    exact ⟨fun hpc => (hnew _ (hlive _ hpc)).1 rfl,hheard⟩
  · exact fun n hn => hs.later n (Nat.le_of_succ_le hn)
  · intro n hn p hpl
    rcases hmem hpl with rfl | hpl
    · rintro rfl
      exact absurd (hn.symm.trans hgone) (by simp)
    · exact hs.ended n hn p hpl
  · exact hs.sent
  · exact hs.told

theorem serves_closed (hs : Serves files s hist) : Serves files s.close hist := by
  have hnone : s.close.live = [] := rfl
  constructor
  · simp [hnone]
  · simp [hnone]
  · simp [close]
  · simp [close]
  · simp [close]
  · exact hs.later
  · simp [hnone]
  · exact hs.sent
  · exact hs.told

theorem responses_concat (packets : List Bytes) (data : Bytes) :
    Connection.responses files .ready (packets++[data]) =
      Connection.responses files .ready packets ++
        ((final (Connection.receivePacket files) .ready packets).receivePacket files data).1 :=
  (Connection.admin files).replies_concat .ready packets data

theorem entryOf_concat (n : ℕ) (packets : List Bytes) (data : Bytes) :
    entryOf files n (packets++[data]) =
      some ⟨n,((final (Connection.receivePacket files) .ready packets).receivePacket files
        data).2⟩ := by
  rw [entryOf, if_neg (by simp), final_concat]

theorem entryOf_getD (n : ℕ) (packets : List Bytes) :
    (entryOf files n packets).getD ⟨n,.ready⟩ =
      ⟨n,final (Connection.receivePacket files) .ready packets⟩ := by
  unfold entryOf
  by_cases h : packets = []
  · rw [if_pos h, h]
    rfl
  · rw [if_neg h]
    rfl

theorem received_eq (hs : Serves files s hist) {p : Peer} (hp : p ∈ s.live) (data : Bytes) :
    let c := final (Connection.receivePacket files) .ready (heard p.serial hist)
    s.receiveHandler files p data =
      ((c.receivePacket files data).1.map (.sent p.serial), { s with
        httpConnections := Function.update s.httpConnections p.pointer
          (some ⟨p.serial,(c.receivePacket files data).2⟩) }) := by
  intro c
  rw [receiveHandler, hs.live_held hp, entryOf_getD]
  dsimp only
  rw [receive, if_pos rfl]

theorem sent_response (n m : ℕ) (rs : List Response) :
    (rs.map (Output.sent n)).filterMap (Output.response m) = if n = m then rs else [] := by
  induction rs with
  | nil => simp
  | cons r rs ih =>
    rw [List.map_cons, List.filterMap_cons, ih]
    by_cases h : n = m <;> simp [Output.response, h]

theorem serves_received (hs : Serves files s hist) {p : Peer} (hp : p ∈ s.connections)
    (data : Bytes) :
    Serves files (s.receiveHandler files p data).2
      (hist++[(.signal p.serial .received data,some (s.receiveHandler files p data).1)]) := by
  have hpl : p ∈ s.live := mem_live.mpr (Or.inr hp)
  rw [received_eq hs hpl]
  generalize hx : (ServerEvent.signal p.serial .received data,
    some ((Connection.receivePacket files (final (Connection.receivePacket files) .ready
      (heard p.serial hist)) data).1.map (Output.sent p.serial))) = x
  have hheard (n : ℕ) : heard n (hist++[x]) =
      heard n hist ++ if p.serial = n then [data] else [] := by
    rw [heard_concat, ← hx]
    by_cases h : p.serial = n <;> simp [heard, h]
  have hsame {q : Peer} (hq : q ∈ s.live) (hne : q ≠ p) :
      heard q.serial (hist++[x]) = heard q.serial hist := by
    rw [hheard, if_neg (fun h => hne (hs.unique q hq p hpl (Or.inr h.symm))), List.append_nil]
  have hgone (n : ℕ) : gone n (hist++[x]) = gone n hist := by
    rw [gone_concat, ← hx]
    exact Bool.or_false _
  have hsent (n : ℕ) : sentTo n (hist++[x]) = sentTo n hist ++ if p.serial = n then
      ((final (Connection.receivePacket files) .ready (heard p.serial hist)).receivePacket files
        data).1 else [] := by
    rw [sentTo_concat, ← hx, ← sent_response]
    simp [sentTo, outputs]
  have htold (n : ℕ) : told n (hist++[x]) = told n hist := by
    rw [told_concat, ← hx]
    simp [told, outputs, List.count_eq_zero]
  constructor
  · exact hs.numbered
  · exact hs.unique
  · intro q hq
    by_cases hqp : q = p
    · subst hqp
      rw [hheard, if_pos rfl, entryOf_concat]
      exact Function.update_self ..
    · have hql : q ∈ s.live := mem_live.mpr (Or.inr hq)
      have hpointer : q.pointer ≠ p.pointer := fun h => hqp (hs.unique q hql p hpl (Or.inl h))
      rw [hsame hql hqp, ← hs.held q hq]
      exact Function.update_of_ne hpointer ..
  · intro k e he
    by_cases hk : k = p.pointer
    · exact ⟨p,hp,hk.symm⟩
    · exact hs.owned k e ((Function.update_of_ne hk ..).symm.trans he)
  · intro q hq
    obtain ⟨hnew,hnone⟩ := hs.waiting q hq
    have hne : q ≠ p := fun h => hnew (h ▸ hp)
    rw [hsame (mem_live.mpr (Or.inl hq)) hne]
    exact ⟨hnew,hnone⟩
  · intro n hn
    have hne : p.serial ≠ n := (Nat.lt_of_lt_of_le (hs.numbered p hpl) hn).ne
    rw [hheard, hgone, if_neg hne, List.append_nil]
    exact hs.later n hn
  · intro n
    rw [hgone]
    exact hs.ended n
  · intro n
    rw [hsent, hheard, hs.sent]
    by_cases h : p.serial = n
    · subst h
      rw [if_pos rfl, if_pos rfl, responses_concat]
    · rw [if_neg h, if_neg h, List.append_nil, List.append_nil]
  · intro n
    rw [htold, hgone, hs.told, hheard]
    by_cases h : p.serial = n
    · have hlive : ¬ gone n hist = true := fun hg => hs.ended n hg p hpl h
      simp [hlive]
    · rw [if_neg h, List.append_nil]

theorem disconnected_eq (hs : Serves files s hist) {p : Peer} (hp : p ∈ s.live) (data : Bytes) :
    s.eventHandler files p .disconnected data =
      (if heard p.serial hist = [] then [] else [.disconnected p.serial], { s with
        connections := s.connections.filter (· ≠ p)
        httpConnections := Function.update s.httpConnections p.pointer none }) := by
  have hheld := hs.live_held hp
  rw [eventHandler, httpEvent, if_pos rfl]
  by_cases hnone : heard p.serial hist = []
  · rw [entryOf, if_pos hnone] at hheld
    have hsame : Function.update s.httpConnections p.pointer none = s.httpConnections := by
      rw [← hheld, Function.update_eq_self]
    simp only [disconnectedHandler, hheld, hnone, if_true, hsame]
  · rw [entryOf, if_neg hnone] at hheld
    simp only [disconnectedHandler, hheld, hnone, if_false]

theorem serves_disconnected (hs : Serves files s hist) {p : Peer} (hp : p ∈ s.connections)
    (data : Bytes) :
    Serves files (s.eventHandler files p .disconnected data).2
      (hist++[(.signal p.serial .disconnected data,
        some (s.eventHandler files p .disconnected data).1)]) := by
  have hpl : p ∈ s.live := mem_live.mpr (Or.inr hp)
  rw [disconnected_eq hs hpl]
  generalize hx : (ServerEvent.signal p.serial .disconnected data,
    some (if heard p.serial hist = [] then [] else [Output.disconnected p.serial])) = x
  have hheard (n : ℕ) : heard n (hist++[x]) = heard n hist := by
    rw [heard_concat, ← hx]
    exact List.append_nil _
  have hgone (n : ℕ) : gone n (hist++[x]) = (gone n hist || decide (p.serial = n)) := by
    rw [gone_concat, ← hx]
    simp [gone]
  have hsent (n : ℕ) : sentTo n (hist++[x]) = sentTo n hist := by
    rw [sentTo_concat, ← hx]
    by_cases h : heard p.serial hist = [] <;> simp [sentTo, outputs, Output.response, h]
  have htold (n : ℕ) : told n (hist++[x]) = told n hist +
      if p.serial = n ∧ heard n hist ≠ [] then 1 else 0 := by
    rw [told_concat, ← hx]
    by_cases h : p.serial = n
    · subst h
      by_cases hn : heard p.serial hist = [] <;> simp [told, outputs, hn]
    · by_cases hn : heard p.serial hist = [] <;> simp [told, outputs, hn, h]
  have hless {q : Peer} (hq : q ∈ live { s with
      connections := s.connections.filter (· ≠ p)
      httpConnections := Function.update s.httpConnections p.pointer none }) :
      q ∈ s.live ∧ q ≠ p := by
    rcases mem_live.mp hq with hq | hq
    · exact ⟨mem_live.mpr (Or.inl hq),fun h => (hs.waiting q hq).1 (h ▸ hp)⟩
    · obtain ⟨hqc,hne⟩ := List.mem_filter.mp hq
      exact ⟨mem_live.mpr (Or.inr hqc),of_decide_eq_true hne⟩
  constructor
  · exact fun q hq => hs.numbered q (hless hq).1
  · exact fun q hq r hr h => hs.unique q (hless hq).1 r (hless hr).1 h
  · intro q hq
    obtain ⟨hql,hne⟩ := hless (mem_live.mpr (Or.inr hq))
    have hpointer : q.pointer ≠ p.pointer := fun h => hne (hs.unique q hql p hpl (Or.inl h))
    rw [hheard, ← hs.live_held hql]
    exact Function.update_of_ne hpointer ..
  · intro k e he
    dsimp only at he ⊢
    by_cases hk : k = p.pointer
    · subst hk
      rw [Function.update_self] at he
      exact absurd he (by simp)
    · rw [Function.update_of_ne hk] at he
      obtain ⟨q,hq,hqk⟩ := hs.owned k e he
      have hne : q ≠ p := by
        rintro rfl
        exact hk hqk.symm
      exact ⟨q,List.mem_filter.mpr ⟨hq,decide_eq_true hne⟩,hqk⟩
  · intro q hq
    obtain ⟨hnew,hnone⟩ := hs.waiting q hq
    rw [hheard]
    exact ⟨fun h => hnew (List.mem_filter.mp h).1,hnone⟩
  · intro n hn
    have hne : p.serial ≠ n := (Nat.lt_of_lt_of_le (hs.numbered p hpl) hn).ne
    obtain ⟨hnone,hlive⟩ := hs.later n hn
    rw [hheard, hgone, hlive]
    exact ⟨hnone,by simp [hne]⟩
  · intro n hn q hq
    obtain ⟨hql,hne⟩ := hless hq
    rw [hgone, Bool.or_eq_true, decide_eq_true_eq] at hn
    rcases hn with hn | rfl
    · exact hs.ended n hn q hql
    · exact fun h => hne (hs.unique q hql p hpl (Or.inr h))
  · intro n
    rw [hsent, hheard]
    exact hs.sent n
  · intro n
    rw [htold, hgone, hheard, hs.told]
    by_cases h : p.serial = n
    · have hlive : ¬ gone n hist = true := fun hg => hs.ended n hg p hpl h
      simp [hlive, h]
    · simp [h]

theorem serves_step (hs : Serves files s hist) (e : ServerEvent) :
    Serves files (s.step files e).2 (hist++[(e,(s.step files e).1)]) := by
  cases e with
  | listen bound pointer =>
    rw [step]
    by_cases hno : s.acceptorOpen = true ∨ pointer ∈ s.live.map Peer.pointer
    · rw [if_pos hno]
      exact serves_silent hs (silent_none _)
    · rw [if_neg hno]
      refine serves_silent ?_ (silent_other (by simp) (by simp))
      cases bound with
      | true =>
        exact serves_created hs (fun p hp => hp) (fun p hp => mem_live.mpr (Or.inr hp))
          (not_or.mp hno).2 true
      | false =>
        exact ⟨hs.numbered,hs.unique,hs.held,hs.owned,hs.waiting,hs.later,hs.ended,hs.sent,
          hs.told⟩
  | accept error pointer =>
    rw [step]
    by_cases hno : s.nextConnection = none ∨ pointer ∈ s.live.map Peer.pointer
    · rw [if_pos hno]
      exact serves_silent hs (silent_none _)
    · rw [if_neg hno]
      refine serves_silent ?_ (silent_other (by simp) (by simp))
      unfold acceptHandler
      split
      · by_cases he : error = none
        · rw [if_pos he]
          exact serves_created hs (fun p hp => mem_live.mpr (Or.inr hp)) (fun p hp => hp)
            (not_or.mp hno).2 s.acceptorOpen
        · rw [if_neg he]
          exact serves_created hs (fun p hp => hp) (fun p hp => mem_live.mpr (Or.inr hp))
            (not_or.mp hno).2 s.acceptorOpen
      · exact hs
  | signal n event data =>
    rw [step]
    cases hf : s.connections.find? (fun p => p.serial = n) with
    | none => exact serves_silent hs (silent_none _)
    | some p =>
      have hp := List.mem_of_find?_eq_some hf
      obtain rfl : p.serial = n := by simpa using List.find?_some hf
      cases event with
      | received => exact serves_received hs hp data
      | disconnected => exact serves_disconnected hs hp data
      | connected => exact serves_silent hs (silent_other (by simp) (by simp))
      | sent => exact serves_silent hs (silent_other (by simp) (by simp))
  | error n e => exact serves_silent hs (silent_other (by simp) (by simp))
  | close => exact serves_silent (serves_closed hs) (silent_other (by simp) (by simp))

theorem run_serves (es : List ServerEvent) :
    Serves files (final (step files) create es) (history (step files) create es) := by
  apply history_invariant (step files) (Serves files)
  · constructor <;> simp [create, live, heard, gone, sentTo, told, outputs, Connection.responses,
      Service.replies, answers]
  · exact fun s hist e hs => serves_step hs e

/-- In every run, whatever comes of the other connections and whatever memory is
used again, a connection is sent what it would be sent if it were the only one. -/
theorem responses_isolated (es : List ServerEvent) (n : ℕ) :
    let hist := history (step files) create es
    sentTo n hist = Connection.responses files .ready (heard n hist) :=
  (run_serves es).sent n

theorem unheard {n : ℕ} (h : ∀ p ∈ s.connections, p.serial ≠ n) (e : ServerEvent) :
    heard n [(e,(s.step files e).1)] = [] := by
  cases e with
  | signal m event data =>
    cases event with
    | received =>
      by_cases hm : m = n
      · subst hm
        have hnone : s.connections.find? (fun p => p.serial = m) = none := by
          simpa using h
        rw [step, hnone]
        rfl
      · cases hs : (s.step files (.signal m .received data)).1 <;> simp [heard, hm]
    | _ => rfl
  | _ => rfl

theorem unheard_after (es : List ServerEvent) {n : ℕ}
    (h : gone n (history (step files) create es) = true) (fs : List ServerEvent) :
    gone n (history (step files) create (es++fs)) = true ∧
      heard n (history (step files) create (es++fs)) =
        heard n (history (step files) create es) := by
  induction fs using List.reverseRecOn with
  | nil =>
    rw [List.append_nil]
    exact ⟨h,rfl⟩
  | append_singleton fs f ih =>
    obtain ⟨hgone,hheard⟩ := ih
    have hended := (run_serves (es++fs)).ended n hgone
    have hnone : heard n [(f,((final (step files) create (es++fs)).step files f).1)] = [] :=
      unheard (fun p hp => hended p (mem_live.mpr (Or.inr hp))) f
    rw [← List.append_assoc, history_concat, gone_concat, heard_concat, hgone, hheard, hnone]
    exact ⟨rfl,List.append_nil _⟩

/-- In every run the map has the connections that were heard of and no other,
each with the HTTP connection of its own packets. The end of such a
connection is told once, and it is not heard again. -/
theorem connections_tracked (es : List ServerEvent) :
    let hist := history (step files) create es
    let s := final (step files) create es
    (∀ k e, s.httpConnections k = some e ↔
      ∃ p ∈ s.connections, p.pointer = k ∧ entryOf files p.serial (heard p.serial hist) = some e) ∧
    ∀ n, told n hist = (if gone n hist = true ∧ heard n hist ≠ [] then 1 else 0) ∧
      (gone n hist = true →
        ∀ fs, heard n (history (step files) create (es++fs)) = heard n hist) := by
  intro hist s
  have hs : Serves files s hist := run_serves es
  refine ⟨fun k e => ?_,fun n => ⟨hs.told n,fun hg fs => (unheard_after es hg fs).2⟩⟩
  constructor
  · intro he
    obtain ⟨p,hp,rfl⟩ := hs.owned k e he
    exact ⟨p,hp,rfl,(hs.held p hp).symm.trans he⟩
  · rintro ⟨p,hp,rfl,he⟩
    exact (hs.held p hp).trans he

end HttpServer

end RethinkLog.Via
