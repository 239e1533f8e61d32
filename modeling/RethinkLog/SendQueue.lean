import RethinkLog.Machine
import RethinkLog.Outbox

/-!
# The transmit queue of a connection

A connection keeps its packets in a queue and has one of them written at a
time. The socket completes its operations in any order and with any error
code; the callbacks of a connection run one after another. An error of a write
drops the queue, and an aborted operation is not looked at.
-/

set_option autoImplicit false

namespace RethinkLog.Comms
open Machine

inductive ErrorCode where
  | operationAborted
  | eof
  | connectionReset
  | other (value : ℕ)
  deriving DecidableEq, Repr

inductive Signal where
  | connected
  | received
  | sent
  | disconnected
  deriving DecidableEq, Repr

inductive Effect (α : Type) where
  | write (packet : α)
  | read
  | shutdown
  | event (s : Signal)
  | error (e : ErrorCode)
  deriving DecidableEq, Repr

def Effect.packet {α : Type} : Effect α → Option α
  | .write packet => some packet
  | _ => none

def Effect.isRead {α : Type} : Effect α → Bool
  | .read => true
  | _ => false

def Effect.isSent {α : Type} : Effect α → Bool
  | .event .sent => true
  | _ => false

/-- `tcp_adaptor::is_disconnect` -/
def isDisconnect (e : ErrorCode) : Bool := e = .connectionReset

structure Connection (α : Type) where
  txQueue : List α
  rxSize : ℕ
  connected : Bool
  deriving DecidableEq, Repr

variable {α : Type}

namespace Connection

def create : Connection α := ⟨[],0,false⟩

def writeData (c : Connection α) : List (Effect α) :=
  if c.connected then (c.txQueue.take 1).map .write else []

def sendData (c : Connection α) (packet : α) : List (Effect α) × Connection α :=
  let notWriting := c.txQueue.isEmpty
  let c := { c with txQueue := c.txQueue++[packet] }
  (if notWriting then c.writeData else [], c)

def signalError (e : ErrorCode) : List (Effect α) :=
  if e = .eof || isDisconnect e then [.event .disconnected] else [.error e]

def enableReception (c : Connection α) : List (Effect α) × Connection α :=
  ([.read], { c with rxSize := 0 })

def readHandler (c : Connection α) (bytes : ℕ) : List (Effect α) × Connection α :=
  let c := { c with rxSize := bytes }
  (.event .received :: c.enableReception.1, c.enableReception.2)

def readCallback (c : Connection α) (error : Option ErrorCode) (bytes : ℕ) :
    List (Effect α) × Connection α :=
  match error with
  | none => c.readHandler bytes
  | some .operationAborted => ([], c)
  | some e => (signalError e, c)

def writeHandler (c : Connection α) : List (Effect α) × Connection α :=
  let c := { c with txQueue := c.txQueue.drop 1 }
  ((if c.txQueue.isEmpty then [] else c.writeData) ++ [.event .sent], c)

def writeCallback (c : Connection α) (error : Option ErrorCode) :
    List (Effect α) × Connection α :=
  match error with
  | none => c.writeHandler
  | some .operationAborted => ([], c)
  | some e => (signalError e, { c with txQueue := [] })

def handshakeCallback (c : Connection α) (error : Option ErrorCode) :
    List (Effect α) × Connection α :=
  match error with
  | none =>
    let c := { c with connected := true }
    ((if c.txQueue.isEmpty then [] else c.writeData) ++ c.enableReception.1 ++
      [.event .connected], c.enableReception.2)
  | some .operationAborted => ([], c)
  | some e => (.shutdown :: signalError e, c)

end Connection

/-- A connection with the operations that its socket has under way, and the
packets that the socket has taken whole. -/
structure Link (α : Type) where
  connection : Connection α
  handshakes : ℕ
  reads : ℕ
  writes : List α
  wire : List α
  deriving DecidableEq, Repr

inductive Event (α : Type) where
  | send (packet : α)
  | handshake (error : Option ErrorCode)
  | read (error : Option ErrorCode) (bytes : ℕ)
  | write (k : ℕ) (error : Option ErrorCode)
  deriving DecidableEq, Repr

def Event.packet : Event α → Option α
  | .send packet => some packet
  | _ => none

namespace Link

def started : Link α := ⟨.create,1,0,[],[]⟩

def begun (l : Link α) : Effect α → Link α
  | .write packet => { l with writes := l.writes++[packet] }
  | .read => { l with reads := l.reads+1 }
  | _ => l

def after (l : Link α) (r : List (Effect α) × Connection α) :
    Option (List (Effect α)) × Link α :=
  (some r.1, r.1.foldl begun { l with connection := r.2 })

def step (l : Link α) : Event α → Option (List (Effect α)) × Link α
  | .send packet => l.after (l.connection.sendData packet)
  | .handshake e =>
    if l.handshakes = 0 then (none, l)
    else { l with handshakes := l.handshakes-1 }.after (l.connection.handshakeCallback e)
  | .read e bytes =>
    if l.reads = 0 then (none, l)
    else { l with reads := l.reads-1 }.after (l.connection.readCallback e bytes)
  | .write k e =>
    match l.writes[k]? with
    | none => (none, l)
    | some packet =>
      { l with
        writes := l.writes.eraseIdx k
        wire := l.wire ++ if e = none then [packet] else [] }.after
          (l.connection.writeCallback e)

abbrev History (α : Type) := List (Event α × Option (List (Effect α)))

def outcome : Event α × Option (List (Effect α)) → Option (Outbox.Op α)
  | (.send packet, _) => some (.put packet)
  | (.write _ none, some _) => some .deliver
  | (.write _ (some .operationAborted), _) => none
  | (.write _ (some _), some _) => some .fail
  | _ => none

def ledger (hist : History α) : Outbox α := Outbox.empty.run (hist.filterMap outcome)

def effects (hist : History α) : List (Effect α) := hist.flatMap (fun x => x.2.getD [])

def asked (es : List (Effect α)) : List α := es.filterMap Effect.packet

/-- The packets that were given to `send_data`. -/
def sent (hist : History α) : List α := hist.filterMap (fun x => x.1.packet)

def announced (hist : History α) : ℕ := ((effects hist).filter Effect.isSent).length

def Deaf (hist : History α) : Prop := ∃ c n es, (Event.read (some c) n, some es) ∈ hist

def Aborted (hist : History α) : Prop :=
  ∃ k es, (Event.write k (some .operationAborted), some es) ∈ hist

theorem outcome_item (x : Event α × Option (List (Effect α))) :
    (outcome x).bind Outbox.Op.item = x.1.packet := by
  obtain ⟨e,a⟩ := x
  cases e with
  | send p => rfl
  | handshake e => rfl
  | read e n => rfl
  | write k e => rcases a with _ | a <;> rcases e with _ | _ | _ | _ | _ <;> rfl

theorem ledger_items (hist : History α) : (ledger hist).items = sent hist := by
  rw [ledger, Outbox.run_items, Outbox.puts, List.filterMap_filterMap]
  simp only [outcome_item]
  rfl

theorem ledger_concat (hist : History α) (x : Event α × Option (List (Effect α))) :
    ledger (hist++[x]) = match outcome x with
      | none => ledger hist
      | some op => (ledger hist).step op := by
  rw [ledger, List.filterMap_append]
  cases ho : outcome x with
  | none => simp [ledger, ho]
  | some op => simp [ledger, ho, Outbox.run_concat]

theorem begun_effects (l : Link α) (es : List (Effect α)) :
    es.foldl begun l = { l with
      reads := l.reads+(es.filter Effect.isRead).length
      writes := l.writes++asked es } := by
  induction es generalizing l with
  | nil => simp [asked]
  | cons e es ih =>
    rw [List.foldl_cons, ih]
    cases e <;> simp [begun, asked, List.filterMap_cons, List.filter_cons, Effect.packet,
      Effect.isRead, Nat.add_assoc, Nat.add_comm 1]

def front (c : Connection α) : List α := if c.connected then c.txQueue.take 1 else []

/-- What a run keeps. Until a write is aborted, the packet in front is under
way; then it stays where it is. -/
structure Settles (l : Link α) (hist : History α) : Prop where
  waiting : (ledger hist).waiting = l.connection.txQueue
  wire : l.wire = (ledger hist).fated (· = .delivered)
  attempted : asked (effects hist) = (ledger hist).fated (· ≠ .dropped) ++ front l.connection
  announced : announced hist = l.wire.length
  once : l.handshakes ≤ 1 ∧ (l.connection.connected = true → l.handshakes = 0)
  live : ¬ Aborted hist → l.writes = front l.connection
  stuck : Aborted hist → l.writes = [] ∧ front l.connection ≠ []

theorem effects_concat (hist : History α) (e : Event α) (es : List (Effect α)) :
    effects (hist++[(e,some es)]) = effects hist ++ es := by
  simp [effects]

theorem aborted_concat (hist : History α) (x : Event α × Option (List (Effect α))) :
    Aborted (hist++[x]) ↔ Aborted hist ∨ Aborted [x] := by
  simp only [Aborted, List.mem_append, exists_or]

theorem not_aborted {e : Event α} {a : Option (List (Effect α))}
    (h : ∀ k, e ≠ .write k (some .operationAborted)) : ¬ Aborted [(e,a)] := by
  rintro ⟨k,es,hmem⟩
  exact h k (Prod.mk.inj (List.mem_singleton.mp hmem)).1.symm

theorem settles_idle {l : Link α} {hist : History α} (hs : Settles l hist) {e : Event α}
    (h : outcome (e,none) = none) : Settles l (hist++[(e,none)]) := by
  have hledger : ledger (hist++[(e,none)]) = ledger hist := by rw [ledger_concat, h]
  have heffects : effects (hist++[(e,none)]) = effects hist := by simp [effects]
  have haborted : Aborted (hist++[(e,none)]) ↔ Aborted hist := by
    rw [aborted_concat]
    simp [Aborted]
  constructor
  · rw [hledger, hs.waiting]
  · rw [hledger, hs.wire]
  · rw [hledger, heffects, hs.attempted]
  · rw [Link.announced, heffects]
    exact hs.announced
  · exact hs.once
  · rw [haborted]
    exact hs.live
  · rw [haborted]
    exact hs.stuck

@[simp] theorem asked_append (es fs : List (Effect α)) : asked (es++fs) = asked es ++ asked fs :=
  List.filterMap_append

@[simp] theorem asked_signal (e : ErrorCode) :
    asked (Connection.signalError e : List (Effect α)) = [] := by
  unfold Connection.signalError
  split <;> rfl

theorem after_eq (l : Link α) (r : List (Effect α) × Connection α) :
    l.after r = (some r.1, { l with
      connection := r.2
      reads := l.reads+(r.1.filter Effect.isRead).length
      writes := l.writes++asked r.1 }) := by
  rw [after, begun_effects]

theorem settles_asked {l : Link α} {hist : History α} (hs : Settles l hist) {e : Event α}
    {es : List (Effect α)} {m : Link α}
    (hledger : (ledger (hist++[(e,some es)])).settled = (ledger hist).settled ∧
      (ledger (hist++[(e,some es)])).waiting = m.connection.txQueue)
    (hfront : front m.connection = front l.connection ++ asked es)
    (hquiet : es.filter Effect.isSent = []) (hwire : m.wire = l.wire)
    (hwrites : m.writes = l.writes ++ asked es)
    (honce : m.handshakes ≤ 1 ∧ (m.connection.connected = true → m.handshakes = 0))
    (he : ∀ k, e ≠ .write k (some .operationAborted))
    (hstuck : front l.connection ≠ [] → asked es = []) :
    Settles m (hist++[(e,some es)]) := by
  have hfated (p : Fate → Bool) : (ledger (hist++[(e,some es)])).fated p =
      (ledger hist).fated p := by rw [Outbox.fated, hledger.1, Outbox.fated]
  have haborted : Aborted (hist++[(e,some es)]) ↔ Aborted hist := by
    rw [aborted_concat]
    exact or_iff_left (not_aborted he)
  constructor
  · exact hledger.2
  · rw [hfated, hwire, hs.wire]
  · rw [hfated, effects_concat, asked_append, hs.attempted, hfront, List.append_assoc]
  · rw [Link.announced, effects_concat, List.filter_append, hquiet, List.append_nil, hwire]
    exact hs.announced
  · exact honce
  · rw [haborted, hwrites, hfront]
    exact fun h => congrArg (· ++ asked es) (hs.live h)
  · rw [haborted, hwrites, hfront]
    intro h
    obtain ⟨hw,hne⟩ := hs.stuck h
    rw [hw, hstuck hne]
    exact ⟨rfl,by simpa using hne⟩

theorem sendData_asks (c : Connection α) (p : α) :
    let r := c.sendData p
    front r.2 = front c ++ asked r.1 ∧ r.1.filter Effect.isSent = [] ∧
      (front c ≠ [] → asked r.1 = []) := by
  obtain ⟨q,n,connected⟩ := c
  cases connected <;> cases q <;> simp [front, Connection.sendData, Connection.writeData, asked,
    Effect.packet, Effect.isSent]

theorem settles_send {l : Link α} {hist : History α} (hs : Settles l hist) (p : α) :
    Settles (l.step (.send p)).2 (hist++[(.send p,(l.step (.send p)).1)]) := by
  obtain ⟨hfront,hquiet,hstuck⟩ := sendData_asks l.connection p
  rw [step, after_eq]
  refine settles_asked hs ?_ hfront hquiet rfl rfl hs.once (by simp) hstuck
  rw [ledger_concat]
  exact ⟨rfl,congrArg (· ++ [p]) hs.waiting⟩

theorem readCallback_asks (c : Connection α) (e : Option ErrorCode) (n : ℕ) :
    let r := c.readCallback e n
    r.2.txQueue = c.txQueue ∧ r.2.connected = c.connected ∧ asked r.1 = [] ∧
      r.1.filter Effect.isSent = [] := by
  rcases e with _ | _ | _ | _ | _ <;> exact ⟨rfl,rfl,rfl,rfl⟩

theorem settles_read {l : Link α} {hist : History α} (hs : Settles l hist)
    (e : Option ErrorCode) (n : ℕ) :
    Settles (l.step (.read e n)).2 (hist++[(.read e n,(l.step (.read e n)).1)]) := by
  rw [step]
  by_cases hr : l.reads = 0
  · rw [if_pos hr]
    exact settles_idle hs rfl
  · obtain ⟨hqueue,hconnected,hasked,hquiet⟩ := readCallback_asks l.connection e n
    rw [if_neg hr, after_eq]
    refine settles_asked hs ?_ ?_ hquiet rfl rfl ?_ (by simp) (fun _ => hasked)
    · rw [ledger_concat]
      exact ⟨rfl,hs.waiting.trans hqueue.symm⟩
    · rw [front, hqueue, hconnected, hasked, List.append_nil, front]
    · rw [hconnected]
      exact hs.once

theorem handshakeCallback_asks (c : Connection α) (h : c.connected = false)
    (e : Option ErrorCode) :
    let r := c.handshakeCallback e
    r.2.txQueue = c.txQueue ∧ front r.2 = asked r.1 ∧ r.1.filter Effect.isSent = [] := by
  obtain ⟨q,n,connected⟩ := c
  obtain rfl : connected = false := h
  rcases e with _ | _ | _ | _ | _
  · cases q <;> simp [front, Connection.handshakeCallback, Connection.enableReception,
      Connection.writeData, asked, Effect.packet, Effect.isSent]
  all_goals exact ⟨rfl,rfl,rfl⟩

theorem settles_handshake {l : Link α} {hist : History α} (hs : Settles l hist)
    (e : Option ErrorCode) :
    Settles (l.step (.handshake e)).2 (hist++[(.handshake e,(l.step (.handshake e)).1)]) := by
  rw [step]
  by_cases hh : l.handshakes = 0
  · rw [if_pos hh]
    exact settles_idle hs rfl
  · have hc : l.connection.connected = false := by
      rw [← Bool.not_eq_true]
      exact fun h => hh (hs.once.2 h)
    have hnone : front l.connection = [] := by simp [front, hc]
    have hzero : l.handshakes-1 = 0 := Nat.sub_eq_zero_of_le hs.once.1
    obtain ⟨hqueue,hfront,hquiet⟩ := handshakeCallback_asks l.connection hc e
    rw [if_neg hh, after_eq]
    refine settles_asked hs ?_ ?_ hquiet rfl rfl ⟨?_,fun _ => hzero⟩ (by simp)
      (fun h => absurd hnone h)
    · rw [ledger_concat]
      exact ⟨rfl,hs.waiting.trans hqueue.symm⟩
    · rw [hnone, hfront, List.nil_append]
    · exact Nat.le_trans (Nat.le_of_eq hzero) (Nat.zero_le 1)

theorem Settles.under_way {l : Link α} {hist : History α} (hs : Settles l hist) {k : ℕ} {p : α}
    (h : l.writes[k]? = some p) : k = 0 ∧ l.writes = [p] ∧ l.connection.connected = true ∧
      ¬ Aborted hist ∧ ∃ q, l.connection.txQueue = p::q := by
  have hlive : ¬ Aborted hist := by
    intro ha
    rw [(hs.stuck ha).1] at h
    simp at h
  have hwrites := hs.live hlive
  unfold front at hwrites
  cases hc : l.connection.connected with
  | false =>
    rw [hwrites, hc] at h
    simp at h
  | true =>
    rw [hc, if_pos rfl] at hwrites
    cases hq : l.connection.txQueue with
    | nil =>
      rw [hwrites, hq] at h
      simp at h
    | cons a q =>
      rw [hq] at hwrites
      obtain ⟨rfl,rfl⟩ : k = 0 ∧ a = p := by
        rw [hwrites] at h
        cases k <;> simp_all
      exact ⟨rfl,hwrites,rfl,hlive,q,rfl⟩

theorem settles_written {l : Link α} {hist : History α} (hs : Settles l hist) {p : α}
    (h : l.writes[0]? = some p) :
    Settles (l.step (.write 0 none)).2 (hist++[(.write 0 none,(l.step (.write 0 none)).1)]) := by
  obtain ⟨-,hwrites,hc,hlive,q,hq⟩ := hs.under_way h
  have hfront : front l.connection = [p] := by simp [front, hc, hq]
  have hwaiting := hs.waiting.trans hq
  have hasked : asked (l.connection.writeCallback none).1 =
      front (l.connection.writeCallback none).2 := by
    cases q <;> simp [front, Connection.writeCallback, Connection.writeHandler,
      Connection.writeData, hc, hq, asked, Effect.packet]
  have hsent : ((l.connection.writeCallback none).1.filter Effect.isSent).length = 1 := by
    cases q <;> simp [Connection.writeCallback, Connection.writeHandler, Connection.writeData,
      hc, hq, Effect.isSent, List.filter_cons]
  have hledger (es : List (Effect α)) : ledger (hist++[(.write 0 none,some es)]) =
      (ledger hist).step .deliver := ledger_concat _ _
  have haborted (es : List (Effect α)) : ¬ Aborted (hist++[(.write 0 none,some es)]) := by
    rw [aborted_concat]
    exact not_or.mpr ⟨hlive,not_aborted (by simp)⟩
  rw [step, h]
  dsimp only
  rw [after_eq]
  constructor
  · rw [hledger, Outbox.step, hwaiting]
    simp [Connection.writeCallback, Connection.writeHandler, hq]
  · rw [hledger, Outbox.fated_step _ _ _ hwaiting, ← hs.wire]
    simp
  · rw [hledger, Outbox.fated_step _ _ _ hwaiting, effects_concat, asked_append, hs.attempted,
      hasked, hfront]
    simp
  · rw [Link.announced, effects_concat, List.filter_append, List.length_append, hsent]
    have hcount := hs.announced
    rw [Link.announced] at hcount
    simp [hcount]
  · exact hs.once
  · intro _
    simp [hwrites, hasked]
  · exact fun ha => absurd ha (haborted _)

theorem settles_aborted {l : Link α} {hist : History α} (hs : Settles l hist) {p : α}
    (h : l.writes[0]? = some p) :
    let e : Event α := .write 0 (some .operationAborted)
    Settles (l.step e).2 (hist++[(e,(l.step e).1)]) := by
  intro e
  obtain ⟨-,hwrites,hc,-,q,hq⟩ := hs.under_way h
  have hstep : l.step e = (some [],{ l with writes := [] }) := by
    simp [step, e, after, Connection.writeCallback, hwrites]
  have hledger : ledger (hist++[(e,some [])]) = ledger hist := ledger_concat _ _
  have heffects : effects (hist++[(e,some [])]) = effects hist := by
    rw [effects_concat, List.append_nil]
  have haborted : Aborted (hist++[(e,some [])]) := ⟨0,[],by simp [e]⟩
  rw [hstep]
  constructor
  · exact (congrArg Outbox.waiting hledger).trans hs.waiting
  · rw [hledger]
    exact hs.wire
  · rw [hledger, heffects]
    exact hs.attempted
  · rw [Link.announced, heffects]
    exact hs.announced
  · exact hs.once
  · exact fun hn => absurd haborted hn
  · exact fun _ => ⟨rfl,by simp [front, hc, hq]⟩

theorem settles_failed {l : Link α} {hist : History α} (hs : Settles l hist) {p : α}
    (h : l.writes[0]? = some p) {c : ErrorCode} (hn : c ≠ .operationAborted) :
    let e : Event α := .write 0 (some c)
    Settles (l.step e).2 (hist++[(e,(l.step e).1)]) := by
  intro e
  obtain ⟨-,hwrites,hc,hlive,q,hq⟩ := hs.under_way h
  have hfront : front l.connection = [p] := by simp [front, hc, hq]
  have hwaiting := hs.waiting.trans hq
  have hstep : l.step e = (some (Connection.signalError c),
      { l with connection := { l.connection with txQueue := [] }, writes := [] }) := by
    have hcall : l.connection.writeCallback (some c) =
        (Connection.signalError c,{ l.connection with txQueue := [] }) := by
      cases c with
      | operationAborted => exact absurd rfl hn
      | eof => rfl
      | connectionReset => rfl
      | other n => rfl
    have hread : (Connection.signalError c : List (Effect α)).filter Effect.isRead = [] := by
      unfold Connection.signalError
      split <;> rfl
    simp [step, e, after_eq, hcall, hread, hwrites]
  have hsent : (Connection.signalError c : List (Effect α)).filter Effect.isSent = [] := by
    unfold Connection.signalError
    split <;> rfl
  have hout (es : List (Effect α)) : outcome (e,some es) = some .fail := by
    cases c with
    | operationAborted => exact absurd rfl hn
    | eof => rfl
    | connectionReset => rfl
    | other n => rfl
  have hledger (es : List (Effect α)) :
      ledger (hist++[(e,some es)]) = (ledger hist).step .fail := by
    rw [ledger_concat, hout]
  have haborted (es : List (Effect α)) : ¬ Aborted (hist++[(e,some es)]) := by
    rw [aborted_concat]
    refine not_or.mpr ⟨hlive,not_aborted fun k hk => hn ?_⟩
    exact Option.some.inj (Event.write.inj hk).2
  rw [hstep]
  constructor
  · rw [hledger]
    rfl
  · rw [hledger, Outbox.fated_step _ _ _ hwaiting, ← hs.wire]
    simp
  · rw [hledger, Outbox.fated_step _ _ _ hwaiting, effects_concat, asked_append, hs.attempted,
      asked_signal, hfront]
    simp [front]
  · rw [Link.announced, effects_concat, List.filter_append, hsent, List.append_nil]
    exact hs.announced
  · exact hs.once
  · simp [front]
  · exact fun ha => absurd ha (haborted _)

theorem settles_step {l : Link α} {hist : History α} (hs : Settles l hist) (e : Event α) :
    Settles (l.step e).2 (hist++[(e,(l.step e).1)]) := by
  cases e with
  | send p => exact settles_send hs p
  | handshake e => exact settles_handshake hs e
  | read e n => exact settles_read hs e n
  | write k e =>
    cases hk : l.writes[k]? with
    | none =>
      have hidle : l.step (.write k e) = (none,l) := by simp [step, hk]
      rw [hidle]
      exact settles_idle hs (by rcases e with _ | _ | _ | _ | _ <;> rfl)
    | some p =>
      obtain ⟨rfl,-⟩ := hs.under_way hk
      by_cases ha : e = some .operationAborted
      · subst ha
        exact settles_aborted hs hk
      · cases e with
        | none => exact settles_written hs hk
        | some c => exact settles_failed hs hk (fun hc => ha (congrArg some hc))

theorem run_settles (es : List (Event α)) :
    Settles (final step started es) (history step started es) := by
  apply history_invariant step Settles
  · constructor <;> simp [ledger, Outbox.run, Outbox.empty, started, Connection.create,
      Outbox.fated, effects, asked, front, Link.announced, Aborted]
  · exact fun l hist e hs => settles_step hs e

structure Listens (l : Link α) (hist : History α) : Prop where
  once : l.handshakes ≤ 1 ∧ (l.connection.connected = true → l.handshakes = 0)
  before : l.connection.connected = false → l.reads = 0 ∧ ¬ Deaf hist
  hearing : l.connection.connected = true → ¬ Deaf hist → l.reads = 1
  deaf : Deaf hist → l.reads = 0

theorem deaf_concat (hist : History α) (x : Event α × Option (List (Effect α))) :
    Deaf (hist++[x]) ↔ Deaf hist ∨ Deaf [x] := by
  simp only [Deaf, List.mem_append, exists_or]

theorem listens_same {l m : Link α} {hist : History α} (hl : Listens l hist)
    (x : Event α × Option (List (Effect α))) (hx : ¬ Deaf [x])
    (hc : m.connection.connected = l.connection.connected) (hh : m.handshakes = l.handshakes)
    (hr : m.reads = l.reads) : Listens m (hist++[x]) := by
  have hdeaf : Deaf (hist++[x]) ↔ Deaf hist := by
    rw [deaf_concat]
    exact or_iff_left hx
  constructor
  · rw [hc, hh]
    exact hl.once
  · rw [hc, hr, hdeaf]
    exact hl.before
  · rw [hc, hr, hdeaf]
    exact hl.hearing
  · rw [hr, hdeaf]
    exact hl.deaf

theorem not_deaf {e : Event α} {a : Option (List (Effect α))}
    (h : ∀ c n, e ≠ .read (some c) n) : ¬ Deaf [(e,a)] := by
  rintro ⟨c,n,es,hmem⟩
  exact h c n (Prod.mk.inj (List.mem_singleton.mp hmem)).1.symm

theorem unanswered_hears (e : Event α) : ¬ Deaf [(e,none)] := by
  rintro ⟨c,n,es,hmem⟩
  exact Option.some_ne_none _ (Prod.mk.inj (List.mem_singleton.mp hmem)).2

theorem listens_handshake {l : Link α} {hist : History α} (hl : Listens l hist)
    (e : Option ErrorCode) :
    Listens (l.step (.handshake e)).2 (hist++[(.handshake e,(l.step (.handshake e)).1)]) := by
  rw [step]
  by_cases hh : l.handshakes = 0
  · rw [if_pos hh]
    exact listens_same hl _ (not_deaf (by simp)) rfl rfl rfl
  · have hc : l.connection.connected = false := by
      rw [← Bool.not_eq_true]
      exact fun h => hh (hl.once.2 h)
    have hzero : l.handshakes-1 = 0 := Nat.sub_eq_zero_of_le hl.once.1
    obtain ⟨hreads,hheard⟩ := hl.before hc
    have hdeaf (a : Option (List (Effect α))) : ¬ Deaf (hist++[(.handshake e,a)]) := by
      rw [deaf_concat]
      exact not_or.mpr ⟨hheard,not_deaf (by simp)⟩
    have honce : l.handshakes-1 ≤ 1 := Nat.le_trans (Nat.le_of_eq hzero) (Nat.zero_le 1)
    rw [if_neg hh, after_eq]
    constructor
    · exact ⟨honce,fun _ => hzero⟩
    · rcases e with _ | _ | _ | _ | _
      · exact fun h => Bool.noConfusion h
      all_goals exact fun _ => ⟨hreads,hdeaf _⟩
    · rcases e with _ | _ | _ | _ | _
      · intro _ _
        cases hq : l.connection.txQueue <;> simp [hreads, hq, Connection.handshakeCallback,
          Connection.enableReception, Connection.writeData, Effect.isRead, List.filter_cons]
      all_goals exact fun h => absurd (hc.symm.trans h) (by simp)
    · exact fun h => absurd h (hdeaf _)

theorem listens_read {l : Link α} {hist : History α} (hl : Listens l hist)
    (e : Option ErrorCode) (n : ℕ) :
    Listens (l.step (.read e n)).2 (hist++[(.read e n,(l.step (.read e n)).1)]) := by
  rw [step]
  by_cases hr : l.reads = 0
  · rw [if_pos hr]
    exact listens_same hl _ (unanswered_hears _) rfl rfl rfl
  · have hheard : ¬ Deaf hist := fun h => hr (hl.deaf h)
    have hc : l.connection.connected = true := by
      rw [← Bool.not_eq_false]
      exact fun h => hr (hl.before h).1
    have hone := hl.hearing hc hheard
    rw [if_neg hr, after_eq]
    cases e with
    | none => exact listens_same hl _ (not_deaf (by simp)) rfl rfl (by
        simp [hone, Connection.readCallback, Connection.readHandler, Connection.enableReception,
          Effect.isRead, List.filter_cons])
    | some c =>
      have hconnected : (l.connection.readCallback (some c) n).2.connected = true := by
        cases c <;> exact hc
      have hnone : ((l.connection.readCallback (some c) n).1).filter Effect.isRead = [] := by
        cases c <;> rfl
      have hdeaf (es : List (Effect α)) : Deaf (hist++[(.read (some c) n,some es)]) :=
        ⟨c,n,es,by simp⟩
      constructor
      · exact ⟨hl.once.1,fun _ => hl.once.2 hc⟩
      · exact fun h => absurd (h.symm.trans hconnected) (by simp)
      · exact fun _ h => absurd (hdeaf _) h
      · intro _
        simp [hnone, hone]

theorem writeHandler_reads (c : Connection α) : c.writeHandler.1.filter Effect.isRead = [] := by
  obtain ⟨q,n,connected⟩ := c
  rcases q with _ | ⟨p,_ | ⟨r,q⟩⟩ <;> cases connected <;> rfl

theorem listens_step {l : Link α} {hist : History α} (hl : Listens l hist) (e : Event α) :
    Listens (l.step e).2 (hist++[(e,(l.step e).1)]) := by
  cases e with
  | send p =>
    have hnone : (l.connection.sendData p).1.filter Effect.isRead = [] := by
      obtain ⟨⟨q,n,c⟩,_,_,_,_⟩ := l
      cases c <;> cases q <;> simp [Connection.sendData, Connection.writeData, Effect.isRead]
    rw [step, after_eq]
    exact listens_same hl _ (not_deaf (by simp)) rfl rfl (by simp [hnone])
  | handshake e => exact listens_handshake hl e
  | read e n => exact listens_read hl e n
  | write k e =>
    rw [step]
    cases hk : l.writes[k]? with
    | none => exact listens_same hl _ (not_deaf (by simp)) rfl rfl rfl
    | some p =>
      have hcall : (l.connection.writeCallback e).2.connected = l.connection.connected ∧
          (l.connection.writeCallback e).1.filter Effect.isRead = [] := by
        rcases e with _ | _ | _ | _ | _
        · exact ⟨rfl,writeHandler_reads l.connection⟩
        all_goals exact ⟨rfl,rfl⟩
      dsimp only
      rw [after_eq]
      exact listens_same hl _ (not_deaf (by simp)) hcall.1 rfl (by simp [hcall.2])

theorem run_listens (es : List (Event α)) :
    Listens (final step started es) (history step started es) := by
  apply history_invariant step Listens
  · constructor <;> simp [started, Connection.create, Deaf]
  · exact fun l hist e hl => listens_step hl e

/-- In every run the packets that were sent are settled one by one in their
order, or wait. The socket has taken those that were delivered, and was asked
for no other but the one in front and those that failed. -/
theorem sends_settled (es : List (Event α)) :
    let hist := history step started es
    let l := final step started es
    sent hist = (ledger hist).settled.map Prod.fst ++ l.connection.txQueue ∧
      l.wire = (ledger hist).fated (· = .delivered) ∧
      asked (effects hist) = (ledger hist).fated (· ≠ .dropped) ++ front l.connection ∧
      announced hist = l.wire.length := by
  have hs := run_settles es
  refine ⟨?_,hs.wire,hs.attempted,hs.announced⟩
  rw [← ledger_items, Outbox.items, hs.waiting]

theorem history_reaches (es fs : List (Event α)) :
    final step started (es++fs) = final step (final step started es) fs ∧
      history step started (es++fs) =
        history step started es ++ history step (final step started es) fs :=
  ⟨final_append step _ es fs,history_append step _ es fs⟩

theorem wire_idle {l : Link α} (h : l.writes = []) (e : Event α) : (l.step e).2.wire = l.wire := by
  cases e with
  | send p => rw [step, after_eq]
  | handshake e =>
    rw [step]
    split
    · rfl
    · rw [after_eq]
  | read e n =>
    rw [step]
    split
    · rfl
    · rw [after_eq]
  | write k e => simp [step, h]

theorem wire_stopped (es : List (Event α)) (ha : Aborted (history step started es))
    (fs : List (Event α)) :
    (final step (final step started es) fs).wire = (final step started es).wire := by
  induction fs using List.reverseRecOn with
  | nil => rfl
  | append_singleton fs f ih =>
    obtain ⟨hfinal,hhist⟩ := history_reaches es fs
    have hlater : Aborted (history step started (es++fs)) := by
      obtain ⟨k,xs,hmem⟩ := ha
      exact ⟨k,xs,by simp [hhist, hmem]⟩
    have hidle := ((run_settles (es++fs)).stuck hlater).1
    rw [hfinal] at hidle
    rw [final_concat, wire_idle hidle, ih]

def Faultless (es : List (Event α)) : Prop := ∀ k c, Event.write k (some c) ∉ es

theorem faultless_delivers {es : List (Event α)} (h : Faultless es) :
    sent (history step started es) =
      (final step started es).wire ++ (final step started es).connection.txQueue := by
  have hs := run_settles es
  have hall : ∀ x ∈ (ledger (history step started es)).settled, x.2 = .delivered := by
    refine Outbox.run_delivered Outbox.empty _ (by simp [Outbox.empty]) fun op hop => ?_
    obtain ⟨⟨e,a⟩,hmem,ho⟩ := List.mem_filterMap.mp hop
    have he : e ∈ es := by
      rw [← history_events step started es]
      exact List.mem_map_of_mem hmem
    rintro rfl
    rcases e with p | e | ⟨e,n⟩ | ⟨k,_ | c⟩
    · simp [outcome] at ho
    · simp [outcome] at ho
    · simp [outcome] at ho
    · cases a <;> simp [outcome] at ho
    · exact h k c he
  have hwire := hs.wire
  rw [Outbox.fated, List.filter_eq_self.mpr (by simpa using hall)] at hwire
  rw [← ledger_items, Outbox.items, ← hwire, hs.waiting]

def completions (n : ℕ) : List (Event α) := List.replicate n (.write 0 none)

theorem completion_drops (es : List (Event α)) (ha : ¬ Aborted (history step started es))
    (hc : (final step started es).connection.connected = true) :
    let m := final step started (es++[.write 0 none])
    m.connection.connected = true ∧ ¬ Aborted (history step started (es++[.write 0 none])) ∧
      m.connection.txQueue = (final step started es).connection.txQueue.drop 1 := by
  have hs := run_settles es
  have hwrites := hs.live ha
  have hnot : ¬ Aborted (history step started (es++[.write 0 none])) := by
    rw [history_concat, aborted_concat]
    exact not_or.mpr ⟨ha,not_aborted (by simp)⟩
  refine ⟨?_,hnot,?_⟩ <;> rw [final_concat, step] <;> cases hq : (final step
    started es).connection.txQueue <;> simp [hwrites, front, hc, hq, after_eq,
      Connection.writeCallback, Connection.writeHandler]

theorem faultless_alive {es : List (Event α)} (h : Faultless es) :
    ¬ Aborted (history step started es) := by
  rintro ⟨k,xs,hmem⟩
  refine h k .operationAborted ?_
  rw [← history_events step started es]
  exact List.mem_map_of_mem hmem

theorem completions_drop (es : List (Event α)) (h : Faultless es)
    (hc : (final step started es).connection.connected = true) (n : ℕ) :
    let m := final step started (es++completions n)
    m.connection.connected = true ∧ ¬ Aborted (history step started (es++completions n)) ∧
      m.connection.txQueue = (final step started es).connection.txQueue.drop n := by
  induction n with
  | zero =>
    rw [completions, List.replicate_zero, List.append_nil]
    exact ⟨hc,faultless_alive h,rfl⟩
  | succ n ih =>
    obtain ⟨hn,ha,hq⟩ := ih
    obtain ⟨hm,hb,hr⟩ := completion_drops (es++completions n) ha hn
    rw [completions, List.replicate_succ', ← List.append_assoc]
    refine ⟨hm,hb,hr.trans ?_⟩
    rw [hq, List.drop_drop]

/-- When no write fails, the socket has taken the packets in the order of
sending, and takes them all once the writes that wait are completed. -/
theorem queue_drains (es : List (Event α)) (h : Faultless es)
    (hc : (final step started es).connection.connected = true) :
    let l := final step started es
    l.wire <+: sent (history step started es) ∧
      (final step l (completions l.connection.txQueue.length)).wire =
        sent (history step started es) := by
  intro l
  refine ⟨by rw [faultless_delivers h]; exact List.prefix_append _ _,?_⟩
  have hfull : Faultless (es++completions l.connection.txQueue.length) := by
    intro k c hmem
    rcases List.mem_append.mp hmem with hmem | hmem
    · exact h k c hmem
    · simp [completions] at hmem
  obtain ⟨-,-,hqueue⟩ := completions_drop es h hc l.connection.txQueue.length
  have hsent := faultless_delivers hfull
  obtain ⟨hfinal,hhist⟩ := history_reaches es (completions l.connection.txQueue.length)
  have hnone (n : ℕ) (k : Link α) : sent (history step k (completions n)) = [] := by
    induction n generalizing k with
    | zero => rfl
    | succ n ih => exact ih _
  rw [hqueue, List.drop_length, List.append_nil, hhist, sent, List.filterMap_append, ← sent,
    ← sent, hnone, List.append_nil, hfinal] at hsent
  exact hsent.symm

theorem queue_drains_three :
    let es : List (Event ℕ) := [.send 1,.handshake none,.send 2,.write 0 none,.send 3]
    let l := final step started es
    l.wire = [1] ∧ (final step l (completions 2)).wire = [1,2,3] := by
  intro es l
  exact ⟨by decide,(queue_drains es (by intro k c; simp [es]) (by decide)).2⟩

end Link

end RethinkLog.Comms
