import RethinkLog.ClientSession
import RethinkLog.Machine

/-!
# Accepting clients

The service keeps one accept outstanding and makes a session for each client.
Completion handlers run one at a time, in any order. A session starts its read
loop inside its constructor, where no shared pointer to it exists yet, so the
first client that is accepted ends the service by an exception.
-/

set_option autoImplicit false

namespace RethinkLog

def StdString.empty (block : ℕ → UInt8) : StdString where
  memory := 0 :: (List.range 15).map block
  size := 0
  room := by simp

/-- `ClientAPISession::ClientAPISession`; the object is not owned meanwhile. -/
def Session.construct (blocks : ℕ → ℕ → UInt8) : Except Exception Session :=
  Session.waitNextMsg
    { owned := false
      req := ⟨0,.empty (blocks 0),.empty (blocks 1)⟩
      blocks := fun n => blocks (n+2)
      reading := [] }

/-- `std::make_shared`: the shared pointer exists once the object does. -/
def Session.makeShared (blocks : ℕ → ℕ → UInt8) : Except Exception Session :=
  (Session.construct blocks).map (fun s => { s with owned := true })

namespace ClientService
open Machine

structure Client where
  socket : ℕ
  session : Session

/-- Connections are numbered as they arrive. An exception that leaves a
completion handler ends the run. -/
structure Service where
  accepts : ℕ
  cliSocket : Option ℕ
  clients : List Client
  arrivals : ℕ
  memory : ℕ → ℕ → ℕ → UInt8
  escaped : Option Exception

inductive Event where
  | accepted (ec : Bool)
  | read (client i : ℕ) (ec : Bool) (data : Bytes)
  deriving DecidableEq, Repr

def waitNextClient (v : Service) : Service := { v with accepts := v.accepts+1 }

/-- `ClientAPISvc::ClientAPISvc` -/
def start (memory : ℕ → ℕ → ℕ → UInt8) : Service := waitNextClient ⟨0,none,[],0,memory,none⟩

/-- An outstanding accept completes, and its handler runs. The constructor of
the session moves the connection out of `_cliSocket`, also when it throws. -/
def accepted (v : Service) (ec : Bool) : Service :=
  let v := { v with accepts := v.accepts-1 }
  if ec then v
  else
    let v := { v with cliSocket := some v.arrivals, arrivals := v.arrivals+1 }
    let w := { v with cliSocket := none, memory := fun n => v.memory (n+1) }
    match Session.makeShared (v.memory 0) with
    | .error e => { w with escaped := some e }
    | .ok s => waitNextClient { w with clients := w.clients ++ (v.cliSocket.map (⟨·,s⟩)).toList }

def read (v : Service) (k i : ℕ) (ec : Bool) (data : Bytes) : Option Bytes × Service :=
  match v.clients[k]? with
  | none => (none, v)
  | some c => match c.session.complete i ec data with
    | (seen, .error e) => (seen, { v with escaped := some e })
    | (seen, .ok s) => (seen, { v with clients := v.clients.set k { c with session := s } })

def step (v : Service) : Event → Option Bytes × Service
  | .accepted ec => (none, accepted v ec)
  | .read k i ec data => read v k i ec data

def Enabled (v : Service) (e : Event) : Prop :=
  v.escaped = none ∧ match e with
  | .accepted _ => 0 < v.accepts
  | .read k i ec data => ∃ c r, v.clients[k]? = some c ∧ c.session.reading[i]? = some r ∧
      (ec = false → data.length = c.session.requested r)

def Possible (v : Service) (es : List Event) : Prop :=
  EveryStep (fun before e => Enabled (final step v before) e) es

/-- What a completion may do. No exception leaves its handler. A client that
is accepted belongs to one session with one read outstanding, and one accept
is outstanding again. A read touches its own session only; an error ends it,
and otherwise it has one read outstanding. -/
def Proper (v : Service) (e : Event) (w : Service) : Prop :=
  w.escaped = none ∧ match e with
  | .accepted true => w.clients = v.clients
  | .accepted false => w.accepts = 1 ∧ ∃ c,
      w.clients.filter (fun c => c.socket = v.arrivals) = [c] ∧ c.session.reading.length = 1
  | .read k _ ec _ => w.accepts = v.accepts ∧ ∃ c s, v.clients[k]? = some c ∧
      w.clients = v.clients.set k { c with session := s } ∧
      s.reading.length = if ec then 0 else 1

structure Sane (v : Service) : Prop where
  running : v.escaped = none
  owned : ∀ c ∈ v.clients, c.session.owned = true
  single : ∀ c ∈ v.clients, c.session.reading.length ≤ 1

theorem start_sane (memory : ℕ → ℕ → ℕ → UInt8) : Sane (start memory) :=
  ⟨rfl,by simp [start, waitNextClient],by simp [start, waitNextClient]⟩

theorem construct_throws (blocks : ℕ → ℕ → UInt8) :
    Session.construct blocks = .error .badWeakPtr := rfl

theorem accept_escapes (v : Service) : (accepted v false).escaped = some .badWeakPtr ∧
    (accepted v false).accepts = v.accepts-1 ∧ (accepted v false).clients = v.clients ∧
      (accepted v false).cliSocket = none := by
  have hthrow : Session.makeShared (v.memory 0) = .error .badWeakPtr := by
    rw [Session.makeShared, construct_throws]
    rfl
  simp only [accepted, Bool.false_eq_true, if_false, hthrow, and_self]

theorem complete_owned (s : Session) (ho : s.owned = true) (r : Reading)
    (hr : s.reading = [r]) (ec : Bool) (data : Bytes) :
    ∃ t, (s.complete 0 ec data).2 = .ok t ∧ t.owned = true ∧
      t.reading.length = if ec then 0 else 1 := by
  cases r with
  | header =>
    simp only [Session.complete, hr, List.getElem?_cons_zero, List.eraseIdx_cons_zero]
    refine ⟨_,rfl,?_,?_⟩
    · cases ec <;> exact ho
    · cases ec <;> rfl
  | body =>
    simp only [Session.complete, hr, List.getElem?_cons_zero, List.eraseIdx_cons_zero]
    cases ec with
    | true => exact ⟨_,rfl,ho,rfl⟩
    | false => exact ⟨_,if_pos ho,ho,rfl⟩

theorem read_outcome (v : Service) (hs : Sane v) (k i : ℕ) (ec : Bool) (data : Bytes)
    (he : Enabled v (.read k i ec data)) :
    ∃ c s, v.clients[k]? = some c ∧ s.owned = true ∧ (s.reading.length = if ec then 0 else 1) ∧
      (read v k i ec data).2 = { v with clients := v.clients.set k { c with session := s } } := by
  obtain ⟨-,c,r,hc,hi,-⟩ := he
  have hm : c ∈ v.clients := List.mem_of_getElem? hc
  have hlen := hs.single c hm
  have hil := (List.getElem?_eq_some_iff.mp hi).1
  obtain rfl : i = 0 := by omega
  have hr : c.session.reading = [r] := by
    cases hx : c.session.reading with
    | nil => simp [hx] at hi
    | cons a rest =>
      cases rest with
      | nil => simpa [hx] using hi
      | cons b rest => simp [hx] at hlen
  obtain ⟨s,hs',ho,hl⟩ := complete_owned c.session (hs.owned c hm) r hr ec data
  refine ⟨c,s,hc,ho,hl,?_⟩
  unfold read
  rw [hc]
  dsimp only
  generalize c.session.complete 0 ec data = out at hs' ⊢
  obtain ⟨seen,u⟩ := out
  obtain rfl : u = .ok s := hs'
  rfl

theorem step_proper (v : Service) (hs : Sane v) (e : Event) (he : Enabled v e)
    (hn : e ≠ .accepted false) : Proper v e (step v e).2 ∧ Sane (step v e).2 := by
  cases e with
  | accepted ec =>
    cases ec with
    | true => exact ⟨⟨hs.running,rfl⟩,hs.running,hs.owned,hs.single⟩
    | false => exact absurd rfl hn
  | read k i ec data =>
    obtain ⟨c,s,hc,ho,hl,heq⟩ := read_outcome v hs k i ec data he
    rw [show (step v (.read k i ec data)).2 = _ from heq]
    have hmem : ∀ d ∈ v.clients.set k { c with session := s }, d ∈ v.clients ∨
        d = { c with session := s } := fun d hd => List.mem_or_eq_of_mem_set hd
    refine ⟨⟨hs.running,rfl,c,s,hc,rfl,hl⟩,hs.running,fun d hd => ?_,fun d hd => ?_⟩
    · rcases hmem d hd with hd | rfl
      · exact hs.owned d hd
      · exact ho
    · rcases hmem d hd with hd | rfl
      · exact hs.single d hd
      · change s.reading.length ≤ 1
        rw [hl]
        split <;> omega

theorem run_proper (v : Service) (hs : Sane v) (es : List Event) (hp : Possible v es)
    (hn : ∀ e ∈ es, e ≠ .accepted false) : Sane (final step v es) ∧
      EveryStep (fun before e =>
        Proper (final step v before) e (step (final step v before) e).2) es := by
  induction es using List.reverseRecOn with
  | nil => exact ⟨hs,everyStep_nil _⟩
  | append_singleton es e ih =>
    obtain ⟨hp,he⟩ := (everyStep_concat _ es e).mp hp
    obtain ⟨hsane,hproper⟩ := ih hp (fun f hf => hn f (by simp [hf]))
    have hstep := step_proper _ hsane e he (hn e (by simp))
    rw [final_concat, everyStep_concat]
    exact ⟨hstep.2,hproper,hstep.1⟩

/-- In every run of completions, from the start of the service or from any
state with owned sessions, each completion does what it may exactly when no
accept succeeds. -/
theorem lifecycle_iff (v : Service) (hs : Sane v) (es : List Event) (hp : Possible v es) :
    EveryStep (fun before e =>
      Proper (final step v before) e (step (final step v before) e).2) es ↔
        ∀ e ∈ es, e ≠ .accepted false := by
  constructor
  · rintro h e he rfl
    obtain ⟨before,after,rfl⟩ := List.append_of_mem he
    have hesc := (h before (.accepted false) after rfl).1
    exact absurd (hesc.symm.trans (accept_escapes _).1) (by simp)
  · exact fun hn => (run_proper v hs es hp hn).2

theorem first_client_escapes : ¬ ∀ (memory : ℕ → ℕ → ℕ → UInt8) (es : List Event),
    Possible (start memory) es → EveryStep (fun before e =>
      Proper (final step (start memory) before) e
        (step (final step (start memory) before) e).2) es := by
  intro hall
  have hp : Possible (start (fun _ _ _ => 0)) [.accepted false] :=
    (everyStep_concat _ [] _).mpr ⟨everyStep_nil _,rfl,Nat.one_pos⟩
  have hesc := (hall _ _ hp [] (.accepted false) [] rfl).1
  exact absurd (hesc.symm.trans (accept_escapes _).1) (by simp)

theorem lifecycle_iff_error : EveryStep (fun before e =>
    Proper (final step (start fun _ _ _ => 0) before) e
      (step (final step (start fun _ _ _ => 0) before) e).2) [.accepted true] := by
  have hp : Possible (start fun _ _ _ => 0) [.accepted true] :=
    (everyStep_concat _ [] _).mpr ⟨everyStep_nil _,rfl,Nat.one_pos⟩
  exact (lifecycle_iff (start fun _ _ _ => 0) (start_sane _) [.accepted true] hp).mpr (by decide)

end ClientService
end RethinkLog
