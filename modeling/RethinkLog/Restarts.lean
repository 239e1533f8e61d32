import RethinkLog.Storage
import RethinkLog.Offsets
import RethinkLog.RecordStream
import RethinkLog.FrameBuilding

/-!
# Offsets across restarts

A process that starts again makes a new storage over the disk as it is, and
its stripes count from the beginning. What the frames of a stripe hold is
still the journal of all accepted records, over every restart. Their offsets
increase exactly when no restarted count falls behind what is recorded.
-/

set_option autoImplicit false

namespace RethinkLog.Restarts
open FramePath LogIntegrity Machine Storage

inductive Event where
  | publish (key data localtime : Bytes)
  | restart
  deriving DecidableEq, Repr

def Event.publishes : Event → Bool
  | .publish _ _ _ => true
  | .restart => false

def call (key data localtime : Bytes) : Call := ⟨uint64Max,key,data,localtime⟩

def step (W : JsonWriter) (id : Bytes) (s : Storage) : Event → Option Answer × Storage
  | .publish key data localtime => s.publish W id key data localtime
  | .restart => (none, make s.host)

def replies (hist : List (Event × Option Answer)) : List (Call × Reply) :=
  hist.filterMap (fun x => x.2.map (fun a => (a.call,a.reply)))

def since (events : List Event) : ℕ := (events.reverse.takeWhile Event.publishes).length

theorem since_publish (events : List Event) (key data localtime : Bytes) :
    since (events++[.publish key data localtime]) = since events+1 := by
  simp [since, Event.publishes, List.takeWhile_cons]

theorem since_restart (events : List Event) : since (events++[.restart]) = 0 := by
  simp [since, Event.publishes]

section Run
variable (W : JsonWriter) (id : Bytes) (h : Host)

def after (events : List Event) : Storage := final (step W id) (make h) events

def log (events : List Event) : List (Call × Reply) := replies (history (step W id) (make h) events)

def recorded (events : List Event) : List UInt64 := (accepted (log W id h events)).map Record.offset

def found (events : List Event) : Bytes := (opened (log W id h events)).flatMap
  (fun n => (after W id h events).host.disk.written (framePath h.cwd id n))

def OffsetsIncrease (events : List Event) : Prop :=
  ∀ rs, found W id h events = text W rs → (rs.map Record.offset).Pairwise (· < ·)

def Admitted (before : List Event) : Event → Prop
  | .publish key data localtime => ((after W id h before).serving id).Accepts W
      (after W id h before).host (call key data localtime)
  | .restart => False

/-- Of two publishes that have a frame for their record, the later one has more
publishes between it and the restart before it, as a counter of 64 bits counts. -/
def Abreast (events : List Event) : Prop :=
  EveryStep (fun before e => Admitted W id h before e →
    ∀ first f, first++[f] <+: before → Admitted W id h first f →
      UInt64.ofNat (since first+2) < UInt64.ofNat (since before+2)) events

/-- What the run keeps: the stripe's frames hold the accepted records, and its
counter counts the publishes since the last restart. -/
structure Kept (events : List Event) (s : Storage) (hist : List (Call × Reply)) : Prop where
  registered : Registered s
  named : (s.serving id).id = id
  cwd : s.host.cwd = h.cwd
  counter : (s.serving id).lastOffset = UInt64.ofNat (since events+1)
  journal : ∃ j : Journal FrameName Record, Keeps W h.disk (s.serving id,s.host) j ∧
    j.names = opened hist ∧ j.records = accepted hist

theorem make_registered (k : Host) : Registered (make k) := by
  simp [Registered, make, masterStripes, replicaStripes]

def met (events : List Event) : Stripe × Host :=
  ((after W id h events).serving id,(after W id h events).host)

variable {W id h}

theorem log_publish (events : List Event) (key data localtime : Bytes)
    (hr : Registered (after W id h events)) :
    log W id h (events++[.publish key data localtime]) = log W id h events ++
      [(call key data localtime,(stripeStep W (met W id h events)
        (call key data localtime)).1)] := by
  rw [log, history_concat, replies, List.filterMap_append]
  simp only [step]
  rw [show final (step W id) (make h) events = after W id h events from rfl,
    (publish_serves W _ id key data localtime hr).1]
  rfl

theorem log_restart (events : List Event) :
    log W id h (events++[.restart]) = log W id h events := by
  rw [log, history_concat, replies, List.filterMap_append]
  exact List.append_nil _

theorem met_publish (events : List Event) (key data localtime : Bytes)
    (hr : Registered (after W id h events)) :
    Registered (after W id h (events++[.publish key data localtime])) ∧
      met W id h (events++[.publish key data localtime]) =
        (stripeStep W (met W id h events) (call key data localtime)).2 := by
  obtain ⟨-,hserving,hhost,hreg⟩ :=
    publish_serves W (after W id h events) id key data localtime hr
  have hafter : after W id h (events++[.publish key data localtime]) =
      ((after W id h events).publish W id key data localtime).2 := final_concat ..
  rw [met, hafter]
  exact ⟨hreg,Prod.ext hserving hhost⟩

theorem met_assign (events : List Event)
    (hk : Kept W id h events (after W id h events) (log W id h events)) :
    ((met W id h events).1.assign uint64Max).1 = UInt64.ofNat (since events+2) ∧
      ((met W id h events).1.assign uint64Max).2.lastOffset = UInt64.ofNat (since events+2) := by
  have hcounter : (met W id h events).1.lastOffset = _ := hk.counter
  rw [Stripe.assign, if_pos rfl, hcounter, Offsets.ofNat_succ]
  exact ⟨rfl,rfl⟩

theorem kept_publish (events : List Event) (key data localtime : Bytes)
    (hk : Kept W id h events (after W id h events) (log W id h events)) :
    Kept W id h (events++[.publish key data localtime])
      (after W id h (events++[.publish key data localtime]))
      (log W id h (events++[.publish key data localtime])) := by
  obtain ⟨hreg,hmet⟩ := met_publish events key data localtime hk.registered
  obtain ⟨hserving,hhost⟩ := Prod.ext_iff.mp hmet
  obtain ⟨j,hj,hn,hr⟩ := hk.journal
  have hj : Keeps W h.disk (met W id h events) j := hj
  have hkeeps := keeps_step _ hj (call key data localtime)
  rw [← hmet] at hkeeps
  obtain ⟨hi,hc⟩ := step_host W (met W id h events) (call key data localtime)
  obtain ⟨han,har⟩ := advance_reply _ hj (call key data localtime)
  have hcounter := Stripe.call_counter W (met W id h events).1 (met W id h events).2
    (call key data localtime)
  rw [log_publish events key data localtime hk.registered]
  constructor
  · exact hreg
  · exact (congrArg Stripe.id hserving).trans (hi.trans hk.named)
  · exact (congrArg Host.cwd hhost).trans (hc.trans hk.cwd)
  · rw [since_publish]
    exact (congrArg Stripe.lastOffset hserving).trans (hcounter.trans (met_assign events hk).2)
  · exact ⟨_,hkeeps,by rw [han, hn, opened_concat],by rw [har, hr, accepted_concat]⟩

theorem kept_restart (events : List Event)
    (hk : Kept W id h events (after W id h events) (log W id h events)) :
    Kept W id h (events++[.restart]) (after W id h (events++[.restart]))
      (log W id h (events++[.restart])) := by
  rw [log_restart, show after W id h (events++[.restart]) = make (after W id h events).host by
    rw [after, final_concat]; rfl]
  obtain ⟨j,hj,hn,hr⟩ := hk.journal
  unfold Keeps at hj
  rw [hk.named] at hj
  refine ⟨make_registered _,rfl,hk.cwd,?_,j,?_,hn,hr⟩
  · rw [since_restart]
    rfl
  · exact represents_grown hj (Disk.Grown.refl _) none (Or.inr rfl)

variable (W id h)

theorem run_kept (events : List Event) :
    Kept W id h events (after W id h events) (log W id h events) := by
  induction events using List.reverseRecOn with
  | nil => exact ⟨make_registered h,rfl,rfl,rfl,[],represents_start W h.cwd id h.disk,rfl,rfl⟩
  | append_singleton events e ih =>
    cases e with
    | publish key data localtime => exact kept_publish events key data localtime ih
    | restart => exact kept_restart events ih

theorem found_text (events : List Event) :
    found W id h events = text W (accepted (log W id h events)) := by
  have hk := run_kept W id h events
  obtain ⟨j,hj,hn,hr⟩ := hk.journal
  unfold Keeps at hj
  rw [hk.named, hk.cwd] at hj
  rw [found, ← hn, ← hr, Journal.names, Journal.records, List.flatMap_map, text,
    List.flatMap_assoc]
  exact List.flatMap_congr hj.content

theorem increase_iff (events : List Event) :
    OffsetsIncrease W id h events ↔ (recorded W id h events).Pairwise (· < ·) := by
  constructor
  · exact fun hi => hi _ (found_text W id h events)
  · intro hp rs hrs
    rw [found_text] at hrs
    rwa [← RecordStream.text_injective W hrs]

theorem recorded_publish (events : List Event) (key data localtime : Bytes) :
    recorded W id h (events++[.publish key data localtime]) = recorded W id h events ∧
      ¬ Admitted W id h events (.publish key data localtime) ∨
    recorded W id h (events++[.publish key data localtime]) =
      recorded W id h events ++ [UInt64.ofNat (since events+2)] ∧
      Admitted W id h events (.publish key data localtime) := by
  have hk := run_kept W id h events
  have hadmits : Admitted W id h events (.publish key data localtime) ↔ _ :=
    (Stripe.admits_iff W _ _ _).symm.trans
      (Offsets.stored_admits W (met W id h events) (call key data localtime))
  rw [recorded, recorded, log_publish events key data localtime hk.registered, accepted_concat,
    List.map_append, hadmits]
  cases hs : stored (call key data localtime,(stripeStep W (met W id h events)
      (call key data localtime)).1) with
  | none => exact Or.inl ⟨by simp,fun ha => ha rfl⟩
  | some r =>
    have hoff : r.offset = UInt64.ofNat (since events+2) :=
      (Offsets.step_record W _ _ r hs).trans (met_assign events hk).1
    exact Or.inr ⟨by simp [hoff],by simp⟩

theorem recorded_restart (events : List Event) :
    recorded W id h (events++[.restart]) = recorded W id h events := by
  rw [recorded, log_restart, ← recorded]

theorem recorded_mem (events : List Event) (o : UInt64) : o ∈ recorded W id h events ↔
    ∃ first f, first++[f] <+: events ∧ Admitted W id h first f ∧
      o = UInt64.ofNat (since first+2) := by
  induction events using List.reverseRecOn with
  | nil => simp [recorded, log, replies, accepted]
  | append_singleton events e ih =>
    have hsplit : (∃ first f, first++[f] <+: events++[e] ∧ Admitted W id h first f ∧
        o = UInt64.ofNat (since first+2)) ↔
        o ∈ recorded W id h events ∨
          Admitted W id h events e ∧ o = UInt64.ofNat (since events+2) := by
      rw [ih]
      constructor
      · rintro ⟨first,f,hp,ha,ho⟩
        rcases List.prefix_concat_iff.mp hp with heq | hp
        · obtain ⟨rfl,hf⟩ := List.append_inj' heq rfl
          obtain rfl : f = e := by simpa using hf
          exact Or.inr ⟨ha,ho⟩
        · exact Or.inl ⟨first,f,hp,ha,ho⟩
      · rintro (⟨first,f,hp,ha,ho⟩ | ⟨ha,ho⟩)
        · exact ⟨first,f,hp.trans (List.prefix_append _ _),ha,ho⟩
        · exact ⟨events,e,List.prefix_refl _,ha,ho⟩
    rw [hsplit]
    cases e with
    | restart =>
      rw [recorded_restart]
      exact ⟨Or.inl,fun ho => ho.resolve_right (fun ha => ha.1)⟩
    | publish key data localtime =>
      rcases recorded_publish W id h events key data localtime with ⟨hr,ha⟩ | ⟨hr,ha⟩
      · rw [hr]
        exact ⟨Or.inl,fun ho => ho.resolve_right (fun hx => ha hx.1)⟩
      · rw [hr, List.mem_append, List.mem_singleton]
        exact or_congr_right ⟨fun ho => ⟨ha,ho⟩,And.right⟩

theorem pairwise_iff (events : List Event) :
    (recorded W id h events).Pairwise (· < ·) ↔ Abreast W id h events := by
  induction events using List.reverseRecOn with
  | nil => simp [recorded, log, replies, accepted, Abreast, everyStep_nil]
  | append_singleton events e ih =>
    rw [Abreast, everyStep_concat, ← Abreast, ← ih]
    cases e with
    | restart =>
      rw [recorded_restart]
      exact ⟨fun hp => ⟨hp,fun ha => ha.elim⟩,And.left⟩
    | publish key data localtime =>
      rcases recorded_publish W id h events key data localtime with ⟨hr,ha⟩ | ⟨hr,ha⟩
      · rw [hr]
        exact ⟨fun hp => ⟨hp,fun hx => absurd hx ha⟩,And.left⟩
      · rw [hr, List.pairwise_append]
        constructor
        · rintro ⟨hp,-,hall⟩
          refine ⟨hp,fun _ first f hpre hf => hall _ ?_ _ (List.mem_singleton_self _)⟩
          exact (recorded_mem W id h events _).mpr ⟨first,f,hpre,hf,rfl⟩
        · rintro ⟨hp,hall⟩
          refine ⟨hp,List.pairwise_singleton _ _,fun o ho b hb => ?_⟩
          obtain ⟨first,f,hpre,hf,rfl⟩ := (recorded_mem W id h events o).mp ho
          rw [List.mem_singleton.mp hb]
          exact hall ha first f hpre hf

/-- Over every placement of restarts the frames hold the accepted records, and
their offsets increase exactly when no restarted count falls behind. -/
theorem offsets_survive_iff (events : List Event) :
    found W id h events = text W (accepted (log W id h events)) ∧
      (OffsetsIncrease W id h events ↔ Abreast W id h events) :=
  ⟨found_text W id h events,(increase_iff W id h events).trans (pairwise_iff W id h events)⟩

end Run

theorem restart_repeats : ¬ ∀ (W : JsonWriter) (id : Bytes) (h : Host) (events : List Event),
    OffsetsIncrease W id h events := by
  intro hall
  have hi := hall (.library true) (ascii "s") (.still [] 0)
    [.publish [] [] [],.restart,.publish [] [] []]
  have hp := (increase_iff _ _ _ _).mp hi
  exact absurd hp (by decide)

end RethinkLog.Restarts
