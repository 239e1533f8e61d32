import RethinkLog.Confinement
import RethinkLog.RecordStream
import Mathlib.Data.List.Forall2

/-!
# The whole log on disk

A process that starts again works with a new storage on the same disk, and
its stripes share that disk with each other and with what was there before.
Each frame belongs to the stripe it was opened for. A call changes the journal
of one stripe, and seen from this stripe the frames of all others are files
that were there already. So the frame files of a stripe, read back with their
unwritten tails, are its accepted records over all lifetimes of the process.
-/

set_option autoImplicit false

namespace RethinkLog.Archive
open FramePath StripeHeap LogIntegrity Machine Storage

inductive Event where
  | op (o : Op)
  | restart
  deriving DecidableEq, Repr

def step (W : JsonWriter) (w : World) : Event → Option Answer × World
  | .op o => Storage.step W w o
  | .restart => (none, World.fresh w.storage.host)

def told (id : Bytes) (o : Option Answer) : List (Call × Reply) :=
  (o.filter (fun a => a.id = id)).toList.map (fun a => (a.call,a.reply))

def calls (id : Bytes) (hist : List (Event × Option Answer)) : List (Call × Reply) :=
  hist.flatMap (fun x => told id x.2)

def frameFiles (cwd : Path) (id : Bytes) (hist : List (Event × Option Answer)) : List Path :=
  (opened (calls id hist)).map (framePath cwd id)

def contents (d : Disk) (p : Path) : Bytes :=
  d.written p ++ List.replicate (frameFilesize-(d.written p).length) 0

/-- The bytes of a file are these records and then nothing but zeros. -/
def Reads (W : JsonWriter) (b : Bytes) (rs : List Record) : Prop :=
  ∃ n, b = text W rs ++ List.replicate n 0

theorem reads_unique (W : JsonWriter) : Relator.RightUnique (Reads W) := by
  intro b rs qs hr hq
  obtain ⟨m,rfl⟩ := hr
  obtain ⟨n,hn⟩ := hq
  rw [text, text, ← RecordStream.entry_stream, ← RecordStream.entry_stream] at hn
  exact ((RecordStream.entry W).stream_unique (RecordStream.padding_stops W m)
    (RecordStream.padding_stops W n) hn).1

theorem told_some (id : Bytes) (a : Answer) :
    told id (some a) = if a.id = id then [(a.call,a.reply)] else [] := by
  by_cases h : a.id = id <;> simp [told, Option.filter, h]

theorem calls_concat (id : Bytes) (hist : List (Event × Option Answer)) (e : Event)
    (o : Option Answer) : calls id (hist++[(e,o)]) = calls id hist ++ told id o := by
  simp [calls]

def paths (cwd : Path) (id : Bytes) (j : Journal FrameName Record) : List Path :=
  j.names.map (framePath cwd id)

theorem mem_paths {cwd : Path} {id : Bytes} {j : Journal FrameName Record} {p : Path} :
    p ∈ paths cwd id j ↔ ∃ v ∈ j, p = framePath cwd id v.1 := by
  simp only [paths, Journal.names, List.map_map, List.mem_map, Function.comp_apply]
  exact exists_congr (fun v => and_congr_right (fun _ => eq_comm))

def rest (base d : Disk) (own : List Path) : Disk where
  directories := base.directories
  files := d.files.filter (· ∉ own)
  written p := if p ∈ own then [] else d.written p
  blank p hp := by
    split
    · rfl
    · rename_i hown
      exact d.blank p (fun hm => hp (by simp [hm, hown]))

structure Volume (W : JsonWriter) (base d : Disk) (p : Path) (rs : List Record) : Prop where
  content : d.written p = text W rs
  short : (text W rs).length < frameFilesize
  file : p ∈ d.files
  fresh : p ∉ base.present

/-- Every stripe has a journal of its own on the disk. No two of them share a
frame, and whatever is no frame is as it was before. -/
structure Archived (W : JsonWriter) (base : Disk) (cwd : Path) (s : Storage)
    (J : Bytes → Journal FrameName Record) : Prop where
  registered : Registered s
  works : s.host.cwd = cwd
  nodup : ∀ id, (J id).names.Nodup
  apart : ∀ a b, a ≠ b → ∀ u ∈ J a, ∀ v ∈ J b, framePath cwd a u.1 ≠ framePath cwd b v.1
  volumes : ∀ id, ∀ v ∈ J id, Volume W base s.host.disk (framePath cwd id v.1) v.2
  other : ∀ p, (∀ id, p ∉ paths cwd id (J id)) → s.host.disk.written p = base.written p
  older : base.present ⊆ s.host.disk.present
  stays : base.files ⊆ s.host.disk.files
  tail : ∀ (k : ℕ) (st : Stripe), s.heap[k]? = some st → ∀ f, st.frame = some f →
    ∃ init v, J st.id = init ++ [v] ∧ f.path = framePath cwd st.id v.1 ∧
      f.tellp = (text W v.2).length
  plain : ∀ id, J id ≠ [] → (0:UInt8) ∉ id

variable {W : JsonWriter} {base : Disk} {cwd : Path} {s : Storage}
variable {J : Bytes → Journal FrameName Record} {k : ℕ} {st : Stripe}

theorem archived_make (h : Host) (ha : Archived W base cwd s J) (hh : s.host = h) :
    Archived W base cwd (make h) J := by
  subst hh
  refine { ha with registered := ?_, works := ha.works, tail := ?_ }
  · simp [Registered, make, masterStripes, replicaStripes]
  · intro k st hk
    simp [make, masterStripes, replicaStripes] at hk

theorem archived_start (W : JsonWriter) (h : Host) :
    Archived W h.disk h.cwd (make h) (fun _ => []) := by
  constructor <;> simp [make, masterStripes, replicaStripes, Registered, Journal.names]

theorem archived_stripe (ha : Archived W base cwd s J) (id : Bytes) :
    Archived W base cwd (s.stripe id).2 J := by
  have hreg := stripe_registered s id ha.registered
  obtain ⟨k,t,heq,hf⟩ := stripe_found s id ha.registered
  rw [heq] at hreg ⊢
  cases hf with
  | known k st get named => exact ha
  | made absent =>
    refine { ha with registered := hreg, works := ha.works, tail := ?_ }
    intro i st hi f hframe
    rcases (get_append _ _ _ _).mp hi with hi | ⟨-,rfl⟩
    · exact ha.tail i st hi f hframe
    · cases hframe

theorem archived_represents (ha : Archived W base cwd s J) (hk : s.heap[k]? = some st) :
    Represents W (rest base s.host.disk (paths cwd st.id (J st.id))) cwd st.id st.frame
      s.host.disk (J st.id) where
  nodup := ha.nodup st.id
  content v hv := (ha.volumes st.id v hv).content
  short v hv := (ha.volumes st.id v hv).short
  file v hv := (ha.volumes st.id v hv).file
  fresh v hv := by
    rw [Disk.mem_present]
    rintro (hd | hf)
    · exact (ha.volumes st.id v hv).fresh ((base.mem_present _).mpr (Or.inl hd))
    · exact (Finset.mem_filter.mp hf).2 (mem_paths.mpr ⟨v,hv,rfl⟩)
  other p hp := by
    refine (if_neg fun hm => ?_).symm
    obtain ⟨v,hv,rfl⟩ := mem_paths.mp hm
    exact hp v hv rfl
  older p hp := by
    rcases (Disk.mem_present _ _).mp hp with hd | hf
    · exact ha.older ((base.mem_present _).mpr (Or.inl hd))
    · exact s.host.disk.files_present (Finset.mem_filter.mp hf).1
  tail := ha.tail k st hk
  plain := ha.plain st.id

theorem archived_set (ha : Archived W base cwd s J) (hk : s.heap[k]? = some st) {su : Stripe}
    {h : Host} {j : Journal FrameName Record} (hreg : Registered ⟨s.heap.set k su,s.stripes,h⟩)
    (hcwd : h.cwd = cwd) (hid : su.id = st.id) (hfiles : s.host.disk.files ⊆ h.disk.files)
    (hnames : ∀ p ∈ paths cwd st.id (J st.id), p ∈ paths cwd st.id j)
    (hr : Represents W (rest base s.host.disk (paths cwd st.id (J st.id))) cwd st.id su.frame
      h.disk j) :
    Archived W base cwd ⟨s.heap.set k su,s.stripes,h⟩ (Function.update J st.id j) := by
  have hown : ∀ p, p ∉ paths cwd st.id j → h.disk.written p = s.host.disk.written p := by
    intro p hp
    rw [hr.other p (fun v hv he => hp (mem_paths.mpr ⟨v,hv,he⟩))]
    exact if_neg (fun hm => hp (hnames p hm))
  -- a frame of another stripe is a file that the own journal never takes
  have hforeign : ∀ id, id ≠ st.id → ∀ v ∈ J id, framePath cwd id v.1 ∉ paths cwd st.id j := by
    intro id hne v hv hm
    obtain ⟨u,hu,he⟩ := mem_paths.mp hm
    refine hr.fresh u hu (Disk.files_present _ (Finset.mem_filter.mpr ⟨?_,?_⟩))
    · rw [← he]
      exact (ha.volumes id v hv).file
    · rw [← he]
      intro hold
      obtain ⟨w,hw,hv'⟩ := mem_paths.mp hold
      exact ha.apart id st.id hne v hv w hw hv'
  have hbase : base.present ⊆ (rest base s.host.disk (paths cwd st.id (J st.id))).present := by
    intro p hp
    refine (Disk.mem_present _ _).mpr ?_
    rcases (base.mem_present p).mp hp with hd | hf
    · exact Or.inl hd
    · refine Or.inr (Finset.mem_filter.mpr ⟨ha.stays hf,fun hm => ?_⟩)
      obtain ⟨v,hv,rfl⟩ := mem_paths.mp hm
      exact (ha.volumes st.id v hv).fresh hp
  refine ⟨hreg,hcwd,?_,?_,?_,?_,hbase.trans hr.older,ha.stays.trans hfiles,?_,?_⟩
  · intro id
    by_cases hi : id = st.id
    · rw [hi, Function.update_self]
      exact hr.nodup
    · rw [Function.update_of_ne hi]
      exact ha.nodup id
  · intro a b hab u hu v hv he
    by_cases hi : a = st.id
    · subst hi
      rw [Function.update_self] at hu
      rw [Function.update_of_ne hab.symm] at hv
      exact hforeign b hab.symm v hv (mem_paths.mpr ⟨u,hu,he.symm⟩)
    · rw [Function.update_of_ne hi] at hu
      by_cases hi' : b = st.id
      · subst hi'
        rw [Function.update_self] at hv
        exact hforeign a hi u hu (mem_paths.mpr ⟨v,hv,he⟩)
      · rw [Function.update_of_ne hi'] at hv
        exact ha.apart a b hab u hu v hv he
  · intro id v hv
    by_cases hi : id = st.id
    · subst hi
      rw [Function.update_self] at hv
      exact ⟨hr.content v hv,hr.short v hv,hr.file v hv,fun hm => hr.fresh v hv (hbase hm)⟩
    · rw [Function.update_of_ne hi] at hv
      have hvol := ha.volumes id v hv
      exact ⟨(hown _ (hforeign id hi v hv)).trans hvol.content,hvol.short,hfiles hvol.file,
        hvol.fresh⟩
  · intro p hp
    have hj : p ∉ paths cwd st.id j := by simpa using hp st.id
    refine (hown p hj).trans (ha.other p (fun id hm => ?_))
    by_cases hi : id = st.id
    · exact hj (hnames p (hi ▸ hm))
    · exact hp id (by rwa [Function.update_of_ne hi])
  · intro i sv hsv f hf
    rw [get_set hk] at hsv
    split at hsv
    · obtain rfl := Option.some.inj hsv
      rw [hid, Function.update_self]
      exact hr.tail f hf
    · rename_i hik
      rw [Function.update_of_ne (fun hi => hik (registered_unique ha.registered hsv hk hi))]
      exact ha.tail i sv hsv f hf
  · intro id hj
    by_cases hi : id = st.id
    · rw [hi, Function.update_self] at hj
      rw [hi]
      exact hr.plain hj
    · rw [Function.update_of_ne hi] at hj
      exact ha.plain id hj

theorem archived_call (ha : Archived W base cwd s J) (hk : s.heap[k]? = some st) (c : Call)
    {r : Reply × Stripe × Host} (hr : st.call W s.host c = r) :
    Archived W base cwd ⟨s.heap.set k r.2.1,s.stripes,r.2.2⟩
        (Function.update J st.id (advance (J st.id) (c,r.1))) ∧
      (advance (J st.id) (c,r.1)).names = (J st.id).names ++ r.1.opened ∧
      (advance (J st.id) (c,r.1)).records = (J st.id).records ++ (stored (c,r.1)).toList := by
  have hreg := write_registered W s k c ha.registered
  have hfiles := (call_frames W st s.host c).1.2.1
  rw [write_some W s k c hk, hr] at hreg
  rw [hr] at hfiles
  have hkeeps : Keeps W (rest base s.host.disk (paths cwd st.id (J st.id))) (st,s.host)
      (J st.id) := by
    have hrest := archived_represents ha hk
    rwa [← ha.works] at hrest ⊢
  have hreply := advance_reply (st,s.host) hkeeps c
  have hnext := keeps_step (st,s.host) hkeeps c
  obtain ⟨hid,hcwd⟩ := step_host W (st,s.host) c
  rw [show stripeStep W (st,s.host) c = r from hr] at hreply hnext hid hcwd
  obtain ⟨hnames,hrecords⟩ := hreply
  refine ⟨archived_set ha hk hreg (hcwd.trans ha.works) hid hfiles (fun p hp => ?_) ?_,
    hnames,hrecords⟩
  · obtain ⟨n,hn,rfl⟩ := List.mem_map.mp hp
    refine List.mem_map_of_mem ?_
    rw [hnames]
    exact List.mem_append_left _ hn
  · unfold Keeps at hnext
    rwa [hid, hcwd, show (st,s.host).2.cwd = cwd from ha.works] at hnext

def Logged (W : JsonWriter) (base : Disk) (cwd : Path) (s : Storage)
    (hist : List (Event × Option Answer)) : Prop :=
  ∃ J, Archived W base cwd s J ∧ ∀ id, (J id).names = opened (calls id hist) ∧
    (J id).records = accepted (calls id hist)

variable {hist : List (Event × Option Answer)}

theorem logged_quiet (hl : Logged W base cwd s hist) (e : Event) :
    Logged W base cwd s (hist++[(e,none)]) := by
  obtain ⟨J,ha,hJ⟩ := hl
  refine ⟨J,ha,fun id => ?_⟩
  rw [calls_concat, show told id none = [] from rfl, List.append_nil]
  exact hJ id

theorem logged_stripe (hl : Logged W base cwd s hist) (id : Bytes) :
    Logged W base cwd (s.stripe id).2 hist := by
  obtain ⟨J,ha,hJ⟩ := hl
  exact ⟨J,archived_stripe ha id,hJ⟩

theorem logged_write (hl : Logged W base cwd s hist) (k : ℕ) (c : Call) (e : Event) :
    Logged W base cwd (s.write W k c).2 (hist++[(e,(s.write W k c).1)]) := by
  cases hk : s.heap[k]? with
  | none =>
    rw [write_none W s k c hk]
    exact logged_quiet hl e
  | some st =>
    obtain ⟨J,ha,hJ⟩ := hl
    obtain ⟨hset,hnames,hrecords⟩ := archived_call ha hk c rfl
    rw [write_some W s k c hk]
    refine ⟨_,hset,fun id => ?_⟩
    rw [calls_concat, told_some]
    by_cases hi : id = st.id
    · subst hi
      rw [if_pos rfl, Function.update_self, opened_concat, accepted_concat, hnames, hrecords,
        (hJ st.id).1, (hJ st.id).2]
      exact ⟨rfl,rfl⟩
    · rw [if_neg (Ne.symm hi), List.append_nil, Function.update_of_ne hi]
      exact hJ id

theorem logged_step {w : World} (hl : Logged W base cwd w.storage hist) (e : Event) :
    Logged W base cwd (step W w e).2.storage (hist++[(e,(step W w e).1)]) := by
  cases e with
  | restart =>
    obtain ⟨J,ha,hJ⟩ := hl
    exact logged_quiet ⟨J,archived_make _ ha rfl,hJ⟩ _
  | op o =>
    cases o with
    | publish id key data localtime => exact logged_write (logged_stripe hl id) _ _ _
    | writer name id => exact logged_quiet (logged_stripe hl id) _
    | handle name c =>
      simp only [step, Storage.step]
      split
      · exact logged_quiet hl _
      · exact logged_write hl _ c _

theorem run_logged (W : JsonWriter) (h : Host) (es : List Event) :
    Logged W h.disk h.cwd (final (step W) (World.fresh h) es).storage
      (history (step W) (World.fresh h) es) := by
  apply history_invariant (step W) (fun w hist => Logged W h.disk h.cwd w.storage hist)
  · exact ⟨_,archived_start W h,fun id => ⟨rfl,rfl⟩⟩
  · exact fun w hist e hl => logged_step hl e

theorem frameFiles_journal {cwd : Path} {J : Bytes → Journal FrameName Record} (id : Bytes)
    (hJ : (J id).names = opened (calls id hist)) :
    frameFiles cwd id hist = (J id).map (fun v => framePath cwd id v.1) := by
  rw [frameFiles, ← hJ, Journal.names, List.map_map]
  rfl

theorem contents_reads {d : Disk} {p : Path} {rs : List Record} (hv : Volume W base d p rs) :
    Reads W (contents d p) rs :=
  ⟨_,by rw [contents, hv.content]⟩

theorem handedOut_stored (x : Call × Reply) (o : UInt64) (ho : o ∈ handedOut x.2) (h0 : o ≠ 0) :
    stored x = some (x.1.record o) := by
  obtain ⟨c,⟨outcome,names⟩⟩ := x
  cases outcome with
  | rejected => exact absurd (List.mem_singleton.mp ho) h0
  | wrote offset =>
    obtain rfl : o = offset := List.mem_singleton.mp ho
    rfl
  | stopped e => cases ho

/-- The frame files of all stripes and all lifetimes are new and different
files, smaller than a frame, and no other file is touched. -/
theorem log_intact (W : JsonWriter) (h : Host) (es : List Event) :
    let d := (final (step W) (World.fresh h) es).storage.host.disk
    let files := fun id => frameFiles h.cwd id (history (step W) (World.fresh h) es)
    (∀ id, (files id).Nodup) ∧ (∀ a b, a ≠ b → (files a).Disjoint (files b)) ∧
      (∀ id, ∀ p ∈ files id,
        p ∈ d.files ∧ p ∉ h.disk.present ∧ (d.written p).length < frameFilesize) ∧
      ∀ p, (∀ id, p ∉ files id) → d.written p = h.disk.written p := by
  intro d files
  obtain ⟨J,ha,hJ⟩ := run_logged W h es
  have hfiles (id : Bytes) : files id = (J id).map (fun v => framePath h.cwd id v.1) :=
    frameFiles_journal id (hJ id).1
  refine ⟨fun id => ?_,fun a b hab p hpa hpb => ?_,fun id p hp => ?_,fun p hp => ?_⟩
  · simp only [files, frameFiles, ← (hJ id).1]
    by_cases hj : J id = []
    · simp [hj, Journal.names]
    · exact (ha.nodup id).map (framePath_injective _ (ha.plain id hj))
  · rw [hfiles] at hpa hpb
    obtain ⟨u,hu,rfl⟩ := List.mem_map.mp hpa
    obtain ⟨v,hv,he⟩ := List.mem_map.mp hpb
    exact ha.apart a b hab u hu v hv he.symm
  · rw [hfiles] at hp
    obtain ⟨v,hv,rfl⟩ := List.mem_map.mp hp
    have hvol := ha.volumes id v hv
    exact ⟨hvol.file,hvol.fresh,by rw [hvol.content]; exact hvol.short⟩
  · refine ha.other p (fun id hm => hp id ?_)
    obtain ⟨v,hv,rfl⟩ := mem_paths.mp hm
    rw [hfiles]
    exact List.mem_map_of_mem hv

/-- The frame files of a stripe have one reading, which is its accepted
records over all lifetimes in call order. So a record whose offset was handed
out is there for good. -/
theorem log_readable (W : JsonWriter) (h : Host) (es : List Event) (id : Bytes) :
    let hist := history (step W) (World.fresh h) es
    let found := (frameFiles h.cwd id hist).map
      (contents (final (step W) (World.fresh h) es).storage.host.disk)
    (∃ parts, List.Forall₂ (Reads W) found parts) ∧
      ∀ parts, List.Forall₂ (Reads W) found parts →
        parts.flatten = accepted (calls id hist) ∧
        ∀ x ∈ calls id hist, ∀ o ∈ handedOut x.2, o ≠ 0 → x.1.record o ∈ parts.flatten := by
  intro hist found
  obtain ⟨J,ha,hJ⟩ := run_logged W h es
  have hread : List.Forall₂ (Reads W) found ((J id).map Prod.snd) := by
    simp only [found]
    rw [frameFiles_journal id (hJ id).1, List.map_map, List.forall₂_map_left_iff,
      List.forall₂_map_right_iff, List.forall₂_same]
    exact fun v hv => contents_reads (ha.volumes id v hv)
  refine ⟨⟨_,hread⟩,fun parts hparts => ?_⟩
  obtain rfl : parts = (J id).map Prod.snd :=
    List.right_unique_forall₂' (reads_unique W) hparts hread
  have hflat : ((J id).map Prod.snd).flatten = accepted (calls id hist) := (hJ id).2
  refine ⟨hflat,fun x hx o ho h0 => ?_⟩
  rw [hflat]
  exact List.mem_filterMap.mpr ⟨x,hx,handedOut_stored x o ho h0⟩

end RethinkLog.Archive
