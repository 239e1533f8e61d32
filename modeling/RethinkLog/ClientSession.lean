import RethinkLog.Wire

/-!
# The read loop of a client session

A session has at most one read outstanding, for a header or for a body, and
its completion handlers run the loop. Every step of the loop clears both
strings and never gives them a size again, so what the protocol step sees as
the body is empty whatever the client sent.
-/

set_option autoImplicit false

namespace RethinkLog

inductive Exception where
  | badWeakPtr
  deriving DecidableEq, Repr

inductive Reading where
  | header
  | body
  deriving DecidableEq, Repr

/-- A session object with its outstanding reads. It is `owned` once a shared
pointer to it exists; `blocks` is what coming allocations find in memory. -/
structure Session where
  owned : Bool
  req : Msg
  blocks : ℕ → ℕ → UInt8
  reading : List Reading

namespace Session

def waitNextMsg (s : Session) : Except Exception Session :=
  if s.owned then
    .ok { s with
      req := s.req.clear (s.blocks 0)
      blocks := fun n => s.blocks (n+1)
      reading := s.reading ++ [.header] }
  else .error .badWeakPtr

def headerRead (s : Session) (ec : Bool) (data : Bytes) : Session :=
  let req := { s.req with hdr := s.req.hdr.poke data }
  if ec then { s with req := req }
  else
    let r := req.decodeHeader (s.blocks 0)
    { s with
      req := r.2
      blocks := fun n => s.blocks (n+1)
      reading := if r.1 then s.reading ++ [.body] else s.reading }

def bodyRead (s : Session) (ec : Bool) (data : Bytes) : Option Bytes × Except Exception Session :=
  let t := { s with req := { s.req with body := s.req.body.poke data } }
  if ec then (none, .ok t) else (some t.req.body.text, t.waitNextMsg)

def complete (s : Session) (i : ℕ) (ec : Bool) (data : Bytes) :
    Option Bytes × Except Exception Session :=
  let t := { s with reading := s.reading.eraseIdx i }
  match s.reading[i]? with
  | none => (none, .ok s)
  | some .header => (none, .ok (t.headerRead ec data))
  | some .body => t.bodyRead ec data

def requested (s : Session) : Reading → ℕ
  | .header => headerLen
  | .body => s.req.bodyLen

def deliver : ℕ → Session → Bytes → List Bytes
  | 0, _, _ => []
  | fuel+1, s, stream => match s.reading with
    | [] => []
    | r::_ => if stream.length < s.requested r then []
      else match s.complete 0 false (stream.take (s.requested r)) with
        | (seen, .error _) => seen.toList
        | (seen, .ok t) => seen.toList ++ deliver fuel t (stream.drop (s.requested r))

def observed (s : Session) (stream : Bytes) : List Bytes := deliver (2*(stream.length+1)) s stream

/-- A session that waits for a header; `behind` lies after it in its buffer. -/
structure Ready (behind : Bytes) (s : Session) : Prop where
  owned : s.owned = true
  reading : s.reading = [.header]
  size : s.req.body.size = 0
  room : headerLen < s.req.hdr.memory.length
  rest : s.req.hdr.memory.drop headerLen = behind

theorem waitNextMsg_ready (s t : Session) (hs : s.reading = []) (h : s.waitNextMsg = .ok t) :
    Ready (t.req.hdr.memory.drop headerLen) t := by
  unfold waitNextMsg at h
  split at h
  · rename_i ho
    obtain rfl := Except.ok.inj h
    exact ⟨ho,by rw [hs]; rfl,rfl,StdString.reserve_room _ _ _,rfl⟩
  · cases h

variable {behind : Bytes} {s : Session}

structure Pending (behind : Bytes) (n : ℕ) (s : Session) : Prop where
  owned : s.owned = true
  reading : s.reading = [.body]
  bodyLen : s.req.bodyLen = n
  size : s.req.body.size = 0
  room : headerLen < s.req.hdr.memory.length
  rest : s.req.hdr.memory.drop headerLen = behind

theorem header_read (hr : Ready behind s) (data : Bytes) (hd : data.length = headerLen) :
    ∃ t, s.complete 0 false data = (none,.ok t) ∧
      Pending behind (atoi (data ++ behind) % 2^32).toNat t := by
  have hm : (s.req.hdr.poke data).memory = data ++ behind := by
    rw [← hr.rest, ← hd]
    rfl
  refine ⟨Session.headerRead { s with reading := [] } false data,?_,hr.owned,rfl,?_,?_,?_,?_⟩
  · simp only [complete, hr.reading, List.getElem?_cons_zero, List.eraseIdx_cons_zero]
  · simp [headerRead, Msg.decodeHeader, hm]
  · simp [headerRead, Msg.decodeHeader, hr.size]
  · have := hr.room
    simp [headerRead, Msg.decodeHeader, StdString.poke, hd]
    omega
  · simp only [headerRead, Msg.decodeHeader, Bool.false_eq_true, if_false]
    rw [hm, ← hd, List.drop_left]

theorem body_read {n : ℕ} (hp : Pending behind n s) (data : Bytes) :
    ∃ t, s.complete 0 false data = (some [],.ok t) ∧ Ready behind t := by
  have htext : (s.req.body.poke data).text = [] := by simp [StdString.text, hp.size]
  have hclear : headerLen < s.req.hdr.clear.memory.length := by
    simpa [StdString.clear] using hp.room
  have hnext : ∃ t, Session.waitNextMsg { s with
      req := { s.req with body := s.req.body.poke data }
      reading := [] } = .ok t ∧ t.req.hdr.memory.drop headerLen = behind := by
    refine ⟨_,if_pos hp.owned,?_⟩
    simp only [Msg.clear, StdString.reserve_enough _ _ _ hclear]
    rw [← hp.rest]
    exact StdString.clear_memory _ 14
  obtain ⟨t,ht,rfl⟩ := hnext
  refine ⟨t,?_,waitNextMsg_ready _ t rfl ht⟩
  simp only [complete, hp.reading, List.getElem?_cons_zero, List.eraseIdx_cons_zero, bodyRead,
    Bool.false_eq_true, if_false, htext, ht]

/-- Two reads take one message; the length comes from the whole header
buffer, and the body seen is empty. -/
theorem deliver_message (hr : Ready behind s) (stream : Bytes)
    (hl : headerLen ≤ stream.length) :
    let n := (atoi (stream.take headerLen ++ behind) % 2^32).toNat
    ∃ t, Ready behind t ∧ ∀ fuel, deliver (fuel+2) s stream =
      if stream.length < headerLen+n then []
      else [] :: deliver fuel t (stream.drop (headerLen+n)) := by
  intro n
  obtain ⟨u,hu,hp⟩ := header_read hr (stream.take headerLen) (List.length_take_of_le hl)
  obtain ⟨t,ht,hready⟩ := body_read hp ((stream.drop headerLen).take n)
  refine ⟨t,hready,fun fuel => ?_⟩
  simp only [deliver, hr.reading, requested, Nat.not_lt.mpr hl, if_false, hu, hp.reading,
    hp.bodyLen, Option.toList_none, List.nil_append, List.length_drop]
  change (if stream.length-headerLen < n then [] else _) = _
  by_cases hn : stream.length < headerLen+n
  · rw [if_pos (by omega), if_pos hn]
  · rw [if_neg (by omega), if_neg hn, ht, List.drop_drop]
    rfl

theorem deliver_short (hr : Ready behind s) (stream : Bytes) (hl : stream.length < headerLen)
    (fuel : ℕ) : deliver (fuel+1) s stream = [] := by
  simp only [deliver, hr.reading, requested, hl, if_true]

theorem deliver_blank (hr : Ready behind s) (stream : Bytes) (fuel : ℕ) :
    ∀ seen ∈ deliver (2*fuel) s stream, seen = [] := by
  induction fuel generalizing s stream with
  | zero => simp [deliver]
  | succ fuel ih =>
    rcases Nat.lt_or_ge stream.length headerLen with hl | hl
    · rw [show 2*(fuel+1) = 2*fuel+1+1 from rfl, deliver_short hr stream hl]
      simp
    · obtain ⟨t,ht,hd⟩ := deliver_message hr stream hl
      rw [show 2*(fuel+1) = 2*fuel+2 from rfl, hd]
      split
      · simp
      · simpa using ih ht _

theorem deliver_enough (hr : Ready behind s) (stream : Bytes) (fuel more : ℕ)
    (hf : stream.length < headerLen*fuel) :
    deliver (2*(fuel+more)) s stream = deliver (2*fuel) s stream := by
  induction fuel generalizing s stream with
  | zero => simp at hf
  | succ fuel ih =>
    rw [show 2*(fuel+1+more) = 2*(fuel+more)+2 by omega, show 2*(fuel+1) = 2*fuel+2 from rfl]
    rcases Nat.lt_or_ge stream.length headerLen with hl | hl
    · rw [deliver_short hr stream hl (_+1), deliver_short hr stream hl (_+1)]
    · obtain ⟨t,ht,hd⟩ := deliver_message hr stream hl
      rw [hd, hd]
      split
      · rfl
      · rw [ih ht]
        simp only [List.length_drop]
        unfold headerLen at *
        omega

theorem observed_all (hr : Ready behind s) (stream : Bytes) (more : ℕ) :
    deliver (2*(stream.length+1+more)) s stream = s.observed stream := by
  apply deliver_enough hr
  unfold headerLen
  omega

/-- The length that a header of zeros is read as: the number that the digits
behind it happen to form, stored as a `long`, an `int` and an `unsigned int`. -/
def carried (behind : Bytes) : ℕ := min (2^63-1) (leading behind) % 2^32

theorem deliver_zeros (hr : Ready behind s) (n fuel : ℕ) :
    (deliver (2*fuel) s (List.replicate n (Decimal.digit 0))).length =
      min fuel (n/(headerLen+carried behind)) := by
  induction fuel generalizing s n with
  | zero => simp [deliver]
  | succ fuel ih =>
    have hpos : 0 < headerLen+carried behind := by unfold headerLen; omega
    rw [show 2*(fuel+1) = 2*fuel+2 from rfl]
    rcases Nat.lt_or_ge n headerLen with hl | hl
    · rw [deliver_short hr _ (by simpa using hl) (_+1), Nat.div_eq_of_lt (by omega)]
      simp
    · obtain ⟨t,ht,hd⟩ := deliver_message hr (List.replicate n (Decimal.digit 0))
        (by simpa using hl)
      rw [hd]
      rw [List.take_replicate, Nat.min_eq_left hl, atoi_zeros, List.length_replicate]
      change (if n < headerLen+carried behind then _ else _ :: _ : List Bytes).length = _
      split
      · rename_i hn
        rw [Nat.div_eq_of_lt hn]
        simp
      · rename_i hn
        rw [List.drop_replicate, List.length_cons]
        change (deliver (2*fuel) t (List.replicate (n-(headerLen+carried behind)) _)).length+1 = _
        rw [ih ht, Nat.div_eq_sub_div hpos (Nat.not_lt.mp hn)]
        omega

theorem pack_blank (n : ℕ) : (List.replicate n ([] : Bytes)).flatMap Msg.pack =
    List.replicate (n*headerLen) (Decimal.digit 0) := by
  induction n with
  | zero => rfl
  | succ n ih =>
    rw [List.replicate_succ, List.flatMap_cons, ih, Msg.pack_nil, List.replicate_append_replicate,
      Nat.succ_mul, Nat.add_comm]

theorem whole_share (n c : ℕ) : n*headerLen/(headerLen+c) = n ↔ n = 0 ∨ c = 0 := by
  unfold headerLen
  rcases Nat.eq_zero_or_pos n with rfl | hn
  · simp
  rcases Nat.eq_zero_or_pos c with rfl | hc
  · simp
  have hlt : n*15/(15+c) < n := by
    rw [Nat.div_lt_iff_lt_mul (by omega), Nat.mul_add]
    exact Nat.lt_add_of_pos_right (Nat.mul_pos hn hc)
  omega

/-- A started session hands the bodies of a client to its protocol step as
they were sent exactly when all of them are empty and, if there are any, the
header buffer does not happen to continue the zeros of their headers. -/
theorem framing_iff (s t : Session) (idle : s.reading = []) (started : s.waitNextMsg = .ok t)
    (bodies : List Bytes) :
    t.observed (bodies.flatMap Msg.pack) = bodies ↔
      (∀ b ∈ bodies, b = []) ∧
        (bodies = [] ∨ carried (t.req.hdr.memory.drop headerLen) = 0) := by
  have hr := waitNextMsg_ready s t idle started
  generalize t.req.hdr.memory.drop headerLen = behind at hr ⊢
  have hblank := deliver_blank hr (bodies.flatMap Msg.pack) ((bodies.flatMap Msg.pack).length+1)
  by_cases hb : ∀ b ∈ bodies, b = []
  · obtain ⟨n,rfl⟩ : ∃ n, bodies = List.replicate n [] :=
      ⟨bodies.length,List.eq_replicate_iff.mpr ⟨rfl,hb⟩⟩
    have hlen := deliver_zeros hr (n*headerLen) (n*headerLen+1)
    rw [pack_blank, List.length_replicate] at hblank
    rw [pack_blank, observed, List.length_replicate, List.eq_replicate_iff, hlen,
      Nat.min_eq_right (Nat.le_succ_of_le (Nat.div_le_self _ _)), whole_share]
    constructor
    · rintro ⟨rfl | hc,-⟩
      · exact ⟨hb,Or.inl rfl⟩
      · exact ⟨hb,Or.inr hc⟩
    · rintro ⟨-,hn | hc⟩
      · exact ⟨Or.inl (by simpa using hn),hblank⟩
      · exact ⟨Or.inr hc,hblank⟩
  · constructor
    · intro h
      exact absurd (h ▸ hblank) hb
    · exact fun h => absurd h.1 hb

def still : Session :=
  let empty : StdString := ⟨List.replicate 16 0,0,by decide⟩
  ⟨true,⟨0,empty,empty⟩,fun _ _ => 0,[]⟩

theorem body_not_seen : ¬ ∀ (s t : Session) (bodies : List Bytes), s.reading = [] →
    s.waitNextMsg = .ok t → t.observed (bodies.flatMap Msg.pack) = bodies := by
  intro hall
  have h := hall still _ [ascii "A"] rfl rfl
  exact absurd h (by decide)

theorem framing_iff_blank : ∃ t, still.waitNextMsg = .ok t ∧
    t.observed ([[],[]].flatMap Msg.pack) = [[],[]] :=
  ⟨_,rfl,(framing_iff still _ rfl rfl [[],[]]).mpr (by decide)⟩

end Session
end RethinkLog
