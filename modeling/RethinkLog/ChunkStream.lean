import RethinkLog.ChunkedMessage

/-!
# Chunks passed on and chunks put together

A server that has a handler for chunks passes them on one by one; without one
it puts their data together and passes on the whole request. The two agree
step by step, when whoever is passed the chunks also looks at the chunk that
came with the head: that one is never passed on by itself.
-/

set_option autoImplicit false

namespace RethinkLog.Via
open Http Incremental Machine

namespace RequestReceiver

inductive Event where
  | packet (cs : Bytes)
  | continueSent
  | clear
  deriving DecidableEq, Repr

def react (concatenateChunks : Bool) (rx : RequestReceiver) : Event → RxState × RequestReceiver
  | .packet cs => rx.receiveWith concatenateChunks cs
  | .continueSent => (.incomplete, { rx with continueSent := true })
  | .clear => (.incomplete, cleared)

def holding (rx : RequestReceiver) (got : Bytes) : RequestReceiver :=
  { rx with body := rx.body++got }

def inChunks (rx : RequestReceiver) : Bool := rx.request.valid && rx.request.shown.isChunked

/-- Puts the chunks together that a receiver passes on, with the data that it
has so far. A chunk that came with the head is there when the head is. -/
def assemble (got : Bytes) (a : RxState × RequestReceiver) : RxState × Bytes :=
  if a.2.inChunks && (a.1 = .valid || a.1 = .chunk) then
    if a.2.chunk.valid then
      if a.2.chunk.header.isLast then (.valid, got) else (.incomplete, got++a.2.chunk.data)
    else (.incomplete, got)
  else (a.1, if a.2.inChunks then got else [])

theorem holding_nil (rx : RequestReceiver) : rx.holding [] = rx := by simp [holding]

variable {s : RequestReceiver} {g : Bytes}

theorem chunk_agrees (hc : s.inChunks = true) (parsed : Bool) (cs : Bytes) :
    let a := s.receiveChunkWith false parsed cs
    let b := assemble g a
    (s.holding g).receiveChunkWith true parsed cs = (b.1,a.2.holding b.2) ∧
      (a.2.inChunks = false → b.2 = []) := by
  unfold receiveChunkWith
  have hnext : (s.holding g).chunk = s.chunk := rfl
  rw [hnext]
  generalize s.chunk.next.parse cs = p
  obtain ⟨ok,chunk,rest⟩ := p
  have hin (b : Bytes) (k : RxChunk) :
      ({ s with chunk := k, body := b } : RequestReceiver).inChunks = true := hc
  dsimp only [holding]
  by_cases hbad : ok = false ∧ rest ≠ []
  · rw [if_pos hbad, if_pos hbad]
    exact ⟨rfl,fun _ => rfl⟩
  rw [if_neg hbad, if_neg hbad]
  cases he : (parsed && s.request.expectContinue && !s.continueSent) with
  | true => simp [assemble, hin]
  | false =>
    cases hk : chunk.valid <;> cases hl : chunk.header.isLast <;> cases parsed <;>
      simp [assemble, hin, hk, hl]

theorem body_chunks (s : RequestReceiver) (cs : Bytes) (hc : s.request.shown.isChunked = false) :
    (s.receiveBody cs).2.inChunks = false := by
  have hheld (b : Bytes) : ({ s with body := b } : RequestReceiver).inChunks = false := by
    simp [inChunks, hc]
  unfold receiveBody settled
  generalize takeBody _ _ _ _ = p
  obtain ⟨state,body⟩ := p
  cases state with
  | invalid => rfl
  | lengthRequired => rfl
  | valid =>
    have htranslated : s.request.shown.translated.isChunked = s.request.shown.isChunked := by
      unfold Http.RxRequest.translated
      split <;> rfl
    simp [inChunks, RxRequest.shown_translated, htranslated, hc]
  | _ => exact hheld body

theorem content_agrees (hv : s.request.valid = true)
    (hg : s.inChunks = false → g = []) (parsed : Bool) (cs : Bytes) :
    let a := s.receiveContentWith false parsed cs
    let b := assemble g a
    (s.holding g).receiveContentWith true parsed cs = (b.1,a.2.holding b.2) ∧
      (a.2.inChunks = false → b.2 = []) := by
  unfold receiveContentWith
  rw [show (s.holding g).request = s.request from rfl]
  cases hc : s.request.shown.isChunked with
  | true => exact chunk_agrees (by simp [inChunks, hv, hc]) parsed cs
  | false =>
    have hnone := body_chunks s cs hc
    have hgot := hg (by simp [inChunks, hc])
    subst hgot
    rw [holding_nil]
    refine ⟨?_,fun _ => by simp [assemble, hnone]⟩
    simp [assemble, hnone, holding_nil]

/-- One packet: the receiver that concatenates does what the other does
together with whoever puts its chunks together. -/
theorem receive_agrees (hg : s.inChunks = false → g = []) (cs : Bytes) :
    let a := s.receiveWith false cs
    let b := assemble g a
    (s.holding g).receiveWith true cs = (b.1,a.2.holding b.2) ∧
      (a.2.inChunks = false → b.2 = []) := by
  unfold receiveWith
  rw [show (s.holding g).request = s.request from rfl]
  cases hv : s.request.valid with
  | true => exact content_agrees hv hg false cs
  | false =>
    have hgot := hg (by simp [inChunks, hv])
    subst hgot
    rw [holding_nil]
    have hvalid := s.request.parse_valid cs
    rw [hv, Bool.false_or] at hvalid
    cases hp : (s.request.parse cs).1 with
    | true =>
      rw [hp] at hvalid
      have hcontent := content_agrees (s := { s with request := (s.request.parse cs).2.1 })
        (g := []) hvalid (fun _ => rfl) true (s.request.parse cs).2.2
      rw [holding_nil] at hcontent
      simpa [hp] using hcontent
    | false =>
      rw [hp] at hvalid
      by_cases hf : (s.request.parse cs).2.2 ≠ [] ∨ (s.request.parse cs).2.1.line.fail = true
      · simp [hp, hf, assemble, holding, inChunks, cleared, RxRequest.cleared]
      · simp [hp, hf, assemble, holding, inChunks, hvalid]

theorem react_agrees (hg : s.inChunks = false → g = []) (e : Event) :
    let a := s.react false e
    let b := assemble g a
    (s.holding g).react true e = (b.1,a.2.holding b.2) ∧ (a.2.inChunks = false → b.2 = []) := by
  cases e with
  | packet cs => exact receive_agrees hg cs
  | continueSent =>
    cases hc : s.inChunks with
    | true =>
      have hin : ({ s with continueSent := true } : RequestReceiver).inChunks = true := hc
      simp [react, assemble, holding, hin]
    | false =>
      have hin : ({ s with continueSent := true } : RequestReceiver).inChunks = false := hc
      simp [react, assemble, holding, hin, hg hc]
  | clear => exact ⟨rfl,fun _ => rfl⟩

def trace (concatenateChunks : Bool) (rx : RequestReceiver) (es : List Event) :
    List (RxState × RequestReceiver) :=
  answers (fun rx e => (rx.react concatenateChunks e,(rx.react concatenateChunks e).2)) rx es

def assembled (got : Bytes) (as : List (RxState × RequestReceiver)) :
    List (RxState × RequestReceiver) :=
  answers (fun got a => (((assemble got a).1,a.2.holding (assemble got a).2),(assemble got a).2))
    got as

theorem trace_agrees (hg : s.inChunks = false → g = []) (es : List Event) :
    trace true (s.holding g) es = assembled g (trace false s es) := by
  induction es generalizing s g with
  | nil => rfl
  | cons e es ih =>
    obtain ⟨heq,hnext⟩ := react_agrees hg e
    have hfirst : trace true (s.holding g) (e::es) = (s.holding g).react true e ::
        trace true ((s.holding g).react true e).2 es := rfl
    have hsecond : trace false s (e::es) = s.react false e :: trace false (s.react false e).2 es :=
      rfl
    have hassembled (a : RxState × RequestReceiver) (as : List (RxState × RequestReceiver)) :
        assembled g (a::as) = ((assemble g a).1,a.2.holding (assemble g a).2) ::
          assembled (assemble g a).2 as := rfl
    rw [hfirst, hsecond, hassembled, heq, ih hnext]

/-- On every run of packets and answers, a receiver that concatenates chunks
goes through the states of one that passes them on, its chunks put together. -/
theorem modes_agree (es : List Event) :
    trace true cleared es = assembled [] (trace false cleared es) := by
  have h := trace_agrees (s := cleared) (g := []) (fun _ => rfl) es
  rwa [holding_nil] at h

theorem final_packets (s : RequestReceiver) (packets : List Bytes) :
    final (react false) s (packets.map .packet) = final receive s packets := by
  induction packets generalizing s with
  | nil => rfl
  | cons cs packets ih =>
    have hreact : s.react false (.packet cs) = s.receive cs := rfl
    rw [List.map_cons, final, final, hreact]
    exact ih _

theorem trace_packets (s : RequestReceiver) (packets : List Bytes) :
    trace false s (packets.map .packet) = outputs receive s packets := by
  induction packets generalizing s with
  | nil => rfl
  | cons cs packets ih =>
    have hreact : s.react false (.packet cs) = s.receive cs := rfl
    have htrace : trace false s ((cs::packets).map .packet) = s.react false (.packet cs) ::
        trace false (s.react false (.packet cs)).2 (packets.map .packet) := rfl
    rw [htrace, outputs_cons, hreact, ih]

theorem streamer (hc : s.inChunks = true) :
    Streamer receive (fun k => { s with chunk := k }) cleared where
  next := by
    intro k cs
    obtain ⟨hv,hchunked⟩ := Bool.and_eq_true_iff.mp hc
    have hreceive : ({ s with chunk := k } : RequestReceiver).receive cs =
        ({ s with chunk := k } : RequestReceiver).receiveChunkWith false false cs := by
      simp [receive, receiveWith, receiveContentWith, hv, hchunked]
    rw [hreceive, receiveChunkWith]
    dsimp only
    generalize k.next.parse cs = p
    obtain ⟨ok,n,rest⟩ := p
    cases hn : n.valid <;> simp [streamed, hn]

def passedOn (as : List (RxState × RequestReceiver)) : List RxChunk :=
  as.filterMap (fun a => if a.1 = .chunk then some a.2.chunk else none)

def chunkSeen (a : RxState × RequestReceiver) : List RxChunk :=
  if a.1 = .chunk then [a.2.chunk] else []

theorem passedOn_seen (as : List (RxState × RequestReceiver)) :
    passedOn as = as.flatMap chunkSeen := by
  induction as with
  | nil => rfl
  | cons a as ih =>
    rw [List.flatMap_cons, ← ih]
    by_cases ha : a.1 = .chunk <;> simp [passedOn, chunkSeen, ha]

theorem trace_append (c : Bool) (s : RequestReceiver) (es fs : List Event) :
    trace c s (es++fs) = trace c s es ++ trace c (final (react c) s es) fs := by
  induction es generalizing s with
  | nil => rfl
  | cons e es ih => exact congrArg (s.react c e :: ·) (ih _)

theorem passedOn_append (as bs : List (RxState × RequestReceiver)) :
    passedOn (as++bs) = passedOn as ++ passedOn bs := List.filterMap_append

theorem assembled_quiet (g : Bytes) {as : List (RxState × RequestReceiver)}
    (h : ∀ a ∈ as, a.1 = .incomplete ∧ a.2.inChunks = true)
    (bs : List (RxState × RequestReceiver)) :
    assembled g (as++bs) = as.map (fun a => (.incomplete,a.2.holding g)) ++ assembled g bs := by
  induction as with
  | nil => rfl
  | cons a as ih =>
    obtain ⟨hs,hc⟩ := h a (by simp)
    have ha : assemble g a = (.incomplete,g) := by simp [assemble, hs, hc]
    have hfirst : assembled g (a::(as++bs)) =
        ((assemble g a).1,a.2.holding (assemble g a).2) ::
          assembled (assemble g a).2 (as++bs) := rfl
    rw [List.cons_append, hfirst, ha, ih (fun b hb => h b (by simp [hb]))]
    rfl

theorem piece_trace (hc : s.inChunks = true) (hn : s.chunk.next = .cleared) {c : Piece}
    (hw : c.WellFormed) {packets : List Bytes} (hp : c.Split packets) :
    ∃ quiet, trace false s (packets.map .packet) =
        quiet ++ [(.chunk,{ s with chunk := c.received })] ∧
      final (react false) s (packets.map .packet) = { s with chunk := c.received } ∧
      ∀ a ∈ quiet, a.1 = .incomplete ∧ a.2.inChunks = true := by
  have hnext : s.chunk.next = .cleared := hn
  obtain ⟨hend,quiet,hquiet,hall⟩ := (streamer hc).block_outputs
    (hnext.symm ▸ Piece.seamless hw) c.text_ne_nil hp.2 hp.1
  rw [trace_packets, final_packets]
  refine ⟨quiet,hquiet,hend,fun a ha => ?_⟩
  obtain ⟨hwait,n,hstate⟩ := hall a ha
  exact ⟨hwait,by rw [hstate]; exact hc⟩

theorem stream_passed {pieces : List Piece} (hw : ∀ c ∈ pieces, c.WellFormed)
    {blocks : List (List Bytes)} (hs : List.Forall₂ (fun ps c => Piece.Split ps c) blocks pieces)
    (hc : s.inChunks = true) (hn : s.chunk.next = .cleared) :
    passedOn (trace false s (blocks.flatten.map .packet)) = pieces.map Piece.received := by
  have hlook (x : RequestReceiver) : chunkSeen (.incomplete,x) = [] := rfl
  have hseen := ((streamer hc).stream_outputs hlook hw hs hn).1
  rw [passedOn_seen, trace_packets, show s = { s with chunk := s.chunk } from rfl, hseen]
  exact List.map_eq_flatMap.symm

theorem assemble_chunk (g : Bytes) (hc : s.inChunks = true) (c : Piece) :
    assemble g (.chunk,{ s with chunk := c.received }) =
      if c.data = [] then (.valid,g) else (.incomplete,g++c.data) := by
  have hin : ({ s with chunk := c.received } : RequestReceiver).inChunks = true := hc
  have hlast : c.received.header.isLast = decide (c.data = []) := by
    simp [Piece.received, RxChunk.received, ChunkHeader.isLast, ChunkHeader.complete]
  rw [assemble, hin, hlast]
  by_cases hd : c.data = [] <;> simp [hd, Piece.received, RxChunk.received]

theorem assembled_chunk (g : Bytes) {quiet : List (RxState × RequestReceiver)}
    (hq : ∀ a ∈ quiet, a.1 = .incomplete ∧ a.2.inChunks = true)
    (a : RxState × RequestReceiver) (as : List (RxState × RequestReceiver)) :
    assembled g (quiet++[a]++as) = quiet.map (fun a => (.incomplete,a.2.holding g)) ++
      ((assemble g a).1,a.2.holding (assemble g a).2) :: assembled (assemble g a).2 as := by
  rw [List.append_assoc, assembled_quiet g hq]
  rfl

theorem stream_assembled {pieces : List Piece} (hw : ∀ c ∈ pieces, c.WellFormed)
    (hdata : ∀ c ∈ pieces, c.data ≠ []) {blocks : List (List Bytes)}
    (hs : List.Forall₂ (fun ps c => Piece.Split ps c) blocks pieces) {last : Piece}
    (hl : last.WellFormed) (hlast : last.data = []) {packets : List Bytes}
    (hp : last.Split packets) (hc : s.inChunks = true) (hn : s.chunk.next = .cleared)
    (g : Bytes) :
    ∃ quiet, assembled g (trace false s ((blocks.flatten++packets).map .packet)) =
        quiet ++ [(.valid,({ s with chunk := last.received } : RequestReceiver).holding
          (g ++ pieces.flatMap Piece.data))] ∧
      ∀ a ∈ quiet, a.1 = .incomplete := by
  induction hs generalizing s g with
  | nil =>
    obtain ⟨quiet,htrace,-,hquiet⟩ := piece_trace hc hn hl hp
    have hmet := assemble_chunk g hc last
    rw [if_pos hlast] at hmet
    refine ⟨quiet.map (fun a => (.incomplete,a.2.holding g)),?_,?_⟩
    · have hrun := assembled_chunk g hquiet (.chunk,{ s with chunk := last.received }) []
      rw [List.append_nil, hmet] at hrun
      rw [List.flatten_nil, List.nil_append, htrace, hrun, List.flatMap_nil, List.append_nil]
      rfl
    · intro a ha
      obtain ⟨b,-,rfl⟩ := List.mem_map.mp ha
      rfl
  | @cons ps c blocks pieces hsplit hrest ih =>
    obtain ⟨quiet,htrace,hend,hquiet⟩ := piece_trace hc hn (hw c (by simp)) hsplit
    have hmet := assemble_chunk g hc c
    rw [if_neg (hdata c (by simp))] at hmet
    obtain ⟨more,hmore,hall⟩ := ih (s := { s with chunk := c.received })
      (fun d hd => hw d (by simp [hd])) (fun d hd => hdata d (by simp [hd])) hc rfl (g++c.data)
    rw [List.flatten_cons, List.append_assoc, List.map_append, trace_append, hend, htrace,
      assembled_chunk g hquiet, hmet]
    dsimp only
    rw [hmore]
    refine ⟨quiet.map (fun a => (.incomplete,a.2.holding g)) ++
      (.incomplete,({ s with chunk := c.received } : RequestReceiver).holding (g++c.data)) ::
        more,by simp,?_⟩
    intro a ha
    rcases List.mem_append.mp ha with ha | ha
    · obtain ⟨b,-,rfl⟩ := List.mem_map.mp ha
      rfl
    · rcases List.mem_cons.mp ha with rfl | ha
      · rfl
      · exact hall a ha

/-- Chunks that are sent are passed on as they were sent, in whatever packets
they come, as long as no packet holds bytes of two. A receiver that puts them
together passes on the request once, with all their data, at the last chunk. -/
theorem chunks_delivered {pieces : List Piece} (hw : ∀ c ∈ pieces, c.WellFormed)
    (hdata : ∀ c ∈ pieces, c.data ≠ []) {blocks : List (List Bytes)}
    (hs : List.Forall₂ (fun ps c => Piece.Split ps c) blocks pieces) {last : Piece}
    (hl : last.WellFormed) (hlast : last.data = []) {packets : List Bytes}
    (hp : last.Split packets) (hc : s.inChunks = true) (hn : s.chunk.next = .cleared) :
    let es := (blocks.flatten++packets).map Event.packet
    passedOn (trace false s es) = (pieces++[last]).map Piece.received ∧
      ∃ quiet r, trace true s es = quiet ++ [(.valid,r)] ∧
        r.body = s.body ++ pieces.flatMap Piece.data ∧ ∀ a ∈ quiet, a.1 = .incomplete := by
  constructor
  · have hall : List.Forall₂ (fun ps c => Piece.Split ps c) (blocks++[packets]) (pieces++[last]) :=
      List.rel_append hs (.cons hp .nil)
    have hwell : ∀ c ∈ pieces++[last], c.WellFormed := by
      intro c hc
      rcases List.mem_append.mp hc with hc | hc
      · exact hw c hc
      · rw [List.mem_singleton.mp hc]
        exact hl
    have hpassed := stream_passed hwell hall hc hn
    rwa [List.flatten_append, List.flatten_singleton] at hpassed
  · obtain ⟨quiet,hrun,hquiet⟩ := stream_assembled hw hdata hs hl hlast hp hc hn []
    have hmode := trace_agrees (s := s) (g := []) (fun _ => rfl)
      ((blocks.flatten++packets).map .packet)
    rw [holding_nil, hrun] at hmode
    exact ⟨quiet,_,hmode,by simp [holding],hquiet⟩

theorem chunks_delivered_two :
    let s : RequestReceiver := { cleared with
      request := ⟨.cleared,⟨[(ascii "transfer-encoding",ascii "chunked")],.cleared,true⟩,true⟩ }
    let c : Piece := ⟨ascii "ab",[]⟩
    let last : Piece := ⟨[],ascii "x"⟩
    let es := [c.text.take 1,c.text.drop 1,last.text].map Event.packet
    passedOn (trace false s es) = [c.received,last.received] ∧
      ∃ quiet r, trace true s es = quiet ++ [(.valid,r)] ∧ r.body = ascii "ab" ∧
        ∀ a ∈ quiet, a.1 = .incomplete := by
  intro s c last es
  have hc : c.WellFormed := ⟨by decide,by decide⟩
  have hl : last.WellFormed := ⟨by decide,by decide⟩
  have hlong : 1 < c.text.length := by
    have hcrlf : crlf.length = 2 := rfl
    rw [Piece.text, sendChunk, List.length_append, hcrlf]
    omega
  have hsplit : Piece.Split [c.text.take 1,c.text.drop 1] c := by
    have hflat : [c.text.take 1,c.text.drop 1].flatten = c.text := by
      rw [List.flatten_cons, List.flatten_singleton, List.take_append_drop]
    refine ⟨hflat,fun p hp => List.ne_nil_of_length_pos ?_⟩
    rcases List.mem_pair.mp hp with rfl | rfl
    · rw [List.length_take]
      omega
    · rw [List.length_drop]
      omega
  have hlast : Piece.Split [last.text] last := by
    refine ⟨List.flatten_singleton,List.forall_mem_singleton.mpr ?_⟩
    simp [Piece.text, sendChunk, crlf]
  exact chunks_delivered (List.forall_mem_singleton.mpr hc)
    (List.forall_mem_singleton.mpr (by decide)) (.cons hsplit .nil) hl rfl hlast (by decide) rfl

def passedData (as : List (RxState × RequestReceiver)) : Bytes :=
  (passedOn as).flatMap (fun k => if k.header.isLast then [] else k.data)

def brought (rx : RequestReceiver) : Bytes :=
  if rx.chunk.valid && !rx.chunk.header.isLast then rx.chunk.data else []

theorem held_step (hc : s.inChunks = true) (e : Event)
    (ha : (s.react false e).2.inChunks = true) :
    (s.react false e).2.body = s.body ∧ ((s.react false e).1 = .incomplete ∨
      ((s.react false e).1 = .chunk ∧ (s.react false e).2.chunk.valid = true)) := by
  obtain ⟨hv,hchunked⟩ := Bool.and_eq_true_iff.mp hc
  cases e with
  | packet cs =>
    have hreceive : s.react false (.packet cs) = s.receiveChunkWith false false cs := by
      simp [react, receiveWith, receiveContentWith, hv, hchunked]
    rw [hreceive] at ha ⊢
    unfold receiveChunkWith at ha ⊢
    generalize s.chunk.next.parse cs = p at ha ⊢
    obtain ⟨ok,chunk,rest⟩ := p
    dsimp only at ha ⊢
    by_cases hbad : ok = false ∧ rest ≠ []
    · rw [if_pos hbad] at ha
      exact absurd ha (by decide)
    · rw [if_neg hbad]
      cases hk : chunk.valid <;> simp
      exact hk
  | continueSent => exact ⟨rfl,Or.inl rfl⟩
  | clear => exact absurd ha (by simp [react, inChunks, cleared, RxRequest.cleared])

theorem held_body (hc : s.inChunks = true) (g : Bytes) (es : List Event)
    (ha : ∀ a ∈ trace false s es, a.2.inChunks = true) :
    (final (react true) (s.holding g) es).body =
      s.body ++ g ++ passedData (trace false s es) := by
  induction es generalizing s g with
  | nil => simp [holding, trace, answers, passedData, passedOn]
  | cons e es ih =>
    have htrace : trace false s (e::es) =
        s.react false e :: trace false (s.react false e).2 es := rfl
    rw [htrace, List.forall_mem_cons] at ha
    obtain ⟨hbody,hstate⟩ := held_step hc e ha.1
    obtain ⟨hreact,-⟩ := react_agrees (s := s) (g := g)
      (fun h => absurd (hc.symm.trans h) (by simp)) e
    have hrest := ih ha.1 (assemble g (s.react false e)).2 ha.2
    rw [final, hreact, hrest, hbody, htrace]
    rcases hstate with hs | ⟨hs,hk⟩
    · simp [assemble, ha.1, hs, passedData, passedOn]
    · cases hl : (s.react false e).2.chunk.header.isLast <;>
        simp [assemble, ha.1, hs, hk, hl, passedData, passedOn]

end RequestReceiver

end RethinkLog.Via
