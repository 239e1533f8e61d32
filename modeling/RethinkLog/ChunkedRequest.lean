import RethinkLog.Exchange
import RethinkLog.ReceivedText

/-!
# A request in chunks

A client sends the head of a request and then chunks. A server with a handler
for chunks passes them all on, unless the packet that ends the head has the
whole first chunk: that one is never passed on. A server that puts the chunks
together has all their data in either case.
-/

set_option autoImplicit false

namespace RethinkLog.Via
open Incremental Machine

namespace RequestReceiver

theorem run_agrees (es : List Event) :
    ∃ g, final (react true) cleared es = (final (react false) cleared es).holding g ∧
      ((final (react false) cleared es).inChunks = false → g = []) := by
  induction es using List.reverseRecOn with
  | nil => exact ⟨[],(holding_nil _).symm,fun _ => rfl⟩
  | append_singleton es e ih =>
    obtain ⟨g,hg,hnone⟩ := ih
    obtain ⟨hreact,hnext⟩ := react_agrees hnone e
    rw [final_concat, final_concat, hg, hreact]
    exact ⟨_,rfl,hnext⟩

theorem content_opened {s r : RequestReceiver} {parsed : Bool} {cs : Bytes}
    (h : s.receiveContentWith false parsed cs = (.valid,r)) (hc : r.inChunks = true) :
    parsed = true ∧ r.body = s.body := by
  unfold receiveContentWith at h
  cases hk : s.request.shown.isChunked with
  | false =>
    rw [hk, if_neg (by simp)] at h
    have hnone := body_chunks s cs hk
    rw [h] at hnone
    exact absurd (hc.symm.trans hnone) (by simp)
  | true =>
    rw [hk, if_pos rfl, receiveChunkWith] at h
    generalize s.chunk.next.parse cs = k at h
    dsimp only at h
    split at h
    · exact absurd (congrArg Prod.fst h) (by simp)
    · cases parsed with
      | true =>
        cases he : (s.request.expectContinue && !s.continueSent) with
        | true => exact absurd (congrArg Prod.fst h) (by simp [he])
        | false =>
          simp only [he, Bool.true_and, Bool.false_eq_true, if_false,
            Bool.not_false, if_true, Prod.mk.injEq, true_and] at h
          exact ⟨rfl,by rw [← h]⟩
      | false =>
        cases hv : k.2.1.valid <;> simp [hv] at h

theorem opened {s r : RequestReceiver} (hs : s.request.valid = false → s.body = []) {p : Bytes}
    (hp : s.receiveWith false p = (.valid,r)) (hc : r.inChunks = true) :
    s.inChunks = false ∧ r.body = [] := by
  unfold receiveWith at hp
  cases hv : s.request.valid with
  | true =>
    rw [hv, if_pos rfl] at hp
    exact absurd (content_opened hp hc).1 (by simp)
  | false =>
    rw [hv, if_neg (by simp)] at hp
    dsimp only at hp
    refine ⟨by simp [inChunks, hv],?_⟩
    split at hp
    · exact (content_opened hp hc).2.trans (hs hv)
    · split at hp
      · exact absurd (congrArg Prod.fst hp) (by simp)
      · exact absurd (congrArg Prod.fst hp) (by simp)

/-- In every run, what is put together of a request in chunks is what the other
server passes on, behind the chunk that came with the head. -/
theorem body_brought (before : List Event) (p : Bytes) (r : RequestReceiver)
    (hp : (final (react false) cleared before).receiveWith false p = (.valid,r))
    (hc : r.inChunks = true) (es : List Event)
    (ha : ∀ a ∈ trace false r es, a.2.inChunks = true) :
    (final (react true) cleared (before ++ .packet p::es)).body =
      brought r ++ passedData (trace false r es) := by
  obtain ⟨hnone,hbody⟩ := opened (final_clean false before).idle hp hc
  obtain ⟨g,hg,hgot⟩ := run_agrees before
  obtain ⟨hreact,-⟩ := react_agrees (g := g) (fun _ => hgot hnone) (.packet p)
  obtain rfl := hgot hnone
  have hplain : (final (react false) cleared before).react false (.packet p) = (.valid,r) := hp
  rw [hplain] at hreact
  rw [final_append, hg, final, hreact, held_body hc _ es ha, hbody]
  cases hk : r.chunk.valid <;> cases hl : r.chunk.header.isLast <;>
    simp [assemble, hc, hk, hl, brought]

def streaming (r : RxRequest) (k : RxChunk) : RequestReceiver :=
  { cleared with request := r, chunk := k }

theorem streaming_chunks {r : RxRequest} (hv : r.valid = true) (hc : r.headers.isChunked = true)
    (k : RxChunk) : (streaming r k).inChunks = true := Bool.and_eq_true_iff.mpr ⟨hv,hc⟩

theorem streaming_begins {r : RxRequest} (hc : r.headers.isChunked = true) (cs : Bytes) :
    (bearing r []).receiveContent true cs = streamed cleared (streaming r)
      (fun _ => if r.expectContinue then .expectContinue else .valid)
      (RxChunk.cleared.parse cs) := by
  have hchunked : (bearing r []).request.shown.isChunked = true := hc
  have hnext : (bearing r []).chunk.next = .cleared := rfl
  rw [receiveContent, receiveContentWith, if_pos hchunked, receiveChunkWith, hnext, streamed]
  cases he : r.expectContinue <;> simp [bearing, streaming, cleared, he]

theorem brought_streaming (r : RxRequest) (k : RxChunk) : brought (streaming r k) =
    if k.valid then (if k.header.isLast then [] else k.data) else [] := by
  cases hk : k.valid <;> cases hl : k.header.isLast <;> simp [brought, streaming, hk, hl]

section Held
variable {r : RxRequest} (hv : r.valid = true) (hc : r.headers.isChunked = true)
  {outward ps : List Bytes} {rest : Bytes}
  (hf : feed head (fun rx => rx.request.line.fail) cleared outward = some (bearing r [],rest,ps))
  {first : Piece} {pieces : List Piece} (hw : ∀ d ∈ first::pieces, d.WellFormed)
  (hfull : ∀ p ∈ ps, p ≠ []) (hp : rest++ps.flatten = first.text) {blocks : List (List Bytes)}
  (hs : List.Forall₂ (fun ps d => Piece.Split ps d) blocks pieces)
include hv hc hf hw hfull hp hs

theorem chunks_held :
    passedOn (trace false cleared ((outward++blocks.flatten).map .packet)) =
        (if ps = [] then pieces else first::pieces).map Piece.received ∧
      (r.expectContinue = false →
        (final (react true) cleared ((outward++blocks.flatten).map .packet)).body =
          (first::pieces).flatMap Piece.data) := by
  have hstream : Streamer receive (streaming r) cleared :=
    streamer (streaming_chunks hv hc .cleared)
  have hlook (x : RequestReceiver) : chunkSeen (.incomplete,x) = [] := rfl
  obtain ⟨m,hopen,hm,hsame,hseen,hall⟩ :=
    hstream.begun hlook (streaming_begins hc) hw hfull hp hs
  have hwhole := feed_append hf blocks.flatten
  have hpassed : passedOn (outputs receive (streaming r m) (ps++blocks.flatten)) =
      (if ps = [] then pieces else first::pieces).map Piece.received := by
    rw [passedOn_seen, hseen]
    exact List.map_eq_flatMap.symm
  constructor
  · obtain ⟨-,quiet,hquiet,hwait⟩ := receive_headed.outputs rfl hwhole
    have hnone : passedOn quiet = [] := by
      rw [passedOn, List.filterMap_eq_nil_iff]
      intro a ha
      simp [hwait a ha]
    have hhead (as : List (RxState × RequestReceiver)) :
        passedOn ((if r.expectContinue then .expectContinue else .valid,streaming r m)::as) =
          passedOn as := by
      cases hr : r.expectContinue <;> simp [passedOn]
    rw [trace_packets, hquiet, passedOn_append, hnone, List.nil_append, hopen, hhead, hpassed]
  · intro hexpect
    obtain ⟨before,p,hparts,hlast⟩ := receive_headed.reached rfl hwhole
    have hvalid : (final (react false) cleared (before.map .packet)).receiveWith false p =
        (.valid,streaming r m) := by
      rw [final_packets, show receiveWith false = receive from rfl, hlast, hopen, hexpect]
      rfl
    have hbrought := body_brought (before.map .packet) p _ hvalid (streaming_chunks hv hc m)
      ((ps++blocks.flatten).map .packet) (by
        rw [trace_packets]
        intro a ha
        obtain ⟨n,hn⟩ := hall a ha
        rw [hn]
        exact streaming_chunks hv hc n)
    have hdata (ds : List Piece) : (ds.map Piece.received).flatMap
        (fun k => if k.header.isLast then [] else k.data) = ds.flatMap Piece.data := by
      rw [List.flatMap_map]
      simp only [Piece.received_data]
    have hes : (outward++blocks.flatten).map Event.packet =
        before.map .packet ++ .packet p::(ps++blocks.flatten).map .packet := by
      rw [← List.map_cons, ← List.map_append, ← hparts]
    rw [hes, hbrought, passedData, trace_packets, hpassed, hdata, brought_streaming, hm]
    by_cases hps : ps = []
    · obtain rfl := hsame hps
      rw [if_pos hps, if_pos (decide_eq_true hps), Piece.received_data, List.flatMap_cons]
    · rw [if_neg hps, if_neg (by simpa using hps), List.nil_append]

end Held

end RequestReceiver

section Chunks
variable (c : HttpClient) {q : TxRequest} (hq : (c.addHost q).WellFormed) {fields : List Field}
  (hu : Coded (c.addHost q).headerString fields)
include hq hu

omit hq in
theorem HttpClient.sendRequest_coded :
    (c.sendRequest q).1 = (c.addHost q).lineText ++ fieldsText fields := by
  rw [sendRequest, send, TxRequest.message, hu.headerText_eq]

theorem HttpClient.chunk_fed {t : Bytes} {outward : List Bytes}
    (hfull : ∀ p ∈ outward, p ≠ []) (hp : outward.flatten = (c.sendRequest q).1 ++ t)
    (hcut : Uncut (c.addHost q).lineText.length fields outward) :
    ∃ h rest ps, feed RequestReceiver.head (fun rx => rx.request.line.fail) .cleared outward =
        some (RequestReceiver.bearing ⟨(c.addHost q).complete.closed,h,true⟩ [],rest,ps) ∧
      h.fields = fields.map Field.kept ∧ rest++ps.flatten = t ∧ (∀ r ∈ ps, r ≠ []) ∧
      (ps = [] ↔ outward.dropLast.flatten.length < (c.sendRequest q).1.length) := by
  have hmessage := c.sendRequest_coded hu
  have hread {packets : List Bytes} {u : Bytes} (hne : ∀ p ∈ packets, p ≠ [])
      (h : packets.flatten = (c.sendRequest q).1 ++ u) :=
    RxRequest.text_fed hq hu.wellFormed hu.plain hne (by rw [h, hmessage, List.append_assoc])
  obtain ⟨h,rest,ps,hfed,-,hfields,hrest,hps⟩ := hread hfull hp
  refine ⟨h,rest,ps,RequestReceiver.head_within hfed,hfields.mpr hcut,hrest hcut,hps,?_⟩
  refine feed_last (by simp [hmessage, TxRequest.lineText]) hp hfed (hrest hcut) ?_
  intro packets u hsub hflat
  obtain ⟨g,rest',qs,hfirst,-⟩ := hread (fun p hp => hfull p (hsub p hp)) hflat
  simp [hfirst]

end Chunks

end RethinkLog.Via
