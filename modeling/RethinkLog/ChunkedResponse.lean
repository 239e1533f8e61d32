import RethinkLog.ChunkedMessage
import RethinkLog.Exchange

/-!
# A response in chunks

A server answers with the head of a response and then sends chunks. Its client
signals the response without a body, and then every chunk. The first chunk is
not signalled when it comes whole in the packet that ends the head.
-/

set_option autoImplicit false

namespace RethinkLog.Via
open Incremental Machine

namespace ResponseReceiver

def streaming (r : RxResponse) (k : RxChunk) : ResponseReceiver := ⟨r,k,[]⟩

variable {r : RxResponse} (hc : r.headers.isChunked = true)
include hc

theorem streaming_begins (cs : Bytes) : (holding r []).receiveContent true cs =
    streamed cleared (streaming r) (fun _ => .valid) (RxChunk.cleared.parse cs) := by
  have hchunked : (holding r []).response.headers.isChunked = true := hc
  have hnext : (holding r []).chunk.next = .cleared := rfl
  rw [receiveContent, if_pos hchunked, receiveChunk, hnext, streamed]
  simp [holding, streaming]

theorem streamer (hv : r.valid = true) : Streamer receive (streaming r) cleared where
  next := by
    intro k cs
    rw [receive, if_pos (show (streaming r k).response.valid = true from hv), receiveContent,
      if_pos (show (streaming r k).response.headers.isChunked = true from hc), receiveChunk,
      show (streaming r k).chunk = k from rfl]
    generalize k.next.parse cs = p
    obtain ⟨ok,n,rest⟩ := p
    cases hn : n.valid <;> simp [streamed, streaming, hn]

end ResponseReceiver

theorem RequestReceiver.respond_coded (rx : RequestReceiver) {s : TxResponse}
    {replies : List Field} (hu : Coded s.headerString replies) :
    rx.respond s [] = (rx.versioned s).lineText ++ fieldsText replies := by
  have hcoded : Coded (rx.versioned s).headerString replies := hu
  rw [respond, ite_self, List.append_nil, TxResponse.message, hcoded.headerText_eq]

namespace HttpClient

theorem send_cleared (c : HttpClient) (packet : Bytes) : (c.send packet).2.rx = .cleared := rfl

theorem chunks_held {x : RxResponse} (hv : x.valid = true) (hc : x.headers.isChunked = true)
    {inward ps : List Bytes} {rest : Bytes}
    (hf : feed ResponseReceiver.head (fun rx => rx.response.line.fail) .cleared inward =
      some (.holding x [],rest,ps)) {first : Piece} {pieces : List Piece}
    (hw : ∀ d ∈ first::pieces, d.WellFormed) (hfull : ∀ p ∈ ps, p ≠ [])
    (hp : rest++ps.flatten = first.text) {blocks : List (List Bytes)}
    (hb : List.Forall₂ (fun ps d => Piece.Split ps d) blocks pieces) :
    (outputs ResponseReceiver.receive .cleared (inward++blocks.flatten)).flatMap signalled =
      .response x [] :: (if ps = [] then pieces else first::pieces).map
        (fun d => .chunk d.received d.data) := by
  have hlook (y : ResponseReceiver) : signalled (.incomplete,y) = [] := rfl
  obtain ⟨m,hopen,-,-,hseen,-⟩ := (ResponseReceiver.streamer hc hv).begun hlook
    (ResponseReceiver.streaming_begins hc) hw hfull hp hb
  obtain ⟨-,quiet,hquiet,hwait⟩ :=
    ResponseReceiver.receive_headed.outputs rfl (feed_append hf blocks.flatten)
  have hnone : quiet.flatMap signalled = [] := by
    rw [List.flatMap_eq_nil_iff]
    intro a ha
    rw [signalled, hwait a ha]
  rw [hquiet, List.flatMap_append, hnone, List.nil_append, List.flatMap_cons, hopen, hseen,
    List.map_eq_flatMap]
  rfl

end HttpClient

end RethinkLog.Via
