import RethinkLog.ChunkText
import RethinkLog.MessageHead
import Mathlib.Data.List.Forall2

/-!
# Messages in chunks

A receiver that holds the head of a message in chunks reads one chunk after
the other: a packet completes a chunk or is waited for, and an error clears
everything. A chunk that comes whole in the packet that ends the head is read
with it, and is not passed on by itself.
-/

set_option autoImplicit false

namespace RethinkLog.Via
open Incremental Machine

/-- A header string of fields that are read, with chunks for a body. -/
structure Coded (headerString : Bytes) (fields : List Field) : Prop where
  text : headerString = fields.flatMap Field.line
  wellFormed : ∀ f ∈ fields, f.WellFormed
  plain : ∀ f ∈ fields, f.name.all Field.plain = true
  coding : Http.contains HeaderId.transferEncoding.standardName headerString = true
  chunked : MessageHeaders.isChunked ⟨fields.map Field.kept,.cleared,true⟩ = true

instance (headerString : Bytes) (fields : List Field) : Decidable (Coded headerString fields) :=
  decidable_of_iff (headerString = fields.flatMap Field.line ∧ (∀ f ∈ fields, f.WellFormed) ∧
      (∀ f ∈ fields, f.name.all Field.plain = true) ∧
      Http.contains HeaderId.transferEncoding.standardName headerString = true ∧
      MessageHeaders.isChunked ⟨fields.map Field.kept,.cleared,true⟩ = true)
    ⟨fun h => ⟨h.1,h.2.1,h.2.2.1,h.2.2.2.1,h.2.2.2.2⟩,
      fun h => ⟨h.text,h.wellFormed,h.plain,h.coding,h.chunked⟩⟩

namespace Coded
variable {headerString : Bytes} {fields : List Field} (h : Coded headerString fields)
include h

theorem headerText_eq (size : ℕ) : headerText headerString size = fieldsText fields := by
  rw [headerText, if_neg (by simp [h.coding]), h.text, List.append_nil, fieldsText]

theorem isChunked {headers : MessageHeaders} (hf : headers.fields = fields.map Field.kept) :
    headers.isChunked = true := by
  have hfind (name : Bytes) : headers.find name =
      MessageHeaders.find ⟨fields.map Field.kept,.cleared,true⟩ name := by
    rw [MessageHeaders.find, hf]
    rfl
  rw [MessageHeaders.isChunked, hfind]
  exact h.chunked

end Coded

structure Piece where
  data : Bytes
  extension : Bytes
  deriving DecidableEq, Repr

namespace Piece

def text (c : Piece) : Bytes := sendChunk c.data c.extension

def received (c : Piece) : RxChunk := .received c.data c.extension

structure WellFormed (c : Piece) : Prop where
  size : c.data.length ≤ Http.ulongMax
  extension : Extends c.extension

def Split (packets : List Bytes) (c : Piece) : Prop :=
  packets.flatten = c.text ∧ ∀ p ∈ packets, p ≠ []

theorem text_ne_nil (c : Piece) : c.text ≠ [] := by simp [text, sendChunk, crlf]

theorem seamless {c : Piece} (h : c.WellFormed) :
    Seamless RxChunk.parse c.received .cleared c.text :=
  RxChunk.received_seamless c.data c.extension h.size h.extension

theorem received_data (c : Piece) :
    (if c.received.header.isLast then [] else c.received.data) = c.data := by
  by_cases hc : c.data = [] <;>
    simp [received, RxChunk.received, ChunkHeader.isLast, ChunkHeader.complete, hc]

end Piece

namespace RxChunk

theorem next_fresh (k : RxChunk) : k.next.valid = false := by
  rw [next]
  split
  · rfl
  · rename_i hk
    exact Bool.not_eq_true _ |>.mp hk

theorem parse_done (k : RxChunk) (cs : Bytes) :
    (k.parse cs).2.1.valid = (k.valid || (k.parse cs).1) := by
  have hcontent (k : RxChunk) (cs : Bytes) :
      (k.parseContent cs).2.1.valid = (k.valid || (k.parseContent cs).1) := by
    unfold RxChunk.parseContent
    dsimp only
    split
    · rfl
    · split
      · simp
      · split <;> simp
  unfold RxChunk.parse
  dsimp only
  split
  · exact hcontent k cs
  · split
    · exact hcontent _ _
    · simp

end RxChunk

section Receivers
variable {σ : Type}

def streamed (cleared : σ) (hold : RxChunk → σ) (state : RxChunk → RxState)
    (p : Parsed RxChunk) : RxState × σ :=
  if p.1 = false ∧ p.2.2 ≠ [] then (.invalid,cleared) else (state p.2.1,hold p.2.1)

theorem streamed_good {cleared : σ} {hold : RxChunk → σ} {state : RxChunk → RxState} {ok : Bool}
    {k : RxChunk} {rest : Bytes} (h : ok = true ∨ rest = []) :
    streamed cleared hold state (ok,k,rest) = (state k,hold k) := by
  rcases h with rfl | rfl <;> simp [streamed]

/-- A receiver that holds the head of a message, and reads its next chunk. -/
structure Streamer (receive : σ → Bytes → RxState × σ) (hold : RxChunk → σ) (cleared : σ) :
    Prop where
  next : ∀ k cs, receive (hold k) cs = streamed cleared hold
    (fun k => if k.valid then .chunk else .incomplete) (k.next.parse cs)

variable {receive : σ → Bytes → RxState × σ} {hold : RxChunk → σ} {cleared : σ}
  (h : Streamer receive hold cleared)
include h

theorem Streamer.block_outputs {k m : RxChunk} {w : Bytes}
    (hs : Seamless RxChunk.parse k m.next w) (hw : w ≠ []) {packets : List Bytes}
    (hfull : ∀ p ∈ packets, p ≠ []) (hp : packets.flatten = w) :
    final receive (hold m) packets = hold k ∧
      ∃ quiet, outputs receive (hold m) packets = quiet ++ [(.chunk,hold k)] ∧
        ∀ a ∈ quiet, a.1 = .incomplete ∧ ∃ n, a.2 = hold n := by
  induction packets generalizing m w with
  | nil => exact absurd hp.symm hw
  | cons p ps ih =>
    have hdone := RxChunk.parse_done m.next p
    rw [m.next_fresh, Bool.false_or] at hdone
    rw [List.flatten_cons] at hp
    rw [final, outputs_cons, h.next]
    by_cases hps : ps.flatten = []
    · have hnil : ps = [] := by
        cases ps with
        | nil => rfl
        | cons q ps => exact absurd (List.append_eq_nil_iff.mp hps).1 (hfull q (by simp))
      subst hnil
      rw [hps, List.append_nil] at hp
      have hwhole := hs.whole []
      rw [List.append_nil, ← hp] at hwhole
      rw [hwhole] at hdone ⊢
      rw [streamed_good (.inl rfl), show k.valid = true from hdone]
      exact ⟨rfl,[],rfl,by simp⟩
    · obtain ⟨n,hn,hrest⟩ := hs.cut hp.symm (hfull p (by simp)) hps
      rw [hn] at hdone ⊢
      have hnext : n.next = n := if_neg (by simp [show n.valid = false from hdone])
      obtain ⟨hend,quiet,hquiet,hall⟩ := ih (hnext.symm ▸ hrest) hps
        (fun q hq => hfull q (by simp [hq])) rfl
      rw [streamed_good (.inr rfl), show n.valid = false from hdone]
      refine ⟨hend,(.incomplete,hold n)::quiet,by rw [hquiet]; rfl,?_⟩
      rintro a (_ | ⟨_,ha⟩)
      · exact ⟨rfl,n,rfl⟩
      · exact hall a ha

section Looking
variable {β : Type*} {look : RxState × σ → List β} (hlook : ∀ s, look (.incomplete,s) = [])
include hlook

theorem Streamer.chunk_then {k m : RxChunk} {w : Bytes}
    (hs : Seamless RxChunk.parse k m.next w) (hw : w ≠ []) {packets : List Bytes}
    (hfull : ∀ p ∈ packets, p ≠ []) (hp : packets.flatten = w) {later : List Bytes}
    (hl : ∀ a ∈ outputs receive (hold k) later, ∃ n, a.2 = hold n) :
    (outputs receive (hold m) (packets++later)).flatMap look =
        look (.chunk,hold k) ++ (outputs receive (hold k) later).flatMap look ∧
      ∀ a ∈ outputs receive (hold m) (packets++later), ∃ n, a.2 = hold n := by
  obtain ⟨hend,quiet,hquiet,hall⟩ := h.block_outputs hs hw hfull hp
  have hnone : quiet.flatMap look = [] := by
    rw [List.flatMap_eq_nil_iff]
    rintro ⟨s,x⟩ ha
    obtain rfl : s = .incomplete := (hall _ ha).1
    exact hlook x
  rw [outputs_append, hend, hquiet]
  constructor
  · rw [List.flatMap_append, List.flatMap_append, hnone, List.flatMap_singleton, List.nil_append]
  · intro a ha
    rcases List.mem_append.mp ha with ha | ha
    · rcases List.mem_append.mp ha with ha | ha
      · exact (hall a ha).2
      · exact ⟨k,congrArg Prod.snd (List.mem_singleton.mp ha)⟩
    · exact hl a ha

theorem Streamer.stream_outputs {pieces : List Piece} (hw : ∀ c ∈ pieces, c.WellFormed)
    {blocks : List (List Bytes)} (hs : List.Forall₂ (fun ps c => Piece.Split ps c) blocks pieces)
    {m : RxChunk} (hm : m.next = .cleared) :
    (outputs receive (hold m) blocks.flatten).flatMap look =
        pieces.flatMap (fun c => look (.chunk,hold c.received)) ∧
      ∀ a ∈ outputs receive (hold m) blocks.flatten, ∃ n, a.2 = hold n := by
  induction hs generalizing m with
  | nil => exact ⟨rfl,by simp [outputs, answers]⟩
  | @cons ps c blocks pieces hsplit hrest ih =>
    obtain ⟨hmore,hlater⟩ := ih (m := c.received) (fun d hd => hw d (by simp [hd])) rfl
    have hseamless := hm.symm ▸ Piece.seamless (hw c (by simp))
    obtain ⟨hseen,hall⟩ := h.chunk_then hlook hseamless c.text_ne_nil hsplit.2 hsplit.1 hlater
    rw [List.flatten_cons, List.flatMap_cons, ← hmore]
    exact ⟨hseen,hall⟩

/-- The chunks behind a head. The first is read with the head when no packet is
left for it. -/
theorem Streamer.begun {begin : Bytes → RxState × σ} {opened : RxState}
    (hbegin : ∀ cs, begin cs =
      streamed cleared hold (fun _ => opened) (RxChunk.cleared.parse cs))
    {first : Piece} {pieces : List Piece} (hw : ∀ c ∈ first::pieces, c.WellFormed)
    {rest : Bytes} {ps : List Bytes} (hfull : ∀ p ∈ ps, p ≠ [])
    (hp : rest++ps.flatten = first.text) {blocks : List (List Bytes)}
    (hs : List.Forall₂ (fun ps c => Piece.Split ps c) blocks pieces) :
    ∃ m, begin rest = (opened,hold m) ∧ m.valid = decide (ps = []) ∧
      (ps = [] → m = first.received) ∧
      (outputs receive (hold m) (ps++blocks.flatten)).flatMap look =
        (if ps = [] then pieces else first::pieces).flatMap
          (fun c => look (.chunk,hold c.received)) ∧
      ∀ a ∈ outputs receive (hold m) (ps++blocks.flatten), ∃ n, a.2 = hold n := by
  have hseamless := Piece.seamless (hw first (by simp))
  obtain ⟨hpassed,hall⟩ := h.stream_outputs hlook (fun c hc => hw c (by simp [hc])) hs
    (m := first.received) rfl
  by_cases hps : ps = []
  · subst hps
    rw [List.flatten_nil, List.append_nil] at hp
    have hwhole := hseamless.whole []
    rw [List.append_nil, ← hp] at hwhole
    refine ⟨first.received,?_,rfl,fun _ => rfl,hpassed,hall⟩
    rw [hbegin, hwhole, streamed_good (.inl rfl)]
  · have hmore : ps.flatten ≠ [] := by
      obtain ⟨q,qs,rfl⟩ := List.exists_cons_of_ne_nil hps
      simp [hfull q (by simp)]
    obtain ⟨m,hm,htail⟩ : ∃ m, RxChunk.cleared.parse rest = (false,m,[]) ∧
        Seamless RxChunk.parse first.received m ps.flatten := by
      by_cases hr : rest = []
      · subst hr
        rw [List.nil_append] at hp
        exact ⟨.cleared,rfl,hp ▸ hseamless⟩
      · exact hseamless.cut hp.symm hr hmore
    have hvalid : m.valid = false := by
      have hdone := RxChunk.parse_done .cleared rest
      rw [hm] at hdone
      exact hdone
    have hnext : m.next = m := if_neg (by simp [hvalid])
    obtain ⟨hseen,hlater⟩ := h.chunk_then hlook (hnext.symm ▸ htail) hmore hfull rfl hall
    refine ⟨m,?_,by simp [hvalid, hps],fun hn => absurd hn hps,?_,hlater⟩
    · rw [hbegin, hm, streamed_good (.inr rfl)]
    · rw [hseen, hpassed, if_neg hps, List.flatMap_cons]

end Looking

end Receivers

end RethinkLog.Via
