import RethinkLog.ChunkStream
import RethinkLog.RequestDelivery

/-!
# What a receiver may hold

Whatever bytes come, in whatever packets, and however the server answers: the
method that is held is in capitals, the target has no blank, the names of the
fields are in lower case, and no value has a line end. The data of a chunk is
no longer than its size, nor a body longer than its length. A body whose length
no `long` can hold is never begun: an exception leaves the receiver instead. A
header whose name has a digit is never found.
-/

set_option autoImplicit false

namespace RethinkLog.Via
open Incremental Machine

def isNamed (c : UInt8) : Bool := c = 45 || (97 ≤ c && c ≤ 122)

def Unbroken (s : Bytes) : Prop := ∀ c ∈ s, isEndOfLine c = false

theorem unbroken_concat {s : Bytes} {c : UInt8} (hs : Unbroken s) (hc : isEndOfLine c = false) :
    Unbroken (s++[c]) := by
  intro d hd
  rcases List.mem_append.mp hd with hd | hd
  · exact hs d hd
  · rwa [List.mem_singleton.mp hd]

theorem lower_named {c : UInt8} (h : (isAlpha c || c = 45) = true) :
    isNamed (Http.lower c) = true := by
  unfold Http.lower
  split
  · rename_i hu
    rw [UInt8.le_iff_toNat_le, UInt8.le_iff_toNat_le] at hu
    have hsum : (c+32).toNat = c.toNat+32 := by
      rw [UInt8.toNat_add]
      change (c.toNat+32)%256 = _
      have hle : c.toNat ≤ 90 := hu.2
      omega
    have hlow : 97 ≤ c+32 := by
      rw [UInt8.le_iff_toNat_le, hsum]
      have hge : 65 ≤ c.toNat := hu.1
      change 97 ≤ _
      omega
    have hhigh : c+32 ≤ 122 := by
      rw [UInt8.le_iff_toNat_le, hsum]
      exact Nat.add_le_add_right hu.2 32
    simp [isNamed, hlow, hhigh]
  · rename_i hu
    simp only [isAlpha, isUpper, Bool.or_eq_true, Bool.and_eq_true, decide_eq_true_eq] at h
    rcases h with (h | h) | h
    · exact absurd h hu
    · simp [isNamed, h]
    · simp [isNamed, h]

namespace FieldLine

structure Clean (f : FieldLine) : Prop where
  name : ∀ c ∈ f.name, isNamed c = true
  value : Unbroken f.value

theorem cleared_clean : cleared.Clean := ⟨by simp [cleared],by simp [cleared, Unbroken]⟩

variable {f : FieldLine} (h : f.Clean)
include h

theorem parseValue_clean (c : UInt8) : (f.parseValue c).Clean := by
  unfold parseValue
  cases hc : isEndOfLine c with
  | false => exact ⟨h.name,unbroken_concat h.value hc⟩
  | true =>
    simp only [Bool.not_true, Bool.false_eq_true, if_false]
    split
    · exact ⟨h.name,h.value⟩
    · exact ⟨h.name,h.value⟩

theorem parseChar_clean (c : UInt8) : (f.parseChar c).2.Clean := by
  unfold parseChar
  split
  · split
    · rename_i hc
      refine ⟨fun d hd => ?_,h.value⟩
      rcases List.mem_append.mp hd with hd | hd
      · exact h.name d hd
      · rw [List.mem_singleton.mp hd]
        exact lower_named hc
    · split
      · exact ⟨h.name,h.value⟩
      · exact h
  · split
    · exact h
    · exact parseValue_clean h c
  · exact parseValue_clean h c
  · split
    · exact ⟨h.name,h.value⟩
    · exact h
  · exact h

theorem continued_clean (rest : Bytes) : (f.continued rest).Clean := by
  unfold continued
  split
  · exact ⟨h.name,unbroken_concat h.value (by decide)⟩
  · exact h

theorem parse_clean (cs : Bytes) : (f.parse cs).2.1.Clean := by
  induction cs generalizing f with
  | nil => exact h
  | cons c cs ih =>
    have hchar := parseChar_clean h c
    rw [parse]
    split
    · exact h
    · split
      · exact ih (continued_clean hchar cs)
      · exact hchar

end FieldLine

namespace MessageHeaders

structure Clean (h : MessageHeaders) : Prop where
  name : ∀ f ∈ h.fields, ∀ c ∈ f.1, isNamed c = true
  value : ∀ f ∈ h.fields, Unbroken f.2
  field : h.field.Clean

theorem cleared_clean : cleared.Clean :=
  ⟨by simp [cleared],by simp [cleared],FieldLine.cleared_clean⟩

theorem add_clean {h : MessageHeaders} (hh : h.Clean) {f : FieldLine} (hf : f.Clean) :
    (h.add f).Clean := by
  refine ⟨fun g hg => ?_,fun g hg => ?_,FieldLine.cleared_clean⟩
  · rcases List.mem_append.mp hg with hg | hg
    · exact hh.name g hg
    · rw [List.mem_singleton.mp hg]
      exact hf.name
  · rcases List.mem_append.mp hg with hg | hg
    · exact hh.value g hg
    · rw [List.mem_singleton.mp hg]
      exact hf.value

theorem parseFields_clean (h : MessageHeaders) (cs : Bytes) (hh : h.Clean) :
    (h.parseFields cs).2.1.Clean := by
  induction h, cs using MessageHeaders.parseFields.induct with
  | case1 h cs hend =>
    rw [parseFields, if_pos hend]
    exact hh
  | case2 h cs hend hdone ih =>
    rw [parseFields, if_neg hend, if_pos hdone]
    exact ih (add_clean hh (FieldLine.parse_clean hh.field cs))
  | case3 h cs hend hdone =>
    rw [parseFields, if_neg hend, if_neg hdone]
    exact ⟨hh.name,hh.value,FieldLine.parse_clean hh.field cs⟩

theorem parse_clean {h : MessageHeaders} (hh : h.Clean) (cs : Bytes) :
    (h.parse cs).2.1.Clean := by
  have hclean := parseFields_clean h cs hh
  unfold parse
  generalize h.parseFields cs = p at hclean ⊢
  obtain ⟨ok,m,rest⟩ := p
  cases ok with
  | false => exact hclean
  | true =>
    cases rest with
    | nil => exact hclean
    | cons c rest =>
      dsimp only
      split
      · exact ⟨hclean.name,hclean.value,hclean.field⟩
      · exact hclean

end MessageHeaders

namespace RequestLine

structure Clean (l : RequestLine) : Prop where
  method : ∀ c ∈ l.method, isUpper c = true
  uri : ∀ c ∈ l.uri, isEndOfLine c = false ∧ isSpaceOrTab c = false

theorem cleared_clean : cleared.Clean := ⟨by simp [cleared],by simp [cleared]⟩

theorem expect_clean {l : RequestLine} (h : l.Clean) (c want : UInt8) (next : RequestState) :
    (l.expect c want next).2.Clean := by
  unfold expect
  split
  · exact ⟨h.method,h.uri⟩
  · exact h

theorem parseChar_clean {l : RequestLine} (h : l.Clean) (c : UInt8) : (l.parseChar c).2.Clean := by
  unfold parseChar
  split
  · split
    · rename_i hc
      refine ⟨fun d hd => ?_,h.uri⟩
      rcases List.mem_append.mp hd with hd | hd
      · exact h.method d hd
      · rwa [List.mem_singleton.mp hd]
    · split
      · exact ⟨h.method,h.uri⟩
      · exact h
  · split
    · exact h
    · rename_i hline
      split
      · split
        · exact ⟨h.method,h.uri⟩
        · exact h
      · rename_i hblank
        refine ⟨h.method,fun d hd => ?_⟩
        rcases List.mem_append.mp hd with hd | hd
        · exact h.uri d hd
        · rw [List.mem_singleton.mp hd]
          exact ⟨Bool.eq_false_iff.mpr hline,Bool.eq_false_iff.mpr hblank⟩
  · split
    · exact h
    · exact expect_clean h _ _ _
  · exact expect_clean h _ _ _
  · exact expect_clean h _ _ _
  · exact expect_clean h _ _ _
  · exact expect_clean h _ _ _
  · split
    · exact ⟨h.method,h.uri⟩
    · split
      · exact ⟨h.method,h.uri⟩
      · exact h
  · split
    · exact ⟨h.method,h.uri⟩
    · split
      · exact ⟨h.method,h.uri⟩
      · exact h
  · exact expect_clean h _ _ _
  · exact h

theorem parse_clean {l : RequestLine} (h : l.Clean) (cs : Bytes) : (l.parse cs).2.1.Clean := by
  induction cs generalizing l with
  | nil => exact ⟨h.method,h.uri⟩
  | cons c cs ih =>
    have hchar := parseChar_clean h c
    rw [parse]
    split
    · exact ⟨h.method,h.uri⟩
    · split
      · exact ih ⟨hchar.method,hchar.uri⟩
      · exact ⟨hchar.method,hchar.uri⟩

end RequestLine

namespace RxRequest

structure Clean (r : RxRequest) : Prop where
  line : r.line.Clean
  headers : r.headers.Clean

theorem cleared_clean : cleared.Clean := ⟨RequestLine.cleared_clean,MessageHeaders.cleared_clean⟩

theorem parse_clean {r : RxRequest} (h : r.Clean) (cs : Bytes) : (r.parse cs).2.1.Clean := by
  have hheaders {q : RxRequest} (hq : q.Clean) (bs : Bytes) : (q.parseHeaders bs).2.1.Clean := by
    unfold parseHeaders
    split
    · exact ⟨hq.line,hq.headers⟩
    · exact ⟨hq.line,MessageHeaders.parse_clean hq.headers bs⟩
  have hline := RequestLine.parse_clean h.line cs
  unfold parse
  split
  · exact hheaders h cs
  · dsimp only
    have hread : RxRequest.Clean { r with line := (r.line.parse cs).2.1 } := ⟨hline,h.headers⟩
    split
    · exact hheaders hread _
    · exact hread

end RxRequest

namespace ChunkHeader

structure Clean (h : ChunkHeader) : Prop where
  hexSize : ∀ c ∈ h.hexSize, isXDigit c = true
  extension : Unbroken h.extension

theorem cleared_clean : cleared.Clean := ⟨by simp [cleared],by simp [cleared, Unbroken]⟩

variable {h : ChunkHeader} (hh : h.Clean)
include hh

theorem parseSize_clean (c : UInt8) : (h.parseSize c).2.Clean := by
  unfold parseSize
  dsimp only
  split
  · rename_i hc
    refine ⟨fun d hd => ?_,hh.extension⟩
    rcases List.mem_append.mp hd with hd | hd
    · exact hh.hexSize d hd
    · rwa [List.mem_singleton.mp hd]
  · split
    · exact ⟨hh.hexSize,hh.extension⟩
    · exact ⟨hh.hexSize,hh.extension⟩

theorem parseExtension_clean (c : UInt8) : (h.parseExtension c).Clean := by
  unfold parseExtension
  cases hc : isEndOfLine c with
  | false => exact ⟨hh.hexSize,unbroken_concat hh.extension hc⟩
  | true =>
    simp only [Bool.not_true, Bool.false_eq_true, if_false]
    split
    · exact ⟨hh.hexSize,hh.extension⟩
    · exact ⟨hh.hexSize,hh.extension⟩

theorem parseChar_clean (c : UInt8) : (h.parseChar c).2.Clean := by
  unfold parseChar
  split
  · split
    · exact hh
    · exact parseSize_clean hh c
  · exact parseSize_clean hh c
  · split
    · exact hh
    · exact parseExtension_clean hh c
  · exact parseExtension_clean hh c
  · split
    · exact ⟨hh.hexSize,hh.extension⟩
    · exact hh
  · exact hh

theorem parse_clean (cs : Bytes) : (h.parse cs).2.1.Clean := by
  induction cs generalizing h with
  | nil => exact ⟨hh.hexSize,hh.extension⟩
  | cons c cs ih =>
    have hchar := parseChar_clean hh c
    rw [parse]
    split
    · exact ⟨hh.hexSize,hh.extension⟩
    · split
      · exact ih hchar
      · exact hchar

end ChunkHeader

namespace RxChunk

structure Clean (k : RxChunk) : Prop where
  header : k.header.Clean
  trailers : k.trailers.Clean
  empty : k.header.valid = false → k.data = []
  data : k.data.length ≤ k.header.size

theorem cleared_clean : cleared.Clean :=
  ⟨ChunkHeader.cleared_clean,MessageHeaders.cleared_clean,fun _ => rfl,Nat.zero_le _⟩

theorem parseContent_clean {k : RxChunk} (h : k.Clean) (hv : k.header.valid = true) (cs : Bytes) :
    (k.parseContent cs).2.1.Clean := by
  have hdata : (k.data++cs.take (k.header.size-k.data.length)).length ≤ k.header.size := by
    have hlength := h.data
    rw [List.length_append, List.length_take]
    omega
  have hclean (v : Bool) : RxChunk.Clean { k with
      data := k.data++cs.take (k.header.size-k.data.length), valid := v } :=
    ⟨h.header,h.trailers,fun hf => absurd (hv.symm.trans hf) (by simp),hdata⟩
  unfold parseContent
  dsimp only
  split
  · exact ⟨h.header,MessageHeaders.parse_clean h.trailers cs,h.empty,h.data⟩
  · split
    · exact hclean k.valid
    · split
      · exact hclean true
      · exact hclean k.valid

theorem parse_clean {k : RxChunk} (h : k.Clean) (cs : Bytes) : (k.parse cs).2.1.Clean := by
  have hheader := ChunkHeader.parse_clean h.header cs
  unfold parse
  dsimp only
  cases hv : k.header.valid with
  | true =>
    rw [if_pos rfl]
    exact parseContent_clean h hv cs
  | false =>
    have hvalid := header_valid k.header hv cs
    have hread : RxChunk.Clean { k with header := (k.header.parse cs).2.1 } :=
      ⟨hheader,h.trailers,fun _ => h.empty hv,by rw [h.empty hv]; exact Nat.zero_le _⟩
    rw [if_neg (by simp)]
    cases hd : (k.header.parse cs).1 with
    | true => exact parseContent_clean hread (hvalid.trans hd) _
    | false => exact hread

end RxChunk

namespace RequestReceiver

/-- A body is held for a request only, and one without chunks is no longer than
its length. A length that no `long` can hold is never begun. -/
structure Clean (rx : RequestReceiver) : Prop where
  request : rx.request.Clean
  chunk : rx.chunk.Clean
  idle : rx.request.valid = false → rx.body = []
  body : rx.request.valid = true → rx.request.shown.isChunked = false →
    rx.body.length ≤ rx.request.shown.contentLength ∧
      (2^63 ≤ rx.request.shown.contentLength → rx.body = [])

theorem cleared_clean : cleared.Clean :=
  ⟨RxRequest.cleared_clean,RxChunk.cleared_clean,fun _ => rfl,fun h => absurd h (by decide)⟩

theorem contentLength_le (r : Http.RxRequest) : r.contentLength ≤ Http.ulongMax := by
  unfold Http.RxRequest.contentLength Http.fromDecString
  split
  · exact Nat.zero_le _
  · split
    · exact Nat.min_le_right _ _
    · exact Nat.le_refl _

/-- What is missing of a body is negative exactly when its length does not fit a
`long`. -/
theorem clean_required {rx : RequestReceiver} (h : rx.Clean) (hv : rx.request.valid = true)
    (hc : rx.request.shown.isChunked = false) :
    required rx.request.shown.contentLength rx.body < 0 ↔
      2^63 ≤ rx.request.shown.contentLength := by
  obtain ⟨hbody,hlarge⟩ := h.body hv hc
  have hmax := contentLength_le rx.request.shown
  rw [Http.ulongMax] at hmax
  by_cases hfit : rx.request.shown.contentLength < 2^63
  · rw [required, Int.bmod_eq_of_le (by omega) (by omega)]
    omega
  · rw [required, hlarge (by omega), List.length_nil, ← Int.sub_bmod_right,
      Int.bmod_eq_of_le (by omega) (by omega)]
    omega

theorem extended_length {length : ℕ} {body : Bytes} (hb : body.length ≤ length)
    (hn : length < 2^63) (cs : Bytes) : (extended length body cs).length ≤ length := by
  have hrequired : required length body = (length : ℤ)-body.length := by
    rw [required, Int.bmod_eq_of_le (by omega) (by omega)]
  rw [extended, List.length_append, hrequired]
  split
  · rw [List.length_take]
    omega
  · omega

theorem translated_clean {r : RxRequest} (h : r.Clean) : r.translated.Clean := by
  refine ⟨⟨?_,h.line.uri⟩,h.headers⟩
  change ∀ c ∈ r.shown.translated.method, isUpper c = true
  unfold Http.RxRequest.translated
  split
  · have hget : ∀ c ∈ ascii "GET", isUpper c = true := List.all_eq_true.mp (by decide)
    exact hget
  · exact h.line.method

theorem receiveBody_clean {rx : RequestReceiver} (h : rx.Clean) (hv : rx.request.valid = true)
    (hc : rx.request.shown.isChunked = false) (cs : Bytes) : (rx.receiveBody cs).2.Clean := by
  have hrequired := clean_required h hv hc
  unfold receiveBody
  rcases takeBody_cases rx.request.shown.contentLength
    (rx.request.shown.find (ascii "content-length")) rx.body cs with
    ht | ht | ⟨-,ht⟩ | ⟨hfits,ht⟩
  · rw [ht]
    exact cleared_clean
  · rw [ht]
    exact cleared_clean
  · rw [ht]
    exact h
  · have hlength := extended_length (h.body hv hc).1 (by omega) cs
    have hbody : (extended rx.request.shown.contentLength rx.body cs).length ≤
          rx.request.shown.contentLength ∧ (2^63 ≤ rx.request.shown.contentLength →
            extended rx.request.shown.contentLength rx.body cs = []) :=
      ⟨hlength,fun hf => absurd hf (by omega)⟩
    rw [ht]
    generalize extended rx.request.shown.contentLength rx.body cs = b at hbody ⊢
    have hidle (hf : rx.request.valid = false) : b = [] := absurd (hv.symm.trans hf) (by simp)
    by_cases hall : b.length = rx.request.shown.contentLength
    · rw [if_pos hall]
      exact ⟨translated_clean h.request,h.chunk,hidle,fun _ _ => hbody⟩
    · rw [if_neg hall]
      exact ⟨h.request,h.chunk,hidle,fun _ _ => hbody⟩

theorem next_clean {k : RxChunk} (h : k.Clean) : k.next.Clean := by
  unfold RxChunk.next
  split
  · exact RxChunk.cleared_clean
  · exact h

/-- A chunk changes nothing of the request, and no exception comes of it. -/
theorem receiveChunkWith_cases (rx : RequestReceiver) (c parsed : Bool) (cs : Bytes) :
    rx.receiveChunkWith c parsed cs = (.invalid,cleared) ∨
      ∃ s b, s ≠ .thrown ∧ rx.receiveChunkWith c parsed cs =
        (s,{ rx with chunk := (rx.chunk.next.parse cs).2.1, body := b }) := by
  have hheld {s : RxState} (hs : s ≠ .thrown) (b : Bytes) :
      ∃ t d, t ≠ .thrown ∧ (s,{ rx with chunk := (rx.chunk.next.parse cs).2.1, body := b }) =
        (t,{ rx with chunk := (rx.chunk.next.parse cs).2.1, body := d }) := ⟨s,b,hs,rfl⟩
  unfold receiveChunkWith
  dsimp only
  split
  · exact .inl rfl
  · right
    split
    · exact hheld (by simp) rx.body
    · split
      · exact hheld (by simp) rx.body
      · split
        · split
          · split
            · exact hheld (by simp) rx.body
            · exact hheld (by simp) _
          · exact hheld (by simp) rx.body
        · exact hheld (by simp) rx.body

theorem receiveContentWith_clean {rx : RequestReceiver} (h : rx.Clean)
    (hv : rx.request.valid = true) (c parsed : Bool) (cs : Bytes) :
    (rx.receiveContentWith c parsed cs).2.Clean := by
  unfold receiveContentWith
  cases hc : rx.request.shown.isChunked with
  | false =>
    rw [if_neg (by simp)]
    exact receiveBody_clean h hv hc cs
  | true =>
    have hchunk := RxChunk.parse_clean (next_clean h.chunk) cs
    have hnext (b : Bytes) : Clean { rx with chunk := (rx.chunk.next.parse cs).2.1, body := b } :=
      ⟨h.request,hchunk,fun hf => absurd (hv.symm.trans hf) (by simp),
        fun _ hf => absurd (hc.symm.trans hf) (by simp)⟩
    rw [if_pos rfl]
    rcases rx.receiveChunkWith_cases c parsed cs with hbad | ⟨s,b,-,hheld⟩
    · rw [hbad]
      exact cleared_clean
    · rw [hheld]
      exact hnext b

theorem parsed_clean {rx : RequestReceiver} (h : rx.Clean) (hv : rx.request.valid = false)
    (cs : Bytes) : Clean { rx with request := (rx.request.parse cs).2.1 } := by
  have hempty := h.idle hv
  exact ⟨RxRequest.parse_clean h.request cs,h.chunk,fun _ => hempty,
    fun _ _ => ⟨by simp [hempty],fun _ => hempty⟩⟩

theorem receiveWith_clean {rx : RequestReceiver} (h : rx.Clean) (c : Bool) (cs : Bytes) :
    (rx.receiveWith c cs).2.Clean := by
  unfold receiveWith
  cases hv : rx.request.valid with
  | true =>
    rw [if_pos rfl]
    exact receiveContentWith_clean h hv c false cs
  | false =>
    have hvalid := rx.request.parse_valid cs
    rw [hv, Bool.false_or] at hvalid
    have hnext := parsed_clean h hv cs
    rw [if_neg (by simp)]
    dsimp only
    cases hd : (rx.request.parse cs).1 with
    | true =>
      rw [if_pos rfl]
      exact receiveContentWith_clean hnext (hvalid.trans hd) c true _
    | false =>
      rw [if_neg (by simp)]
      split
      · exact cleared_clean
      · exact hnext

theorem react_clean {rx : RequestReceiver} (h : rx.Clean) (c : Bool) (e : Event) :
    (rx.react c e).2.Clean := by
  cases e with
  | packet cs => exact receiveWith_clean h c cs
  | continueSent => exact ⟨h.request,h.chunk,h.idle,h.body⟩
  | clear => exact cleared_clean

theorem final_clean (c : Bool) (es : List Event) : (final (react c) cleared es).Clean := by
  induction es using List.reverseRecOn with
  | nil => exact cleared_clean
  | append_singleton es e ih =>
    rw [final_concat]
    exact react_clean ih c e

/-- What is held of a request is free of what would end its line or its field. -/
theorem held_text (c : Bool) (es : List Event) :
    let rx := final (react c) cleared es
    (∀ b ∈ rx.request.line.method, isUpper b = true) ∧
      (∀ b ∈ rx.request.line.uri, isEndOfLine b = false ∧ isSpaceOrTab b = false) ∧
      (∀ f ∈ rx.request.headers.fields ++ rx.chunk.trailers.fields,
        (∀ b ∈ f.1, isNamed b = true) ∧ ∀ b ∈ f.2, isEndOfLine b = false) ∧
      rx.chunk.data.length ≤ rx.chunk.header.size ∧
      (rx.request.valid = true → rx.request.shown.isChunked = false →
        rx.body.length ≤ rx.request.shown.contentLength) := by
  intro rx
  have h : rx.Clean := final_clean c es
  refine ⟨h.request.line.method,h.request.line.uri,fun f hf => ?_,h.chunk.data,
    fun hv hc => (h.body hv hc).1⟩
  rcases List.mem_append.mp hf with hf | hf
  · exact ⟨h.request.headers.name f hf,h.request.headers.value f hf⟩
  · exact ⟨h.chunk.trailers.name f hf,h.chunk.trailers.value f hf⟩

def awaits (rx : RequestReceiver) : Bool := rx.request.valid && !rx.request.shown.isChunked

/-- The receiver has come to await a body whose length does not fit a `long`. -/
def Overlong (rx : RequestReceiver) : Prop :=
  rx.awaits = true ∧ 2^63 ≤ rx.request.shown.contentLength

/-- An exception leaves exactly what is overlong, and it has nothing of the body. -/
def ThrowsIff (e : RxState × RequestReceiver) : Prop :=
  (e.1 = .thrown ↔ e.2.Overlong) ∧ (e.1 = .thrown → e.2.body = [])

theorem throws_never {e : RxState × RequestReceiver} (hs : e.1 ≠ .thrown)
    (ha : ¬ e.2.Overlong) : ThrowsIff e :=
  ⟨⟨fun h => absurd h hs,fun h => absurd h ha⟩,fun h => absurd h hs⟩

theorem cleared_awaits : ¬ cleared.Overlong := fun h => absurd h.1 (by decide)

theorem body_throws {rx : RequestReceiver} (h : rx.Clean) (hv : rx.request.valid = true)
    (hc : rx.request.shown.isChunked = false) (cs : Bytes) : ThrowsIff (rx.receiveBody cs) := by
  have hrequired := clean_required h hv hc
  unfold receiveBody
  rcases takeBody_cases rx.request.shown.contentLength
    (rx.request.shown.find (ascii "content-length")) rx.body cs with
    ht | ht | ⟨hneg,ht⟩ | ⟨hfits,ht⟩
  · rw [ht]
    exact throws_never (by simp [settled]) cleared_awaits
  · rw [ht]
    exact throws_never (by simp [settled]) cleared_awaits
  · have hlong := hrequired.mp hneg
    rw [ht]
    exact ⟨⟨fun _ => ⟨by simp [settled, awaits, hv, hc],hlong⟩,fun _ => rfl⟩,
      fun _ => (h.body hv hc).2 hlong⟩
  · have hfit : ¬ 2^63 ≤ rx.request.shown.contentLength := fun hlong =>
      absurd (hrequired.mpr hlong) (not_lt.mpr hfits)
    rw [ht]
    split
    · exact throws_never (by simp [settled]) fun hlong => hfit hlong.2
    · exact throws_never (by simp [settled]) fun hlong => hfit hlong.2

theorem chunk_throws {rx : RequestReceiver} (hc : rx.request.shown.isChunked = true)
    (c parsed : Bool) (cs : Bytes) : ThrowsIff (rx.receiveChunkWith c parsed cs) := by
  rcases rx.receiveChunkWith_cases c parsed cs with hbad | ⟨s,b,hs,hheld⟩
  · rw [hbad]
    exact throws_never (by simp) cleared_awaits
  · rw [hheld]
    exact throws_never hs fun hlong => by simp [Overlong, awaits, hc] at hlong

theorem content_throws {rx : RequestReceiver} (h : rx.Clean) (hv : rx.request.valid = true)
    (c parsed : Bool) (cs : Bytes) : ThrowsIff (rx.receiveContentWith c parsed cs) := by
  unfold receiveContentWith
  split
  · rename_i hc
    exact chunk_throws hc c parsed cs
  · rename_i hc
    exact body_throws h hv (by simpa using hc) cs

theorem receive_throws {rx : RequestReceiver} (h : rx.Clean) (c : Bool) (cs : Bytes) :
    ThrowsIff (rx.receiveWith c cs) := by
  unfold receiveWith
  cases hv : rx.request.valid with
  | true =>
    rw [if_pos rfl]
    exact content_throws h hv c false cs
  | false =>
    have hvalid := rx.request.parse_valid cs
    rw [hv, Bool.false_or] at hvalid
    rw [if_neg (by simp)]
    dsimp only
    cases hd : (rx.request.parse cs).1 with
    | true =>
      rw [if_pos rfl]
      exact content_throws (parsed_clean h hv cs) (hvalid.trans hd) c true _
    | false =>
      rw [if_neg (by simp)]
      split
      · exact throws_never (by simp) cleared_awaits
      · exact throws_never (by simp) fun hlong => by simp [Overlong, awaits, hvalid, hd] at hlong

/-- On every run an exception leaves the receiver with a packet exactly when it
comes to await a body whose length does not fit a `long`. Nothing of the body is
taken then. -/
theorem thrown_iff (c : Bool) (es : List Event) (cs : Bytes) :
    let e := (final (react c) cleared es).receiveWith c cs
    (e.1 = .thrown ↔ e.2.awaits = true ∧ 2^63 ≤ e.2.request.shown.contentLength) ∧
      (e.1 = .thrown → e.2.body = []) :=
  receive_throws (final_clean c es) c cs

theorem find_digit {h : MessageHeaders} (hc : h.Clean) {name : Bytes}
    (hn : ¬ name.all isNamed = true) : h.find name = [] := by
  have hnone : h.fields.lookup name = none := by
    rw [List.lookup_eq_none_iff]
    intro f hf
    rw [bne_iff_ne]
    rintro rfl
    exact hn (List.all_eq_true.mpr (hc.name f hf))
  rw [MessageHeaders.find, hnone]
  rfl

theorem content_nothing (r : RxRequest) (c : Bool) (hl : r.headers.contentLength ≠ Http.ulongMax) :
    ((bearing r []).receiveContentWith c true []).2.request.headers = r.headers := by
  unfold receiveContentWith
  cases hc : r.headers.isChunked with
  | true =>
    rw [show (bearing r []).request.shown.isChunked = true from hc, if_pos rfl]
    have hnone : (bearing r []).chunk.next.parse [] = (false,RxChunk.cleared,[]) := rfl
    unfold receiveChunkWith
    rw [hnone]
    dsimp only
    rw [if_neg (by simp)]
    split
    · rfl
    · split
      · rfl
      · rfl
  | false =>
    have hlength : (bearing r []).request.shown.contentLength ≠ Http.ulongMax := hl
    rw [show (bearing r []).request.shown.isChunked = false from hc, if_neg (by simp), receiveBody,
      takeBody, if_neg hlength, if_neg (by simp)]
    split
    · rfl
    · by_cases hall : (extended (bearing r []).request.shown.contentLength (bearing r []).body
          []).length = (bearing r []).request.shown.contentLength
      · rw [if_pos hall]
        rfl
      · rw [if_neg hall]
        rfl

theorem standardName_read {i : HeaderId} (hi : i ≠ .contentMd5) : i.standardName ≠ [] ∧
    i.standardName.all isToken = true ∧ i.standardName.all Field.plain = true := by
  cases i with
  | contentMd5 => exact absurd rfl hi
  | _ => decide

def plainRequest : TxRequest := ⟨ascii "GET",ascii "/",1,1,[]⟩

def carrying (i : HeaderId) : Bytes :=
  plainRequest.lineText ++ fieldsText [⟨i.standardName,32::ascii "0"⟩]

theorem carrying_held (c : Bool) {i : HeaderId} (hi : i ≠ .contentMd5) :
    (final (react c) cleared [.packet (carrying i)]).request.headers.fields =
      [(i.lowercaseName,ascii "0")] := by
  obtain ⟨hne,htoken,hplain⟩ := standardName_read hi
  let f : Field := ⟨i.standardName,32::ascii "0"⟩
  have hwell : f.WellFormed := by
    refine ⟨hne,List.all_eq_true.mp htoken,?_⟩
    have hcontent : (32::ascii "0").all (fun c => !isEndOfLine c) = true := by decide
    simpa [f] using hcontent
  have hkept : f.kept = (i.lowercaseName,ascii "0") := by
    rw [Prod.ext_iff, Field.kept_name hplain]
    exact ⟨i.lowercase.symm,rfl⟩
  obtain ⟨h,hfields,hread⟩ := RxRequest.text_whole (r := plainRequest) (by decide)
    (List.forall_mem_singleton.mpr hwell) (List.forall_mem_singleton.mpr hplain) []
  rw [List.append_nil] at hread
  rw [List.map_singleton, hkept] at hfields
  have hfind : h.find HeaderId.contentLength.lowercaseName =
      if HeaderId.contentLength.lowercaseName = i.lowercaseName then ascii "0" else [] := by
    rw [MessageHeaders.find, hfields, List.lookup_cons]
    by_cases heq : HeaderId.contentLength.lowercaseName = i.lowercaseName
    · simp [heq]
    · rw [beq_false_of_ne heq, if_neg heq]
      rfl
  have hlength : h.contentLength ≠ Http.ulongMax := by
    rw [MessageHeaders.contentLength, hfind]
    split <;> split <;> decide
  have hreceive : cleared.react c (.packet (carrying i)) =
      (bearing ⟨plainRequest.complete.closed,h,true⟩ []).receiveContentWith c true [] := by
    have hidle : cleared.request.valid = false := rfl
    change cleared.request.parse (carrying i) = _ at hread
    rw [react, receiveWith, hidle, if_neg (by simp)]
    simp only [hread, if_true]
    rfl
  rw [final, final, hreceive, content_nothing _ c hlength]
  exact hfields

/-- Of the headers that have a name in the table all but Content-MD5 can be
found in a request. -/
theorem findable_iff (c : Bool) (i : HeaderId) :
    (∃ es, (final (react c) cleared es).request.headers.find i.lowercaseName ≠ []) ↔
      i ≠ .contentMd5 := by
  constructor
  · rintro ⟨es,hes⟩ rfl
    exact hes (find_digit (final_clean c es).request.headers (by decide))
  · intro hi
    refine ⟨[.packet (carrying i)],?_⟩
    rw [MessageHeaders.find, carrying_held c hi, List.lookup_cons_self]
    decide

end RequestReceiver

end RethinkLog.Via
