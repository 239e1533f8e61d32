import RethinkLog.Incremental
import RethinkLog.MessageText

/-!
# Chunks in packets

A chunk that is sent is read back from whatever packets it comes in: its
header byte by byte, its data as much as a packet has, and its line end. The
last chunk is read back as well when it has no trailers.
-/

set_option autoImplicit false

namespace RethinkLog.Via
open Incremental

namespace ChunkHeader

def IsDone (h : ChunkHeader) : Prop := h.state = .chunkEnd

def closed (h : ChunkHeader) : ChunkHeader := { h with valid := true }

theorem parseChar_valid (h : ChunkHeader) (c : UInt8) : (h.parseChar c).2.valid = h.valid := by
  unfold parseChar parseSize parseExtension
  dsimp only
  split <;> (repeat' split) <;> rfl

theorem parse_loop : Loop parse IsDone parseChar (fun h => h.valid = false) closed where
  nil := by
    rintro ⟨n,hex,ext,s,r,v⟩ hv hd
    obtain rfl : v = false := hv
    simp [parse, show s ≠ .chunkEnd from hd]
  cons := by
    intro h c cs hv hd ht
    rw [parse, if_neg (show ¬ h.state = .chunkEnd from hd), if_pos ht]
  done := by
    intro h cs hv hd
    cases cs with
    | nil => simp [parse, closed, show h.state = .chunkEnd from hd]
    | cons c cs => simp [parse, closed, show h.state = .chunkEnd from hd]
  keeps := fun h c hv _ => (parseChar_valid h c).trans hv

def sizing (hex : Bytes) : ChunkHeader := ⟨0,hex,[],.chunkSize,false,false⟩

def extending (n : ℕ) (hex ext : Bytes) (s : ChunkState) : ChunkHeader := ⟨n,hex,ext,s,true,false⟩

def complete (n : ℕ) (hex ext : Bytes) : ChunkHeader := ⟨n,hex,ext,.chunkEnd,true,true⟩

end ChunkHeader

structure Extends (extension : Bytes) : Prop where
  line : ∀ c ∈ extension, isEndOfLine c = false
  blank : extension.head?.any isSpaceOrTab = false

instance (extension : Bytes) : Decidable (Extends extension) :=
  decidable_of_iff (extension.all (fun c => !isEndOfLine c) = true ∧
      extension.head?.any isSpaceOrTab = false) <| by
    simp only [List.all_eq_true, Bool.not_eq_true']
    exact ⟨fun h => ⟨h.1,h.2⟩,fun h => ⟨h.line,h.blank⟩⟩

namespace ChunkHeader

theorem xDigit_plain {c : UInt8} (h : isXDigit c = true) : isSpaceOrTab c = false := by
  rcases Bool.eq_false_or_eq_true (isSpaceOrTab c) with hb | hb
  · simp only [isSpaceOrTab, Bool.or_eq_true, decide_eq_true_eq] at hb
    rcases hb with rfl | rfl <;> exact absurd h (by decide)
  · exact hb

theorem size_takes (hex : Bytes) (hne : hex ≠ []) (h : ∀ c ∈ hex, isXDigit c = true) :
    Takes IsDone parseChar cleared hex (sizing hex) := by
  cases hex with
  | nil => exact absurd rfl hne
  | cons c hex =>
    have hc := h c (by simp)
    have hfirst : cleared.parseChar c = (true,sizing [c]) := by
      simp [parseChar, cleared, parseSize, sizing, hc, xDigit_plain hc]
    have hrest : Takes IsDone parseChar (sizing [c]) hex (sizing ([c]++hex)) :=
      Takes.repeat sizing (by simp [IsDone, sizing]) [c] fun d hd v => by
        simp [parseChar, parseSize, sizing, h d (by simp [hd])]
    exact .next (by simp [IsDone, cleared]) hfirst hrest

theorem extension_takes (n : ℕ) (hex ext : Bytes) (h : Extends ext) :
    ∃ s : ChunkState, (s = .chunkExtensionLS ∨ s = .chunkExtension) ∧
      Takes IsDone parseChar (extending n hex [] .chunkExtensionLS) ext
        (extending n hex ext s) := by
  cases ext with
  | nil => exact ⟨_,Or.inl rfl,.nil _⟩
  | cons c ext =>
    have hline := h.line c (by simp)
    have hblank : isSpaceOrTab c = false := h.blank
    have hfirst : (extending n hex [] .chunkExtensionLS).parseChar c =
        (true,extending n hex [c] .chunkExtension) := by
      simp [parseChar, parseExtension, extending, hline, hblank]
    have hrest : Takes IsDone parseChar (extending n hex [c] .chunkExtension) ext
        (extending n hex ([c]++ext) .chunkExtension) :=
      Takes.repeat (fun v => extending n hex v .chunkExtension) (by simp [IsDone, extending]) [c]
        fun d hd v => by
          simp [parseChar, parseExtension, extending, h.line d (by simp [hd])]
    exact ⟨_,Or.inr rfl,.next (by simp [IsDone, extending]) hfirst hrest⟩

theorem extension_ends (n : ℕ) (hex ext : Bytes) {s : ChunkState}
    (h : s = .chunkExtensionLS ∨ s = .chunkExtension) :
    Takes IsDone parseChar (extending n hex ext s) crlf (extending n hex ext .chunkEnd) := by
  have hreturn : (extending n hex ext s).parseChar 13 = (true,extending n hex ext .chunkLF) := by
    rcases h with rfl | rfl <;> rfl
  refine .next (by rcases h with rfl | rfl <;> simp [IsDone, extending]) hreturn ?_
  exact .next (by simp [IsDone, extending]) rfl (.nil _)

theorem header_takes (n : ℕ) (hn : n ≤ Http.ulongMax) (ext : Bytes) (h : Extends ext)
    (hex : Bytes) (hhex : hex = toHexString n) :
    Takes IsDone parseChar cleared (hex ++ extensionText ext ++ crlf)
      (extending n hex ext .chunkEnd) := by
  have hvalue : fromHexString hex = n := by rw [hhex, fromHexString_toHexString n hn]
  have hsize := size_takes hex (hhex ▸ toHexString_ne_nil n) (hhex ▸ toHexString_digits n)
  rw [List.append_assoc]
  refine hsize.trans ?_
  by_cases he : ext = []
  · subst he
    have hreturn : (sizing hex).parseChar 13 = (true,extending n hex [] .chunkLF) := by
      rw [← hvalue]
      rfl
    exact .next (by simp [IsDone, sizing]) hreturn
      (.next (by simp [IsDone, extending]) rfl (.nil _))
  · have hcolon : (sizing hex).parseChar 59 = (true,extending n hex [] .chunkExtensionLS) := by
      rw [← hvalue]
      rfl
    obtain ⟨s,hs,htext⟩ := extension_takes n hex ext h
    rw [extensionText, if_pos he]
    exact .next (by simp [IsDone, sizing]) hcolon
      (.next (by simp [IsDone, extending]) rfl (htext.trans (extension_ends n hex ext hs)))

theorem header_seamless (n : ℕ) (hn : n ≤ Http.ulongMax) (ext : Bytes) (h : Extends ext) :
    Seamless parse (complete n (toHexString n) ext) cleared (encode n ext).text :=
  parse_loop.seamless rfl (header_takes n hn ext h _ rfl) rfl

end ChunkHeader

namespace RxChunk

def parseHeader (k : RxChunk) (cs : Bytes) : Parsed RxChunk :=
  ((k.header.parse cs).1,{ k with header := (k.header.parse cs).2.1 },(k.header.parse cs).2.2)

theorem parse_eq : parse = andThen (fun k => k.header.valid) parseHeader parseContent := by
  funext k cs
  unfold parse andThen parseHeader
  dsimp only
  split
  · rfl
  · cases hp : (k.header.parse cs).1 <;> rfl

theorem header_valid (h : ChunkHeader) (hv : h.valid = false) (cs : Bytes) :
    (h.parse cs).2.1.valid = (h.parse cs).1 := by
  induction cs generalizing h with
  | nil => rfl
  | cons c cs ih =>
    have hchar := (ChunkHeader.parseChar_valid h c).trans hv
    rw [ChunkHeader.parse]
    split
    · rfl
    · split
      · exact ih _ hchar
      · exact hchar

theorem content_header (k : RxChunk) (cs : Bytes) :
    (k.parseContent cs).2.1.header = k.header := by
  unfold parseContent
  dsimp only
  split
  · rfl
  · split
    · rfl
    · split <;> rfl

def filling (h : ChunkHeader) (data : Bytes) : RxChunk := ⟨h,data,.cleared,false⟩

theorem chunk_seamless {h : ChunkHeader} {k : RxChunk} {w v : Bytes} (hv : h.valid = true)
    (hheader : Seamless ChunkHeader.parse h .cleared w)
    (hidle : (filling h []).parseContent [] = (false,filling h [],[]))
    (hcontent : Seamless parseContent k (filling h []) v) (hne : v ≠ []) :
    Seamless parse k cleared (w++v) := by
  rw [parse_eq]
  refine Seamless.andThen ?_ ?_ rfl hv hidle ?_ hcontent hne
  · exact fun k cs hr hf => (header_valid k.header hr cs).trans hf
  · exact fun k cs hr => (congrArg ChunkHeader.valid (content_header k cs)).trans hr
  · exact Seamless.within (k := cleared) (fun k => k.header) (fun k h => { k with header := h })
      (fun _ _ => rfl) (fun _ _ _ => rfl) (fun _ _ => rfl) hheader

theorem content_part (h : ChunkHeader) (v u w : Bytes) (hn : h.size ≠ 0)
    (hsize : h.size = (v++u++w).length) :
    (filling h v).parseContent u = (false,filling h (v++u),[]) := by
  have hlast : h.isLast = false := by simp [ChunkHeader.isLast, hn]
  have hrequired : u.length ≤ h.size-v.length := by
    rw [hsize]
    simp
  simp [parseContent, filling, hlast, List.take_of_length_le hrequired,
    List.drop_of_length_le hrequired]

theorem content_whole (h : ChunkHeader) (v u rest : Bytes) (hn : h.size ≠ 0)
    (hsize : h.size = (v++u).length) :
    (filling h v).parseContent (u++13::10::rest) =
      (true,⟨h,v++u,.cleared,true⟩,rest) := by
  have hlast : h.isLast = false := by simp [ChunkHeader.isLast, hn]
  have hrequired : h.size-v.length = u.length := by
    rw [hsize]
    simp
  simp [parseContent, filling, hlast, hrequired, MessageHeaders.afterReturn]

/-- What is left of the data and the line end, or only the line feed. -/
def Remains (h : ChunkHeader) (data : Bytes) (k : RxChunk) (w : Bytes) : Prop :=
  (∃ v u, data = v++u ∧ k = filling h v ∧ w = u++crlf) ∨ (k = filling h data ∧ w = [10])

theorem content_seamless (h : ChunkHeader) (data : Bytes) (hn : h.size ≠ 0)
    (hsize : h.size = data.length) :
    Seamless parseContent ⟨h,data,.cleared,true⟩ (filling h []) (data++crlf) := by
  have hlast : h.isLast = false := by simp [ChunkHeader.isLast, hn]
  refine seamless_of (Remains h data) ?_ ?_ (Or.inl ⟨[],data,rfl,rfl,rfl⟩)
  · rintro k w (⟨v,u,rfl,rfl,rfl⟩ | ⟨rfl,rfl⟩) rest
    · rw [List.append_assoc]
      exact content_whole h v u rest hn hsize
    · simp [parseContent, filling, hlast, hsize, MessageHeaders.afterReturn]
  · rintro k a b (⟨v,u,rfl,rfl,hw⟩ | ⟨rfl,hw⟩) ha hb
    · rcases List.append_eq_append_iff.mp hw with ⟨w,rfl,hcr⟩ | ⟨c,rfl,hcr⟩
      · exact ⟨_,content_part h v a w hn (by rw [hsize, List.append_assoc]),
          Or.inl ⟨v++a,w,by rw [List.append_assoc],rfl,hcr⟩⟩
      · -- The cut is in the line end.
        obtain rfl | ⟨rfl,rfl⟩ : c = [] ∨ (c = [13] ∧ b = [10]) := by
          cases c with
          | nil => exact Or.inl rfl
          | cons x c =>
            obtain ⟨rfl,hrest⟩ := List.cons.inj hcr
            cases c with
            | nil => exact Or.inr ⟨rfl,hrest.symm⟩
            | cons y c =>
              obtain ⟨rfl,hnil⟩ := List.cons.inj hrest
              exact absurd (List.append_eq_nil_iff.mp hnil.symm).2 hb
        · rw [List.append_nil]
          exact ⟨_,content_part h v u [] hn (by rw [hsize, List.append_nil]),
            Or.inl ⟨v++u,[],by simp,rfl,by simpa using hcr.symm⟩⟩
        · refine ⟨filling h (v++u),?_,Or.inr ⟨rfl,rfl⟩⟩
          simp [parseContent, filling, hlast, hsize, MessageHeaders.afterReturn]
    · have hshort : a = [] ∨ b = [] := by
        cases a with
        | nil => exact Or.inl rfl
        | cons x a => exact Or.inr (List.append_eq_nil_iff.mp (List.cons.inj hw).2).2
      rcases hshort with rfl | rfl
      · exact absurd rfl ha
      · exact absurd rfl hb

theorem headers_end (hs : MessageHeaders) (rest : Bytes) :
    hs.parse (10::rest) = (true,{ hs with valid := true },rest) ∧
      hs.parse (13::10::rest) = (true,{ hs with valid := true },rest) ∧
      hs.parse [13] = (false,hs,[]) ∧ hs.parse [] = (false,hs,[]) := by
  refine ⟨?_,?_,?_,?_⟩ <;> simp [MessageHeaders.parse, MessageHeaders.parseFields,
    MessageHeaders.afterReturn, isEndOfLine]

theorem last_seamless (h : ChunkHeader) (hn : h.size = 0) :
    Seamless parseContent ⟨h,[],{ MessageHeaders.cleared with valid := true },true⟩
      (filling h []) crlf := by
  have hlast : h.isLast = true := by simp [ChunkHeader.isLast, hn]
  refine seamless_of (fun k w => k = filling h [] ∧ (w = crlf ∨ w = [10])) ?_ ?_
    ⟨rfl,Or.inl rfl⟩
  · rintro k w ⟨rfl,rfl | rfl⟩ rest
    · obtain ⟨-,hcr,-⟩ := headers_end .cleared rest
      simp [parseContent, filling, hlast, crlf, hcr]
    · obtain ⟨hlf,-⟩ := headers_end .cleared rest
      simp [parseContent, filling, hlast, hlf]
  · rintro k a b ⟨rfl,hw⟩ ha hb
    obtain ⟨rfl,rfl⟩ : a = [13] ∧ b = [10] := by
      rcases a with _ | ⟨x,_ | ⟨y,a⟩⟩
      · exact absurd rfl ha
      · rcases hw with hw | hw
        · obtain ⟨rfl,rfl⟩ := List.cons.inj hw
          exact ⟨rfl,rfl⟩
        · exact absurd (List.cons.inj hw).2 hb
      · rcases hw with hw | hw
        · exact absurd (List.append_eq_nil_iff.mp (List.cons.inj (List.cons.inj hw).2).2).2 hb
        · exact absurd (List.cons.inj hw).2 (by simp)
    obtain ⟨-,-,hwait,-⟩ := headers_end .cleared []
    exact ⟨filling h [],by simp [parseContent, filling, hlast, hwait],rfl,Or.inr rfl⟩

def received (data extension : Bytes) : RxChunk :=
  ⟨.complete data.length (toHexString data.length) extension,data,
    { MessageHeaders.cleared with valid := data.isEmpty },true⟩

/-- What `send_chunk` sends of data, and `last_chunk` without trailers, is read
back from any packets. -/
theorem received_seamless (data extension : Bytes) (hn : data.length ≤ Http.ulongMax)
    (he : Extends extension) : Seamless parse (received data extension) cleared
      (sendChunk data extension) := by
  have hheader := ChunkHeader.header_seamless data.length hn extension he
  rw [sendChunk, List.append_assoc]
  cases data with
  | nil =>
    obtain ⟨-,-,-,hnil⟩ := headers_end .cleared []
    refine chunk_seamless rfl hheader ?_ (last_seamless _ rfl) (by simp [crlf])
    simp [parseContent, filling, ChunkHeader.isLast, ChunkHeader.complete, hnil]
  | cons c data =>
    refine chunk_seamless rfl hheader ?_ (content_seamless _ (c::data) (by
      simp [ChunkHeader.complete]) rfl) (by simp)
    exact content_part _ [] [] (c::data) (by simp [ChunkHeader.complete]) rfl

theorem sendChunk_nil (extension : Bytes) : sendChunk [] extension = lastChunk extension [] := by
  have hzero : toHexString 0 = ascii "0" := by decide
  simp [sendChunk, lastChunk, ChunkHeader.text, ChunkHeader.encode, hzero]

end RxChunk

end RethinkLog.Via
