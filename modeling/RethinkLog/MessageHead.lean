import RethinkLog.HeadBoundaries
import RethinkLog.MessageText
import Mathlib.Data.List.Infix

/-!
# The heads of messages

A message is sent with a line, header fields and an empty line, and is read in
that order, requests and responses alike. A header string that names no length
is completed by one. The fields are read as they were sent exactly when no
packet begins in one of their line ends.
-/

set_option autoImplicit false

namespace RethinkLog.Via
open Incremental

namespace MessageHeaders

def find (h : MessageHeaders) (name : Bytes) : Bytes := (h.fields.lookup name).getD []

def contentLength (h : MessageHeaders) : ℕ :=
  if h.find HeaderId.contentLength.lowercaseName = [] then 0
  else Http.fromDecString (h.find HeaderId.contentLength.lowercaseName)

def isChunked (h : MessageHeaders) : Bool :=
  let encoding := h.find HeaderId.transferEncoding.lowercaseName
  encoding ≠ [] && !Http.contains (ascii "identity") (Http.toLower encoding)

end MessageHeaders

/-- A header string of fields that are read, without a length or a coding of
the body. -/
structure Unsized (headerString : Bytes) (fields : List Field) : Prop where
  text : headerString = fields.flatMap Field.line
  wellFormed : ∀ f ∈ fields, f.WellFormed
  plain : ∀ f ∈ fields, f.name.all Field.plain = true
  noLength : Http.contains HeaderId.contentLength.standardName headerString = false
  noCoding : Http.contains HeaderId.transferEncoding.standardName headerString = false
  length : ∀ f ∈ fields, ¬ f.IsCalled HeaderId.contentLength.lowercaseName
  coding : ∀ f ∈ fields, ¬ f.IsCalled HeaderId.transferEncoding.lowercaseName

instance (headerString : Bytes) (fields : List Field) : Decidable (Unsized headerString fields) :=
  decidable_of_iff (headerString = fields.flatMap Field.line ∧ (∀ f ∈ fields, f.WellFormed) ∧
      (∀ f ∈ fields, f.name.all Field.plain = true) ∧
      Http.contains HeaderId.contentLength.standardName headerString = false ∧
      Http.contains HeaderId.transferEncoding.standardName headerString = false ∧
      (∀ f ∈ fields, ¬ f.IsCalled HeaderId.contentLength.lowercaseName) ∧
      ∀ f ∈ fields, ¬ f.IsCalled HeaderId.transferEncoding.lowercaseName)
    ⟨fun h => ⟨h.1,h.2.1,h.2.2.1,h.2.2.2.1,h.2.2.2.2.1,h.2.2.2.2.2.1,h.2.2.2.2.2.2⟩,
      fun h => ⟨h.text,h.wellFormed,h.plain,h.noLength,h.noCoding,h.length,h.coding⟩⟩

def lengthField (size : ℕ) : Field :=
  ⟨HeaderId.contentLength.standardName,32::toDecString size⟩

theorem header_line (name value : Bytes) :
    toHeader name value = (⟨name,32::value⟩ : Field).line := by
  simp [Field.line, toHeader, show ascii ": " = [58,32] by decide]

def sentFields (fields : List Field) (size : ℕ) : List Field := fields ++ [lengthField size]

theorem toDecString_plain (size : ℕ) {c : UInt8} (hc : c ∈ toDecString size) :
    isEndOfLine c = false ∧ isSpaceOrTab c = false := by
  have hplain (d : UInt8) (hd : ¬ Decimal.IsDigit d) (hm : d ≠ 45) : c ≠ d := by
    rintro rfl
    exact Decimal.integer_plain _ c hd hm hc
  have hreturn := hplain 13 (by decide) (by decide)
  have hfeed := hplain 10 (by decide) (by decide)
  have hspace := hplain 32 (by decide) (by decide)
  have htab := hplain 9 (by decide) (by decide)
  simp [isEndOfLine, isSpaceOrTab, hreturn, hfeed, hspace, htab]

theorem integer_ne_nil (z : ℤ) : Decimal.integer z ≠ [] := by
  cases z with
  | ofNat n => exact Decimal.natural_ne_nil n
  | negSucc n => exact List.cons_ne_nil _ _

theorem toDecString_ne_nil (size : ℕ) : toDecString size ≠ [] := integer_ne_nil _

theorem fromDecString_integer {z : ℤ} (hz : z < 2^63) {n : ℕ} (hn : n < 2^63) :
    Http.fromDecString (Decimal.integer z) = n ↔ z = n := by
  cases z with
  | ofNat m =>
    rw [Int.ofNat_eq_natCast] at hz ⊢
    have hm : m ≤ Http.ulongMax := by
      simp only [Http.ulongMax]
      omega
    rw [show Decimal.integer (m : ℤ) = Decimal.natural m from rfl, fromDecString_natural m hm]
    exact Int.natCast_inj.symm
  | negSucc m =>
    have hsign : ¬ Decimal.IsDigit 45 := by decide
    have hmax : Http.fromDecString (Decimal.integer (.negSucc m)) = Http.ulongMax := by
      simp [Http.fromDecString, Decimal.integer, hsign]
    rw [hmax, Http.ulongMax]
    omega

theorem bmod_small (size : ℕ) : (size : ℤ).bmod (2^32) < 2^63 := by
  have hlt := Int.bmod_lt (x := size) (m := 2^32) (by decide)
  omega

theorem lengthName_plain : HeaderId.contentLength.standardName ≠ [] ∧
    HeaderId.contentLength.standardName.all isToken = true ∧
      HeaderId.contentLength.standardName.all Field.plain = true := by decide

theorem lengthField_wellFormed (size : ℕ) : (lengthField size).WellFormed where
  named := lengthName_plain.1
  name := List.all_eq_true.mp lengthName_plain.2.1
  content := by
    intro c hc
    rcases List.mem_cons.mp hc with rfl | hc
    · decide
    · exact (toDecString_plain size hc).1

theorem lengthField_plain (size : ℕ) : (lengthField size).name.all Field.plain = true :=
  lengthName_plain.2.2

theorem lengthField_kept (size : ℕ) :
    (lengthField size).kept = (HeaderId.contentLength.lowercaseName,toDecString size) := by
  have hname : (HeaderId.contentLength.standardName.filter Field.plain).map Http.lower =
      HeaderId.contentLength.lowercaseName := by decide
  have hvalue : (32::toDecString size).dropWhile isSpaceOrTab = toDecString size := by
    rw [List.dropWhile_cons_of_pos (by decide)]
    cases hd : toDecString size with
    | nil => rfl
    | cons c w =>
      have hc := (toDecString_plain size (c := c) (by simp [hd])).2
      exact List.dropWhile_cons_of_neg (by simp [hc])
  simp [Field.kept, lengthField, hname, hvalue]

theorem Field.kept_name {f : Field} (h : f.name.all Field.plain = true) :
    f.kept.1 = Http.toLower f.name := by
  rw [Field.kept, List.filter_eq_self.mpr (List.all_eq_true.mp h)]
  rfl

namespace Unsized
variable {headerString : Bytes} {fields : List Field} (h : Unsized headerString fields)
include h

theorem headerText_eq (size : ℕ) :
    headerText headerString size = fieldsText (sentFields fields size) := by
  have hadded : (!Http.contains HeaderId.contentLength.standardName headerString &&
      !Http.contains HeaderId.transferEncoding.standardName headerString) = true := by
    simp [h.noLength, h.noCoding]
  rw [headerText, if_pos hadded, h.text, contentLengthHeader, header_line, fieldsText, sentFields,
    List.flatMap_append, List.flatMap_singleton, lengthField]

theorem sent_wellFormed (size : ℕ) : ∀ f ∈ sentFields fields size, f.WellFormed := by
  intro f hf
  rcases List.mem_append.mp hf with hf | hf
  · exact h.wellFormed f hf
  · rw [List.mem_singleton.mp hf]
    exact lengthField_wellFormed size

theorem sent_plain (size : ℕ) : ∀ f ∈ sentFields fields size, f.name.all Field.plain = true := by
  intro f hf
  rcases List.mem_append.mp hf with hf | hf
  · exact h.plain f hf
  · rw [List.mem_singleton.mp hf]
    exact lengthField_plain size

theorem lookup_none {name : Bytes} (hname : ∀ f ∈ fields, ¬ f.IsCalled name) :
    (fields.map Field.kept).lookup name = none := by
  rw [List.lookup_eq_none_iff]
  intro x hx
  obtain ⟨f,hf,rfl⟩ := List.mem_map.mp hx
  have hne := hname f hf
  rw [Field.IsCalled, ← Field.kept_name (h.plain f hf)] at hne
  simpa using fun heq => hne heq.symm

theorem sent_length (size : ℕ) : (((sentFields fields size).map Field.kept).lookup
    HeaderId.contentLength.lowercaseName).getD [] = toDecString size := by
  rw [sentFields, List.map_append, List.lookup_append, h.lookup_none h.length, List.map_singleton,
    lengthField_kept, List.lookup_cons_self, Option.none_or, Option.getD_some]

theorem lookup_prefix {size : ℕ} {kept : List (Bytes × Bytes)}
    (hp : kept <+: (sentFields fields size).map Field.kept)
    (hl : (kept.lookup HeaderId.contentLength.lowercaseName).getD [] = toDecString size) :
    kept = (sentFields fields size).map Field.kept := by
  rw [sentFields, List.map_append, List.map_singleton] at hp ⊢
  rcases List.prefix_concat_iff.mp hp with rfl | hshort
  · rfl
  · have hnone : kept.lookup HeaderId.contentLength.lowercaseName = none := by
      rw [List.lookup_eq_none_iff]
      have hall := List.lookup_eq_none_iff.mp (h.lookup_none h.length)
      exact fun x hx => hall x (hshort.subset hx)
    rw [hnone] at hl
    exact absurd hl.symm (toDecString_ne_nil size)

theorem not_chunked {headers : MessageHeaders} {size : ℕ}
    (hp : headers.fields <+: (sentFields fields size).map Field.kept) :
    headers.isChunked = false := by
  have hall : ((sentFields fields size).map Field.kept).lookup
      HeaderId.transferEncoding.lowercaseName = none := by
    rw [sentFields, List.map_append, List.lookup_append, h.lookup_none h.coding,
      List.map_singleton, lengthField_kept]
    rfl
  have hnone : headers.fields.lookup HeaderId.transferEncoding.lowercaseName = none := by
    rw [List.lookup_eq_none_iff] at hall ⊢
    exact fun x hx => hall x (hp.subset hx)
  simp [MessageHeaders.isChunked, MessageHeaders.find, hnone]

variable {headers : MessageHeaders} {size : ℕ}
  (hf : headers.fields = (sentFields fields size).map Field.kept)
include hf

theorem find_length : headers.find HeaderId.contentLength.lowercaseName = toDecString size := by
  rw [MessageHeaders.find, hf, h.sent_length size]

theorem contentLength_iff {n : ℕ} (hn : n < 2^63) :
    headers.contentLength = n ↔ (size : ℤ).bmod (2^32) = n := by
  rw [MessageHeaders.contentLength, h.find_length hf, if_neg (toDecString_ne_nil size), toDecString]
  exact fromDecString_integer (bmod_small size) hn

end Unsized

section Messages
variable {ρ κ : Type}

/-- A message is parsed line first, and then by its headers. -/
structure Parses (parseLine : Parser κ UInt8) (valid fail : κ → Bool)
    (message : κ → MessageHeaders → Bool → ρ) (parse : Parser ρ UInt8) (lost : ρ → Bool) :
    Prop where
  lost : ∀ l h v, lost (message l h v) = fail l
  waits : ∀ l cs, valid l = false → (parseLine l cs).1 = false → valid (parseLine l cs).2.1 = false
  line : ∀ l h cs, valid l = false → (parseLine l cs).1 = false →
    parse (message l h false) cs = (false,message (parseLine l cs).2.1 h false,(parseLine l cs).2.2)
  through : ∀ l h cs, valid l = false → (parseLine l cs).1 = true →
    parse (message l h false) cs =
      parse (message (parseLine l cs).2.1 h false) (parseLine l cs).2.2
  headers : ∀ l h cs, valid l = true → h.valid = false → parse (message l h false) cs =
    ((h.parse cs).1,message l (h.parse cs).2.1 (h.parse cs).1,(h.parse cs).2.2)

variable {parseLine : Parser κ UInt8} {valid fail : κ → Bool}
  {message : κ → MessageHeaders → Bool → ρ} {parse : Parser ρ UInt8} {lost : ρ → Bool}
  (hm : Parses parseLine valid fail message parse lost)
include hm

theorem Parses.line_fed (h : MessageHeaders) {l m : κ} (hv : valid l = false)
    {packets ps : List Bytes} {rest : Bytes}
    (hf : feed parseLine fail l packets = some (m,rest,ps)) :
    feed parse lost (message l h false) packets =
      feed parse lost (message m h false) (rest::ps) := by
  induction packets generalizing l with
  | nil => simp [feed] at hf
  | cons p packets ih =>
    cases hd : (parseLine l p).1 with
    | true =>
      rw [feed_done hd] at hf
      simp only [Option.some.injEq, Prod.mk.injEq] at hf
      obtain ⟨rfl,rfl,rfl⟩ := hf
      rw [feed, feed, hm.through l h p hv hd]
    | false =>
      have hline := hm.line l h p hv hd
      by_cases hr : (parseLine l p).2.2 ≠ [] ∨ fail (parseLine l p).2.1 = true
      · rw [feed_stop hd hr] at hf
        exact absurd hf (by simp)
      · rw [feed_more hd hr] at hf
        rw [feed_more (by rw [hline]) (by rwa [hline, hm.lost]), hline]
        exact ih (hm.waits l p hv hd) hf

theorem Parses.headers_fed {l : κ} (hl : valid l = true) (hfail : fail l = false)
    {h : MessageHeaders} (hv : h.valid = false) (packets : List Bytes) :
    feed parse lost (message l h false) packets =
      (fedHeaders h packets).map (fun x => (message l x.1 true,x.2)) := by
  induction packets generalizing h with
  | nil => rfl
  | cons p packets ih =>
    have hparse := hm.headers l h p hl hv
    have hvalid := headers_valid h p
    rw [fedHeaders]
    cases hd : (h.parse p).1 with
    | true =>
      rw [feed_done hd, feed_done (by rw [hparse, hd]), hparse, hd]
      rfl
    | false =>
      rw [hv, hd] at hvalid
      by_cases hr : (h.parse p).2.2 ≠ [] ∨ (fun _ : MessageHeaders => false) (h.parse p).2.1 = true
      · rw [feed_stop hd hr, feed_stop (by rw [hparse, hd])
          (by rw [hparse, hm.lost, hfail]; exact hr)]
        rfl
      · rw [feed_more hd hr, feed_more (by rw [hparse, hd])
          (by rw [hparse, hm.lost, hfail]; exact hr), hparse, hd]
        exact ih hvalid

theorem Parses.head_fed {done kept : κ → Prop} {step : κ → UInt8 → Bool × κ} {close : κ → κ}
    (hl : Loop parseLine done step kept close) (hlost : ∀ l, kept l → fail l = false) {l m : κ}
    (hk : kept l) (hv : valid l = false) {w : Bytes} (ht : Takes done step l w m) (hd : done m)
    (hc : valid (close m) = true ∧ fail (close m) = false) (hw : w ≠ []) {fields : List Field}
    (hwell : ∀ f ∈ fields, f.WellFormed) (hplain : ∀ f ∈ fields, f.name.all Field.plain = true)
    {packets : List Bytes} {t : Bytes} (hfull : ∀ p ∈ packets, p ≠ [])
    (hp : packets.flatten = w ++ (fieldsText fields ++ t)) :
    ∃ h rest ps, feed parse lost (message l .cleared false) packets =
        some (message (close m) h true,rest,ps) ∧ h.fields <+: fields.map Field.kept ∧
      (h.fields = fields.map Field.kept ↔ Uncut w.length fields packets) ∧
      (Uncut w.length fields packets → rest++ps.flatten = t) ∧ (∀ q ∈ ps, q ≠ []) := by
  obtain ⟨before,p,rest,ps,rfl,htext,hlt,hfed⟩ := hl.fed hlost hk ht hd hw hp
  have hholds : Holds (rest::ps) (fieldsText fields ++ t) := by
    refine ⟨?_,fun q hq => hfull q (by simp_all)⟩
    rw [List.flatten_append, List.flatten_cons, ← List.append_assoc, ← htext,
      List.append_assoc] at hp
    exact List.append_cancel_left hp
  obtain ⟨h,rest',qs,hheaders,hpre,hfields,hrest⟩ := Via.headers_fed hwell hplain hholds
  have hhead : feed parse lost (message l .cleared false) (before ++ p::ps) =
      some (message (close m) h true,rest',qs) := by
    rw [hm.line_fed .cleared hv hfed, hm.headers_fed hc.1 hc.2 rfl, hheaders]
    rfl
  have hshift := uncut_add w.length 0 fields (before ++ p::ps)
  rw [Nat.add_zero, advance_ended htext hlt] at hshift
  refine ⟨h,rest',qs,hhead,hpre,hfields.trans hshift.symm,fun hu => hrest (hshift.mp hu),?_⟩
  obtain ⟨first,q,hparts,-,-⟩ := feed_used hhead
  rw [hparts] at hfull
  exact fun r hr => hfull r (by simp [hr])

end Messages

theorem contains_iff (part s : Bytes) : Http.contains part s = true ↔ part <:+: s := by
  rw [Http.contains, List.any_eq_true, List.infix_iff_prefix_suffix]
  constructor
  · rintro ⟨t,ht,hp⟩
    exact ⟨t,List.isPrefixOf_iff_prefix.mp hp,(List.mem_tails _ _).mp ht⟩
  · rintro ⟨t,hp,ht⟩
    exact ⟨t,(List.mem_tails _ _).mpr ht,List.isPrefixOf_iff_prefix.mpr hp⟩

theorem infix_split {part a b : Bytes} {c : UInt8} (hc : c ∉ part) (h : part <:+: a ++ c::b) :
    part <:+: a ∨ part <:+: b := by
  obtain ⟨s,t,hst⟩ := h
  rcases List.append_eq_append_iff.mp hst with ⟨v,ha,-⟩ | ⟨v,ha,hb⟩
  · exact .inl ⟨s,v,ha.symm⟩
  · cases v with
    | nil =>
      rw [List.append_nil] at ha
      exact .inl ⟨s,[],by rw [List.append_nil, ha]⟩
    | cons d v =>
      obtain ⟨rfl,rfl⟩ := List.cons.inj hb
      rcases List.append_eq_append_iff.mp ha with ⟨w,-,hw⟩ | ⟨w,-,hw⟩
      · exact absurd (by rw [hw]; simp) hc
      · cases w with
        | nil => exact absurd (by rw [← show c::v = part from hw]; simp) hc
        | cons e w =>
          obtain ⟨-,rfl⟩ := List.cons.inj hw
          exact .inr ⟨w,t,rfl⟩

theorem contains_missing {part s : Bytes} {c : UInt8} (hc : c ∈ part) (hs : c ∉ s) :
    Http.contains part s = false := by
  rw [← Bool.not_eq_true, contains_iff]
  exact fun h => hs (h.subset hc)

theorem contains_lines {part : Bytes} (hne : part ≠ []) (hreturn : 13 ∉ part) (hfeed : 10 ∉ part)
    {fields : List Field} (h : ∀ f ∈ fields, Http.contains part (f.name ++ 58::f.content) = false) :
    Http.contains part (fields.flatMap Field.line) = false := by
  rw [← Bool.not_eq_true, contains_iff]
  induction fields with
  | nil => exact fun hnil => hne (List.infix_nil.mp hnil)
  | cons f fields ih =>
    intro hin
    have htext : (f::fields).flatMap Field.line =
        (f.name ++ 58::f.content) ++ 13::([] ++ 10::fields.flatMap Field.line) := by
      simp [Field.line, crlf]
    rw [htext] at hin
    rcases infix_split hreturn hin with hline | hrest
    · exact absurd ((contains_iff _ _).mpr hline) (by simp [h f (by simp)])
    · rcases infix_split hfeed hrest with hnil | hrest
      · exact hne (List.infix_nil.mp hnil)
      · exact ih (fun g hg => h g (by simp [hg])) hrest

/-- A field that is read, and does not look like a length or a coding. -/
structure Harmless (f : Field) : Prop where
  wellFormed : f.WellFormed
  plain : f.name.all Field.plain = true
  noLength : Http.contains HeaderId.contentLength.standardName (f.name ++ 58::f.content) = false
  noCoding : Http.contains HeaderId.transferEncoding.standardName (f.name ++ 58::f.content) = false
  length : ¬ f.IsCalled HeaderId.contentLength.lowercaseName
  coding : ¬ f.IsCalled HeaderId.transferEncoding.lowercaseName

instance (f : Field) : Decidable (Harmless f) :=
  decidable_of_iff (f.WellFormed ∧ f.name.all Field.plain = true ∧
      Http.contains HeaderId.contentLength.standardName (f.name ++ 58::f.content) = false ∧
      Http.contains HeaderId.transferEncoding.standardName (f.name ++ 58::f.content) = false ∧
      ¬ f.IsCalled HeaderId.contentLength.lowercaseName ∧
      ¬ f.IsCalled HeaderId.transferEncoding.lowercaseName)
    ⟨fun h => ⟨h.1,h.2.1,h.2.2.1,h.2.2.2.1,h.2.2.2.2.1,h.2.2.2.2.2⟩,
      fun h => ⟨h.wellFormed,h.plain,h.noLength,h.noCoding,h.length,h.coding⟩⟩

theorem unsized_fields {fields : List Field} (h : ∀ f ∈ fields, Harmless f) :
    Unsized (fields.flatMap Field.line) fields where
  text := rfl
  wellFormed := fun f hf => (h f hf).wellFormed
  plain := fun f hf => (h f hf).plain
  noLength := contains_lines (by decide) (by decide) (by decide) fun f hf => (h f hf).noLength
  noCoding := contains_lines (by decide) (by decide) (by decide) fun f hf => (h f hf).noCoding
  length := fun f hf => (h f hf).length
  coding := fun f hf => (h f hf).coding

end RethinkLog.Via
