import RethinkLog.Decimal
import RethinkLog.PrefixCode

/-!
# The JSON text of a property tree

The printer of the property tree library is not part of this program. It is
supplied as a structure whose fields say what is relied on: a special byte
is written as one of its JSON escapes, every other byte as itself, and one
choice is made about a final newline. Everything else follows the printer's
fixed layout for a tree of string values.
-/

set_option autoImplicit false

namespace RethinkLog

namespace Json

def Special (b : UInt8) : Prop := b < 32 ∨ b = 34 ∨ b = 92 ∨ b = 47

instance (b : UInt8) : Decidable (Special b) := inferInstanceAs (Decidable (_ ∨ _))

def letterMeaning (c : UInt8) : Option UInt8 :=
  if c = 34 then some 34 else if c = 92 then some 92 else if c = 47 then some 47
  else if c = 98 then some 8 else if c = 102 then some 12 else if c = 110 then some 10
  else if c = 114 then some 13 else if c = 116 then some 9 else none

def hexMeaning (c : UInt8) : Option ℕ :=
  if 48 ≤ c ∧ c ≤ 57 then some (c.toNat-48)
  else if 65 ≤ c ∧ c ≤ 70 then some (c.toNat-55)
  else if 97 ≤ c ∧ c ≤ 102 then some (c.toNat-87) else none

def hexNumber : List UInt8 → Option ℕ :=
  List.foldl (fun n c => n.bind fun n => (hexMeaning c).map (16*n+·)) (some 0)

inductive Escapes (b : UInt8) : Bytes → Prop
  | letter (c : UInt8) (h : letterMeaning c = some b) : Escapes b [92,c]
  | unicode (c d e f : UInt8) (h : hexNumber [c,d,e,f] = some b.toNat) :
      Escapes b [92,117,c,d,e,f]

end Json

open Json in
structure JsonWriter where
  escape : UInt8 → Bytes
  newline : Bool
  plain : ∀ b, ¬ Special b → escape b = [b]
  escaped : ∀ b, Special b → Escapes b (escape b)

namespace JsonWriter
open Json

def quoted (W : JsonWriter) (s : Bytes) : Bytes := [34] ++ (s.flatMap W.escape ++ [34])

def child (W : JsonWriter) (kv : Bytes × Bytes) : Bytes := W.quoted kv.1 ++ [58] ++ W.quoted kv.2

def children (W : JsonWriter) : List (Bytes × Bytes) → Bytes
  | [] => []
  | [kv] => W.child kv
  | kv::lv::rest => W.child kv ++ [44] ++ children W (lv::rest)

def ending (W : JsonWriter) : Bytes := if W.newline then [125,10] else [125]

def writeJson (W : JsonWriter) (tree : List (Bytes × Bytes)) : Bytes :=
  [123] ++ W.children tree ++ W.ending

theorem escape_cases (W : JsonWriter) (b : UInt8) :
    (b ≠ 34 ∧ b ≠ 92 ∧ W.escape b = [b]) ∨ Escapes b (W.escape b) := by
  by_cases h : Special b
  · exact Or.inr (W.escaped b h)
  · refine Or.inl ⟨?_,?_,W.plain b h⟩ <;> rintro rfl <;> exact h (by decide)

theorem escapes_ne_nil {b : UInt8} {s : Bytes} (h : Escapes b s) : s ≠ [] := by
  cases h <;> simp

theorem quoted_length (W : JsonWriter) (s : Bytes) : s.length ≤ (W.quoted s).length := by
  have hne (b : UInt8) : 1 ≤ (W.escape b).length := by
    rcases W.escape_cases b with ⟨-,-,he⟩ | he
    · simp [he]
    · exact List.length_pos_of_ne_nil (escapes_ne_nil he)
  have hs : s.length ≤ (s.flatMap W.escape).length := by
    induction s with
    | nil => simp
    | cons b s ih =>
      have hb := hne b
      rw [List.flatMap_cons, List.length_append, List.length_cons]
      omega
  simp only [quoted, List.length_append, List.length_cons]
  omega

theorem escapes_unique {a b : UInt8} {s t u v : Bytes} (ha : Escapes a s) (hb : Escapes b t)
    (h : s ++ u = t ++ v) : a = b := by
  cases ha with
  | letter c hc =>
    cases hb with
    | letter d hd =>
      obtain rfl : c = d := by simpa using (List.cons_eq_cons.mp (List.cons_eq_cons.mp h).2).1
      exact Option.some.inj (hc.symm.trans hd)
    | unicode d e f g hd =>
      obtain rfl : c = 117 := by simpa using (List.cons_eq_cons.mp (List.cons_eq_cons.mp h).2).1
      simp [letterMeaning] at hc
  | unicode c d e f hc =>
    cases hb with
    | letter g hg =>
      obtain rfl : 117 = g := by simpa using (List.cons_eq_cons.mp (List.cons_eq_cons.mp h).2).1
      simp [letterMeaning] at hg
    | unicode c' d' e' f' hd =>
      simp only [List.cons_append, List.cons.injEq, true_and] at h
      obtain ⟨rfl,rfl,rfl,rfl,-⟩ := h
      exact UInt8.toNat_inj.mp (Option.some.inj (hc.symm.trans hd))

theorem escapes_head {b : UInt8} {s : Bytes} (h : Escapes b s) : ∃ t, s = 92 :: t := by
  cases h with
  | letter c _ => exact ⟨[c],rfl⟩
  | unicode c d e f _ => exact ⟨[117,c,d,e,f],rfl⟩

def symbol (W : JsonWriter) : PrefixCode UInt8 UInt8 where
  encode := W.escape
  unique {a b u v} h := by
    rcases W.escape_cases a with ⟨-,ha,hea⟩ | ha <;> rcases W.escape_cases b with ⟨-,hb,heb⟩ | hb
    · rw [hea,heb] at h
      exact (List.cons_eq_cons.mp h).1
    · obtain ⟨t,ht⟩ := escapes_head hb
      rw [hea,ht] at h
      exact absurd (List.cons_eq_cons.mp h).1 ha
    · obtain ⟨t,ht⟩ := escapes_head ha
      rw [ht,heb] at h
      exact absurd (List.cons_eq_cons.mp h).1.symm hb
    · exact escapes_unique ha hb h

theorem symbol_stops (W : JsonWriter) (r : Bytes) : W.symbol.Stops ([34]++r) := by
  intro a u h
  rcases W.escape_cases a with ⟨ha,-,hea⟩ | ha
  · simp only [symbol, hea] at h
    exact ha (List.cons_eq_cons.mp h).1
  · obtain ⟨t,ht⟩ := escapes_head ha
    simp only [symbol, ht] at h
    exact absurd (List.cons_eq_cons.mp h).1 (by decide)

def member (W : JsonWriter) (lead name : Bytes) : PrefixCode Bytes UInt8 :=
  PrefixCode.bracket (lead ++ W.quoted name ++ [58,34])
    (W.symbol.delimited [34] W.symbol_stops) []

theorem member_encode (W : JsonWriter) (lead name value : Bytes) :
    (W.member lead name).encode value = lead ++ W.child (name,value) := by
  simp [member, PrefixCode.bracket, PrefixCode.delimited, PrefixCode.stream, symbol,
    child, quoted]

/-- The escapes of the library itself: a letter where JSON has one and else
four hexadecimal digits in upper case. -/
def libraryEscape (b : UInt8) : Bytes :=
  if ¬ Special b then [b]
  else if b = 8 then [92,98] else if b = 12 then [92,102] else if b = 10 then [92,110]
  else if b = 13 then [92,114] else if b = 9 then [92,116] else if 32 ≤ b then [92,b]
  else [92,117,48,48,48+b/16,if b%16 < 10 then 48+b%16 else 55+b%16]

theorem libraryEscape_unicode (b : UInt8) (h : b < 32) (h8 : b ≠ 8) (h9 : b ≠ 9)
    (h10 : b ≠ 10) (h12 : b ≠ 12) (h13 : b ≠ 13) :
    ∃ e f, libraryEscape b = [92,117,48,48,e,f] ∧ hexNumber [48,48,e,f] = some b.toNat := by
  have hs : Special b := Or.inl h
  have hn : ¬ (32 ≤ b) := by simpa using h
  have hall : ∀ n < 32, hexNumber [48,48,48+UInt8.ofNat n/16,
      if UInt8.ofNat n%16 < 10 then 48+UInt8.ofNat n%16 else 55+UInt8.ofNat n%16] =
      some (UInt8.ofNat n).toNat := by decide
  have hescape : libraryEscape b =
      [92,117,48,48,48+b/16,if b%16 < 10 then 48+b%16 else 55+b%16] := by
    simp only [libraryEscape, hs, h8, h9, h10, h12, h13, hn, not_true, if_false]
  refine ⟨_,_,hescape,?_⟩
  have hb := hall b.toNat (UInt8.lt_iff_toNat_lt.mp h)
  rwa [UInt8.ofNat_toNat] at hb

def library (newline : Bool) : JsonWriter where
  escape := libraryEscape
  newline := newline
  plain b h := by simp [libraryEscape, h]
  escaped b h := by
    by_cases h8 : b = 8
    · subst h8; exact .letter 98 rfl
    by_cases h9 : b = 9
    · subst h9; exact .letter 116 rfl
    by_cases h10 : b = 10
    · subst h10; exact .letter 110 rfl
    by_cases h12 : b = 12
    · subst h12; exact .letter 102 rfl
    by_cases h13 : b = 13
    · subst h13; exact .letter 114 rfl
    rcases h with h | rfl | rfl | rfl
    · obtain ⟨e,f,he,hf⟩ := libraryEscape_unicode b h h8 h9 h10 h12 h13
      rw [he]
      exact .unicode 48 48 e f hf
    · exact .letter 34 rfl
    · exact .letter 92 rfl
    · exact .letter 47 rfl

end JsonWriter
end RethinkLog
