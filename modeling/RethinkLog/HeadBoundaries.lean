import RethinkLog.Incremental
import RethinkLog.WebGuard

/-!
# Where a head may be cut

Field lines are read as they were sent exactly when no packet begins in one of
their line ends. Then the parser of the headers takes the lines, the empty
line, and no byte behind it, whatever the packets are.
-/

set_option autoImplicit false

namespace RethinkLog.Via
open Incremental

def lineEnds : ℕ → List Field → List ℕ
  | _, [] => []
  | n, f::fs =>
    let e := n+(f.name.length+1+f.content.length)
    e :: (e+1) :: lineEnds (e+2) fs

/-- No packet begins in a line end of the fields. -/
def Uncut (n : ℕ) (fields : List Field) (packets : List Bytes) : Prop :=
  ∀ k ∈ lineEnds n fields, atStart (advance k packets) = false

instance (n : ℕ) (fields : List Field) (packets : List Bytes) :
    Decidable (Uncut n fields packets) := List.decidableBAll _ _

def fieldsText (fields : List Field) : Bytes := fields.flatMap Field.line ++ crlf

theorem cut_iff (packets : List Bytes) : cut packets = false ↔
    atStart packets = false ∧ atStart (advance 1 packets) = false := by
  simp [cut]

theorem uncut_cons (n : ℕ) (f : Field) (fields : List Field) (packets : List Bytes) :
    Uncut n (f::fields) packets ↔
      cut (f.behind (advance n packets)) = false ∧
        Uncut (n+(f.name.length+1+f.content.length)+2) fields packets := by
  rw [cut_iff, Field.behind, ← advance_add, ← advance_add]
  simp [Uncut, lineEnds, and_assoc]

theorem reading_uncut {fields : List Field} (hp : ∀ f ∈ fields, f.name.all Field.plain = true)
    (n : ℕ) (packets : List Bytes) :
    (Uncut n fields packets → reading fields (advance n packets) =
      some (fields.map Field.kept,
        (advance (n+(fieldsText fields).length) packets).headD [])) ∧
    ((reading fields (advance n packets)).map Prod.fst = some (fields.map Field.kept) →
      Uncut n fields packets) := by
  induction fields generalizing n with
  | nil => simp [Uncut, lineEnds, reading, left, fieldsText, crlf, advance_add]
  | cons f fields ih =>
    obtain ⟨ihread,ihuncut⟩ := ih (fun g hg => hp g (by simp [hg]))
      (n+(f.name.length+1+f.content.length)+2)
    have hlength : n+(fieldsText (f::fields)).length =
        n+(f.name.length+1+f.content.length)+2+(fieldsText fields).length := by
      simp [fieldsText, f.line_length]
      omega
    have hnext : advance 2 (f.behind (advance n packets)) =
        advance (n+(f.name.length+1+f.content.length)+2) packets := by
      rw [Field.behind, ← advance_add, ← advance_add]
      rfl
    rw [uncut_cons, reading, refused_plain (hp f (by simp)), if_neg (by simp), hnext, hlength]
    constructor
    · rintro ⟨hcut,hrest⟩
      rw [hcut, if_neg (by simp), ihread hrest]
      rfl
    · intro h
      cases hcut : cut (f.behind (advance n packets)) with
      | true => simp [hcut] at h
      | false =>
        rw [hcut, if_neg (by simp)] at h
        refine ⟨rfl,ihuncut ?_⟩
        cases hr : reading fields
          (advance (n+(f.name.length+1+f.content.length)+2) packets) with
        | none => simp [hr] at h
        | some x => simpa [hr] using h

theorem reading_some {fields : List Field} (hp : ∀ f ∈ fields, f.name.all Field.plain = true)
    (packets : List Bytes) : (reading fields packets).isSome = true := by
  induction fields generalizing packets with
  | nil => rfl
  | cons f fields ih =>
    rw [reading, refused_plain (hp f (by simp)), if_neg (by simp)]
    split
    · rfl
    · rw [Option.isSome_map]
      exact ih (fun g hg => hp g (by simp [hg])) _

theorem reading_prefix {fields : List Field} {packets : List Bytes}
    {x : List (Bytes × Bytes) × Bytes} (h : reading fields packets = some x) :
    x.1 <+: fields.map Field.kept := by
  induction fields generalizing packets x with
  | nil =>
    obtain rfl := Option.some.inj h
    exact List.nil_prefix
  | cons f fields ih =>
    rw [reading] at h
    split at h
    · exact absurd h (by simp)
    · split at h
      · obtain rfl := Option.some.inj h
        exact List.nil_prefix
      · obtain ⟨y,hy,rfl⟩ := Option.map_eq_some_iff.mp h
        exact List.cons_prefix_cons.mpr ⟨rfl,ih hy⟩

theorem fields_valid (h : MessageHeaders) (cs : Bytes) :
    (h.parseFields cs).2.1.valid = h.valid := by
  induction h, cs using MessageHeaders.parseFields.induct with
  | case1 h cs hend =>
    rw [MessageHeaders.parseFields, if_pos hend]
  | case2 h cs hend hdone ih =>
    rw [MessageHeaders.parseFields, if_neg hend, if_pos hdone]
    exact ih
  | case3 h cs hend hdone =>
    rw [MessageHeaders.parseFields, if_neg hend, if_neg hdone]

theorem headers_valid (h : MessageHeaders) (cs : Bytes) :
    (h.parse cs).2.1.valid = (h.valid || (h.parse cs).1) := by
  have hvalid := fields_valid h cs
  unfold MessageHeaders.parse
  generalize h.parseFields cs = p at hvalid ⊢
  obtain ⟨ok,m,rest⟩ := p
  cases ok with
  | false => simpa using hvalid
  | true =>
    cases rest with
    | nil => simpa using hvalid
    | cons c rest =>
      dsimp only at hvalid ⊢
      split
      · simp
      · simpa using hvalid

abbrev fedHeaders (h : MessageHeaders) (packets : List Bytes) :
    Option (MessageHeaders × Bytes × List Bytes) :=
  feed MessageHeaders.parse (fun _ => false) h packets

theorem heard_headers {l : RequestLine} (hl : l.valid = true) (hf : l.fail = false)
    {h : MessageHeaders} (hv : h.valid = false) (packets : List Bytes) :
    Connection.heard ⟨l,h,false⟩ packets =
      (fedHeaders h packets).map (fun x => (⟨l,x.1,true⟩,x.2.1)) := by
  have hfeed : feed RxRequest.parse (fun r => r.line.fail) ⟨l,h,false⟩ packets =
      (fedHeaders h packets).map (fun x => (⟨l,x.1,true⟩,x.2)) := by
    apply feed_within (fun r => r.line = l ∧ r.headers.valid = false ∧ r.valid = false)
      RxRequest.headers (fun r x => ⟨l,x,false⟩) (fun r x => ⟨l,x,true⟩)
    · rintro r cs ⟨rfl,hheaders,hvalid⟩
      cases hd : (r.headers.parse cs).1 <;>
        simp [RxRequest.parse, RxRequest.parseHeaders, hl, hheaders, hvalid, hd]
    · intro r cs hr hd
      exact ⟨rfl,by rw [headers_valid, hr.2.1, hd]; rfl,rfl⟩
    · exact fun _ _ => rfl
    · exact fun _ _ _ => rfl
    · exact fun _ _ _ => hf
    · exact ⟨rfl,hv,rfl⟩
  rw [Connection.heard, hfeed, Option.map_map]
  rfl

theorem advance_append (n : ℕ) (a b : List Bytes) (h : n ≤ a.flatten.length) :
    advance n (a++b) = advance n a ++ b := by
  induction a generalizing n with
  | nil =>
    obtain rfl : n = 0 := by simpa using h
    rw [List.nil_append, advance_zero]
    rfl
  | cons p a ih =>
    rw [List.flatten_cons, List.length_append] at h
    rw [List.cons_append, advance_cons, advance_cons]
    by_cases hn : n ≤ p.length
    · rw [if_pos hn, if_pos hn]
      rfl
    · rw [if_neg hn, if_neg hn]
      exact ih _ (by omega)

theorem advance_past (n : ℕ) (a b : List Bytes) (h : a.flatten.length < n) :
    advance n (a++b) = advance (n-a.flatten.length) b := by
  induction a generalizing n with
  | nil => rfl
  | cons p a ih =>
    rw [List.flatten_cons, List.length_append] at h ⊢
    rw [List.cons_append, advance_cons, if_neg (by omega), ih _ (by omega), Nat.sub_add_eq]

theorem advance_ne_nil {n : ℕ} {a : List Bytes} (h : n ≤ a.flatten.length) (ha : a ≠ []) :
    advance n a ≠ [] := by
  induction a generalizing n with
  | nil => exact absurd rfl ha
  | cons p a ih =>
    rw [List.flatten_cons, List.length_append] at h
    rw [advance_cons]
    split
    · simp
    · rename_i hn
      refine ih (by omega) ?_
      rintro rfl
      simp only [List.flatten_nil, List.length_nil] at h
      omega

theorem atStart_append {n : ℕ} {a b : List Bytes} (h : atStart (advance n a) = true) :
    atStart (advance n (a++b)) = true := by
  rcases Nat.lt_or_ge a.flatten.length n with hn | hn
  · have hpast := advance_past n a [] hn
    rw [List.append_nil] at hpast
    rw [hpast] at h
    exact absurd h (by simp [advance, atStart])
  · rw [advance_append n a b hn]
    cases ha : advance n a with
    | nil =>
      rw [ha] at h
      exact absurd h (by decide)
    | cons p ps =>
      rw [ha] at h
      exact h

theorem lineEnds_lt {n k : ℕ} {fields : List Field} (h : k ∈ lineEnds n fields) :
    k < n+(fieldsText fields).length := by
  induction fields generalizing n with
  | nil => simp [lineEnds] at h
  | cons f fields ih =>
    have hlength : (fieldsText (f::fields)).length =
        f.name.length+1+f.content.length+2+(fieldsText fields).length := by
      simp [fieldsText, f.line_length]
    rw [lineEnds, List.mem_cons, List.mem_cons] at h
    rcases h with rfl | rfl | h
    · omega
    · omega
    · have hlt := ih h
      omega

theorem uncut_whole {n : ℕ} {fields : List Field} {p : Bytes} {ps : List Bytes}
    (h : n+(fieldsText fields).length ≤ p.length) : Uncut n fields (p::ps) := by
  intro k hk
  have hlt := lineEnds_lt hk
  rw [advance_cons, if_pos (by omega)]
  simp only [atStart, List.head?_cons, Option.some.injEq, List.drop_eq_nil_iff,
    decide_eq_false_iff_not]
  omega

theorem uncut_prefix {n : ℕ} {fields : List Field} {a b : List Bytes}
    (h : Uncut n fields (a++b)) : Uncut n fields a := by
  intro k hk
  cases hs : atStart (advance k a) with
  | false => rfl
  | true => exact (atStart_append hs).symm.trans (h k hk)

theorem uncut_refill {fields : List Field} {a b : List Bytes} {more : Bytes} (x : UInt8)
    (ha : a ≠ []) (hm : a.flatten ++ more = fieldsText fields) (h : Uncut 0 fields (a++b)) :
    Uncut 0 fields (a++[more++[x]]) := by
  intro k hk
  have hlt := lineEnds_lt hk
  rw [Nat.zero_add, ← hm, List.length_append] at hlt
  have hka := uncut_prefix h k hk
  rcases Nat.lt_or_ge a.flatten.length k with hn | hn
  · have hshort : k-a.flatten.length < (more++[x]).length := by
      rw [List.length_append, List.length_singleton]
      omega
    rw [advance_past k a _ hn, advance_cons, if_pos (Nat.le_of_lt hshort)]
    simp only [atStart, List.head?_cons, Option.some.injEq, List.drop_eq_nil_iff,
      decide_eq_false_iff_not]
    omega
  · rw [advance_append k a _ hn]
    cases hp : advance k a with
    | nil => exact absurd hp (advance_ne_nil hn ha)
    | cons p ps =>
      rw [hp] at hka
      exact hka

theorem advance_ended {w rest p : Bytes} {before ps : List Bytes}
    (h : w++rest = before.flatten++p) (hlt : before.flatten.length < w.length) :
    advance w.length (before ++ p::ps) = rest::ps := by
  have hlength := congrArg List.length h
  have hdrop := congrArg (List.drop w.length) h
  rw [List.length_append, List.length_append] at hlength
  rw [List.drop_left, List.drop_append, List.drop_eq_nil_of_le (Nat.le_of_lt hlt),
    List.nil_append] at hdrop
  rw [advance_past _ before _ hlt, advance_cons, if_pos (by omega), hdrop]

theorem uncut_add (m n : ℕ) (fields : List Field) (packets : List Bytes) :
    Uncut (m+n) fields packets ↔ Uncut n fields (advance m packets) := by
  induction fields generalizing n with
  | nil => simp [Uncut, lineEnds]
  | cons f fields ih =>
    have hsum : m+n+(f.name.length+1+f.content.length)+2 =
        m+(n+(f.name.length+1+f.content.length)+2) := by omega
    rw [uncut_cons, uncut_cons, hsum, ih, advance_add]

section Fed
variable {fields : List Field} (hw : ∀ f ∈ fields, f.WellFormed)
  (hp : ∀ f ∈ fields, f.name.all Field.plain = true)
include hw hp

/-- The parser of headers takes some packet for the last. It has all the fields
exactly when none is cut, and leaves what is left of the packet then. -/
theorem headers_left {packets : List Bytes} {t : Bytes}
    (hh : Holds packets (fieldsText fields ++ t)) :
    ∃ h rest ps, fedHeaders .cleared packets = some (h,rest,ps) ∧
      h.fields <+: fields.map Field.kept ∧
      (h.fields = fields.map Field.kept ↔ Uncut 0 fields packets) ∧ (Uncut 0 fields packets →
        rest = (advance (fieldsText fields).length packets).headD []) := by
  let l : RequestLine := ⟨[],[],1,1,.httpEnd,true,true,true,false⟩
  rw [fieldsText, List.append_assoc] at hh
  have hseen := Connection.seen_fields (l := l) rfl rfl [] fields hw t hh
  have hheard : Connection.heard (amid l [] .cleared) packets =
      (fedHeaders .cleared packets).map (fun x => (⟨l,x.1,true⟩,x.2.1)) :=
    heard_headers (h := .cleared) rfl rfl rfl packets
  obtain ⟨hread,huncut⟩ := reading_uncut hp 0 packets
  rw [advance_zero, Nat.zero_add] at hread
  rw [advance_zero] at huncut
  rw [Connection.seen, hheard, Option.map_map] at hseen
  cases hfed : fedHeaders .cleared packets with
  | none =>
    have hnone := reading_some hp packets
    rw [hfed] at hseen
    rw [Option.map_none, eq_comm, Option.map_eq_none_iff] at hseen
    rw [hseen] at hnone
    exact absurd hnone (by simp)
  | some x =>
    obtain ⟨h,rest,ps⟩ := x
    rw [hfed] at hseen
    obtain ⟨y,hy,hseen⟩ := Option.map_eq_some_iff.mp hseen.symm
    simp only [Function.comp_apply, Prod.mk.injEq] at hseen
    have hfields : y.1 = h.fields := congrArg Http.RxRequest.headers hseen.1
    have hpre := reading_prefix hy
    rw [hy] at hread huncut
    refine ⟨h,rest,ps,rfl,hfields ▸ hpre,⟨fun hf => huncut ?_,fun hu => ?_⟩,fun hu => ?_⟩
    · rw [Option.map_some, hfields, hf]
    · rw [← hfields, Option.some.inj (hread hu)]
    · rw [← hseen.2, Option.some.inj (hread hu)]

omit hw hp in
theorem holds_part {a b : List Bytes} {t : Bytes} (hh : Holds (a++b) t) {u : Bytes}
    (h : a.flatten = u) : Holds a u := by
  refine ⟨h,fun q hq => hh.full q ?_⟩
  cases a with
  | nil => exact absurd hq (by simp)
  | cons p a => exact List.mem_append_left _ hq

theorem headers_reached {a b : List Bytes} {t more rest : Bytes} {h : MessageHeaders}
    (hh : Holds (a++b) (fieldsText fields ++ t)) (hu : Uncut 0 fields (a++b)) (ha : a ≠ [])
    (hfed : fedHeaders .cleared a = some (h,rest,[]))
    (hm : fieldsText fields = a.flatten ++ more) : more = [] := by
  by_contra hmore
  have hrest (x : UInt8) : rest = [x] := by
    have hholds : Holds (a++[more++[x]]) (fieldsText fields ++ [x]) := by
      refine ⟨by simp [hm],fun q hq => ?_⟩
      cases a with
      | nil => exact absurd rfl ha
      | cons p a =>
        rcases List.mem_append.mp hq with hq | hq
        · exact hh.full q (List.mem_append_left _ hq)
        · simp [List.mem_singleton.mp hq]
    obtain ⟨g,rest',ps,hleft,-,-,hrest'⟩ := headers_left hw hp hholds
    have hlast : advance (fieldsText fields).length (a++[more++[x]]) = [[x]] := by
      have hlength := List.length_pos_of_ne_nil hmore
      have hsum : (fieldsText fields).length = a.flatten.length+more.length := by
        rw [hm, List.length_append]
      rw [advance_past _ a _ (by omega), hsum, Nat.add_sub_cancel_left, advance_text]
    have hfilled := hrest' (uncut_refill x ha hm.symm hu)
    rw [hlast] at hfilled
    rw [fedHeaders, feed_append hfed] at hleft
    simp only [Option.some.injEq, Prod.mk.injEq] at hleft
    exact hleft.2.1.trans hfilled
  exact absurd ((hrest 0).symm.trans (hrest 1)) (by decide)

theorem headers_fed {packets : List Bytes} {t : Bytes}
    (hh : Holds packets (fieldsText fields ++ t)) :
    ∃ h rest ps, fedHeaders .cleared packets = some (h,rest,ps) ∧
      h.fields <+: fields.map Field.kept ∧
      (h.fields = fields.map Field.kept ↔ Uncut 0 fields packets) ∧
      (Uncut 0 fields packets → rest++ps.flatten = t) := by
  obtain ⟨h,rest,ps,hfed,hpre,hfields,hrest⟩ := headers_left hw hp hh
  refine ⟨h,rest,ps,hfed,hpre,hfields,fun hu => ?_⟩
  rw [hrest hu] at hfed ⊢
  obtain ⟨before,p,rfl,hused,hnone⟩ := feed_used hfed
  have hparts : before ++ p::ps = (before++[p])++ps := by simp
  obtain ⟨u,hu',ht⟩ : ∃ u, (before++[p]).flatten = fieldsText fields ++ u ∧ t = u++ps.flatten := by
    have hflat := hh.flat
    rw [hparts, List.flatten_append] at hflat
    rcases List.append_eq_append_iff.mp hflat with ⟨more,hmore,hps⟩ | ⟨u,hu',ht⟩
    · rw [hparts] at hh hu
      obtain rfl := headers_reached hw hp hh hu (by simp) hused hmore
      exact ⟨[],by simpa using hmore.symm,hps.symm⟩
    · exact ⟨u,hu',ht⟩
  have hshort : before.flatten.length < (fieldsText fields).length := by
    by_contra hlong
    have hpre : ∃ v, before.flatten = fieldsText fields ++ v := by
      rw [List.flatten_append, List.flatten_singleton] at hu'
      rcases List.append_eq_append_iff.mp hu' with ⟨v,hv,-⟩ | ⟨v,hv,-⟩
      · have hlength := congrArg List.length hv
        rw [List.length_append] at hlength
        obtain rfl := List.eq_nil_of_length_eq_zero (l := v) (by omega)
        exact ⟨[],by simpa using hv.symm⟩
      · exact ⟨v,hv⟩
    obtain ⟨v,hv⟩ := hpre
    obtain ⟨g,rest',qs,hleft,-⟩ := headers_left hw hp (holds_part hh hv)
    exact absurd (hnone.symm.trans hleft) (by simp)
  rw [List.flatten_append, List.flatten_singleton] at hu'
  rw [advance_ended hu'.symm hshort, List.headD_cons, ht]

end Fed

end RethinkLog.Via
