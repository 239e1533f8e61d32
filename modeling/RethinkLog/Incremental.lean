import RethinkLog.Machine
import Mathlib.Data.List.Basic

/-!
# Parsers that keep their state between packets

A parser is given each packet once. It tells whether it is done, its state and
what is left of the packet. It is seamless on a text when the text may come in
any packets: the parser waits until the last of them, is done there, and leaves
everything behind the text. A loop over bytes is seamless on what it takes, and
so are two parsers one after the other. A receiver has a parser for a head in
front of its content.
-/

set_option autoImplicit false

namespace RethinkLog.Incremental

variable {σ β : Type*}

abbrev Parser (σ β : Type*) := σ → List β → Bool × σ × List β

inductive Seamless (parse : Parser σ β) (t : σ) : σ → List β → Prop
  | intro {s : σ} {w : List β} (whole : ∀ rest, parse s (w++rest) = (true,t,rest))
      (waits : ∀ u v, w = u++v → u ≠ [] → v ≠ [] → parse s u = (false,(parse s u).2.1,[]))
      (later : ∀ u v, w = u++v → u ≠ [] → v ≠ [] → Seamless parse t (parse s u).2.1 v) :
      Seamless parse t s w

variable {parse : Parser σ β} {s t : σ} {w : List β}

theorem Seamless.whole (h : Seamless parse t s w) (rest : List β) :
    parse s (w++rest) = (true,t,rest) := by
  cases h with
  | intro whole waits later => exact whole rest

theorem Seamless.cut (h : Seamless parse t s w) {u v : List β} (hw : w = u++v) (hu : u ≠ [])
    (hv : v ≠ []) : ∃ m, parse s u = (false,m,[]) ∧ Seamless parse t m v := by
  cases h with
  | intro whole waits later => exact ⟨_,waits u v hw hu hv,later u v hw hu hv⟩

theorem seamless_intro (whole : ∀ rest, parse s (w++rest) = (true,t,rest))
    (cut : ∀ u v, w = u++v → u ≠ [] → v ≠ [] →
      ∃ m, parse s u = (false,m,[]) ∧ Seamless parse t m v) : Seamless parse t s w := by
  refine .intro whole (fun u v hw hu hv => ?_) (fun u v hw hu hv => ?_)
  · obtain ⟨m,hm,-⟩ := cut u v hw hu hv
    rw [hm]
  · obtain ⟨m,hm,hrest⟩ := cut u v hw hu hv
    rwa [hm]

/-- The rule: what is left to be read is described by the state. -/
theorem seamless_of (P : σ → List β → Prop)
    (whole : ∀ s w, P s w → ∀ rest, parse s (w++rest) = (true,t,rest))
    (cut : ∀ s u v, P s (u++v) → u ≠ [] → v ≠ [] → ∃ m, parse s u = (false,m,[]) ∧ P m v)
    (h : P s w) : Seamless parse t s w := by
  induction hn : w.length using Nat.strongRecOn generalizing s w with
  | ind n ih =>
    refine seamless_intro (whole s w h) fun u v hw hu hv => ?_
    obtain ⟨m,hm,hp⟩ := cut s u v (hw ▸ h) hu hv
    refine ⟨m,hm,ih v.length ?_ hp rfl⟩
    have hlength := List.length_pos_of_ne_nil hu
    rw [← hn, hw, List.length_append]
    omega

theorem Seamless.within {τ : Type*} (get : τ → σ) (set : τ → σ → τ) {p : Parser τ β} {k : τ}
    (hget : ∀ k x, get (set k x) = x) (hset : ∀ k x y, set (set k x) y = set k y)
    (hp : ∀ k cs, p k cs =
      ((parse (get k) cs).1,set k (parse (get k) cs).2.1,(parse (get k) cs).2.2))
    (h : Seamless parse t (get k) w) : Seamless p (set k t) k w := by
  refine seamless_of (fun m w => (∀ x, set m x = set k x) ∧ Seamless parse t (get m) w)
    ?_ ?_ ⟨fun _ => rfl,h⟩
  · rintro m w ⟨hm,hw⟩ rest
    rw [hp, hw.whole rest, hm]
  · rintro m u v ⟨hm,hw⟩ hu hv
    obtain ⟨x,hx,hrest⟩ := hw.cut rfl hu hv
    refine ⟨set m x,by rw [hp, hx],fun y => by rw [hset, hm],?_⟩
    rwa [hget]

/-- Packets are given until the parser is done, or leaves something over, or is
lost. -/
def feed (parse : Parser σ β) (lost : σ → Bool) :
    σ → List (List β) → Option (σ × List β × List (List β))
  | _, [] => none
  | s, p::ps =>
    if (parse s p).1 then some ((parse s p).2.1,(parse s p).2.2,ps)
    else if (parse s p).2.2 ≠ [] ∨ lost (parse s p).2.1 then none
    else feed parse lost (parse s p).2.1 ps

section Feeding
variable {lost : σ → Bool}

theorem feed_done {p : List β} (h : (parse s p).1 = true) (ps : List (List β)) :
    feed parse lost s (p::ps) = some ((parse s p).2.1,(parse s p).2.2,ps) := if_pos h

theorem feed_stop {p : List β} (h : (parse s p).1 = false)
    (hr : (parse s p).2.2 ≠ [] ∨ lost (parse s p).2.1 = true) (ps : List (List β)) :
    feed parse lost s (p::ps) = none := by simp [feed, h, hr]

theorem feed_more {p : List β} (h : (parse s p).1 = false)
    (hr : ¬ ((parse s p).2.2 ≠ [] ∨ lost (parse s p).2.1 = true)) (ps : List (List β)) :
    feed parse lost s (p::ps) = feed parse lost (parse s p).2.1 ps := by simp [feed, h, hr]

theorem feed_one {p : List β} {ps : List (List β)} {rest : List β}
    (h : feed parse lost s [p] = some (t,rest,ps)) : parse s p = (true,t,rest) ∧ ps = [] := by
  cases hd : (parse s p).1 with
  | true =>
    rw [feed_done hd] at h
    simp only [Option.some.injEq, Prod.mk.injEq] at h
    exact ⟨Prod.ext hd (Prod.ext h.1 h.2.1),h.2.2.symm⟩
  | false =>
    by_cases hr : (parse s p).2.2 ≠ [] ∨ lost (parse s p).2.1 = true
    · rw [feed_stop hd hr] at h
      exact absurd h (by simp)
    · rw [feed_more hd hr] at h
      exact absurd h (by simp [feed])

theorem feed_append {packets ps : List (List β)} {rest : List β}
    (h : feed parse lost s packets = some (t,rest,ps)) (qs : List (List β)) :
    feed parse lost s (packets++qs) = some (t,rest,ps++qs) := by
  induction packets generalizing s with
  | nil => simp [feed] at h
  | cons p packets ih =>
    rw [List.cons_append]
    cases hd : (parse s p).1 with
    | true =>
      rw [feed_done hd] at h ⊢
      simp only [Option.some.injEq, Prod.mk.injEq] at h ⊢
      exact ⟨h.1,h.2.1,by rw [h.2.2]⟩
    | false =>
      by_cases hr : (parse s p).2.2 ≠ [] ∨ lost (parse s p).2.1 = true
      · rw [feed_stop hd hr] at h
        exact absurd h (by simp)
      · rw [feed_more hd hr] at h ⊢
        exact ih h

theorem feed_used {packets ps : List (List β)} {rest : List β}
    (h : feed parse lost s packets = some (t,rest,ps)) :
    ∃ before p, packets = before ++ p::ps ∧
      feed parse lost s (before++[p]) = some (t,rest,[]) ∧ feed parse lost s before = none := by
  induction packets generalizing s with
  | nil => simp [feed] at h
  | cons p packets ih =>
    cases hd : (parse s p).1 with
    | true =>
      rw [feed_done hd] at h
      simp only [Option.some.injEq, Prod.mk.injEq] at h
      obtain ⟨rfl,rfl,rfl⟩ := h
      exact ⟨[],p,rfl,feed_done hd [],rfl⟩
    | false =>
      by_cases hr : (parse s p).2.2 ≠ [] ∨ lost (parse s p).2.1 = true
      · rw [feed_stop hd hr] at h
        exact absurd h (by simp)
      · rw [feed_more hd hr] at h
        obtain ⟨before,q,rfl,hq,hb⟩ := ih h
        refine ⟨p::before,q,rfl,?_,?_⟩
        · rw [List.cons_append, feed_more hd hr, hq]
        · rw [feed_more hd hr, hb]

theorem feed_last {packets ps : List (List β)} {rest tail : List β} (hw : w ≠ [])
    (hp : packets.flatten = w++tail) (hf : feed parse lost s packets = some (t,rest,ps))
    (hrest : rest++ps.flatten = tail)
    (hall : ∀ qs u, (∀ q ∈ qs, q ∈ packets) → qs.flatten = w++u → feed parse lost s qs ≠ none) :
    ps = [] ↔ packets.dropLast.flatten.length < w.length := by
  obtain ⟨before,last,rfl⟩ := List.eq_nil_or_concat packets |>.resolve_left (by
    rintro rfl
    exact hw (List.append_eq_nil_iff.mp hp.symm).1)
  rw [List.concat_eq_append] at *
  rw [List.dropLast_concat]
  have hlength := congrArg List.length hp
  rw [List.flatten_append, List.flatten_singleton, List.length_append,
    List.length_append] at hlength
  constructor
  · rintro rfl
    by_contra hlong
    -- The packets before the last have the whole text.
    obtain ⟨u,hu⟩ : ∃ u, before.flatten = w++u := by
      rw [List.flatten_append, List.flatten_singleton] at hp
      rcases List.append_eq_append_iff.mp hp with ⟨v,hv,-⟩ | ⟨v,hv,-⟩
      · rw [hv, List.length_append] at hlong
        obtain rfl := List.eq_nil_of_length_eq_zero (show v.length = 0 by omega)
        exact ⟨[],by simpa using hv.symm⟩
      · exact ⟨v,hv⟩
    obtain ⟨⟨x,rest',qs⟩,hx⟩ := Option.ne_none_iff_exists'.mp
      (hall before u (fun q hq => List.mem_append_left _ hq) hu)
    rw [feed_append hx] at hf
    simp at hf
  · intro hshort
    by_contra hne
    obtain ⟨qs,r,rfl⟩ := List.eq_nil_or_concat ps |>.resolve_left hne
    obtain ⟨first,p,hparts,-,-⟩ := feed_used hf
    rw [List.concat_eq_append] at *
    have hlast : last = r := by
      have hsame : before ++ [last] = (first ++ p::qs) ++ [r] := by rw [hparts]; simp
      exact (List.append_inj' hsame rfl).2 |> List.singleton_inj.mp
    have htail := congrArg List.length hrest
    rw [List.flatten_append, List.flatten_singleton, List.length_append, List.length_append,
      ← hlast] at htail
    omega

theorem feed_within {τ : Type*} {p : Parser τ β} {lost' : τ → Bool} (kept : τ → Prop)
    (get : τ → σ) (set close : τ → σ → τ)
    (hp : ∀ k cs, kept k → p k cs = ((parse (get k) cs).1,
      (if (parse (get k) cs).1 then close k else set k) (parse (get k) cs).2.1,
      (parse (get k) cs).2.2))
    (hkept : ∀ k cs, kept k → (parse (get k) cs).1 = false → kept (set k (parse (get k) cs).2.1))
    (hget : ∀ k x, get (set k x) = x) (hclose : ∀ k x y, close (set k x) y = close k y)
    (hlost : ∀ k x, kept k → lost' (set k x) = lost x) {k : τ} (hk : kept k)
    (packets : List (List β)) :
    feed p lost' k packets =
      (feed parse lost (get k) packets).map (fun x => (close k x.1,x.2)) := by
  induction packets generalizing k with
  | nil => rfl
  | cons cs packets ih =>
    cases hd : (parse (get k) cs).1 with
    | true =>
      have hdone : (p k cs).1 = true := by rw [hp k cs hk, hd]
      rw [feed_done hd, feed_done hdone, hp k cs hk, hd]
      rfl
    | false =>
      have hmore : p k cs = (false,set k (parse (get k) cs).2.1,(parse (get k) cs).2.2) := by
        rw [hp k cs hk, hd]
        rfl
      have hstop : ((p k cs).2.2 ≠ [] ∨ lost' (p k cs).2.1 = true) ↔
          ((parse (get k) cs).2.2 ≠ [] ∨ lost (parse (get k) cs).2.1 = true) := by
        rw [hmore, hlost k _ hk]
      by_cases hr : (parse (get k) cs).2.2 ≠ [] ∨ lost (parse (get k) cs).2.1 = true
      · rw [feed_stop hd hr, feed_stop (by rw [hmore]) (hstop.mpr hr)]
        rfl
      · rw [feed_more hd hr, feed_more (by rw [hmore]) (fun h => hr (hstop.mp h)), hmore,
          ih (hkept k cs hk hd), hget]
        simp only [hclose]

end Feeding

section Loops
variable (done : σ → Prop) (step : σ → β → Bool × σ)

inductive Takes : σ → List β → σ → Prop
  | nil (s : σ) : Takes s [] s
  | cons {s t : σ} {c : β} {cs : List β} (more : ¬ done s) (taken : (step s c).1 = true)
      (rest : Takes (step s c).2 cs t) : Takes s (c::cs) t

variable {done step}

theorem Takes.trans {m : σ} {v : List β} (h : Takes done step s v m) (g : Takes done step m w t) :
    Takes done step s (v++w) t := by
  induction h with
  | nil s => exact g
  | cons more taken rest ih => exact .cons more taken (ih g)

theorem Takes.next {m : σ} {c : β} (more : ¬ done s) (h : step s c = (true,m))
    (rest : Takes done step m w t) : Takes done step s (c::w) t :=
  .cons more (by rw [h]) (by rwa [h])

theorem Takes.repeat (state : List β → σ) (more : ∀ v, ¬ done (state v)) (v : List β)
    (h : ∀ c ∈ w, ∀ v, step (state v) c = (true,state (v++[c]))) :
    Takes done step (state v) w (state (v++w)) := by
  induction w generalizing v with
  | nil => simpa using Takes.nil (state v)
  | cons c w ih =>
    have hrest := ih (v++[c]) (fun d hd => h d (by simp [hd]))
    rw [List.append_assoc] at hrest
    exact .next (more v) (h c (by simp) v) hrest

variable (parse done step) in
/-- The parser is a loop of steps, on the states that it keeps to. -/
structure Loop (kept : σ → Prop) (close : σ → σ) : Prop where
  nil : ∀ s, kept s → ¬ done s → parse s [] = (false,s,[])
  cons : ∀ s c cs, kept s → ¬ done s → (step s c).1 = true →
    parse s (c::cs) = parse (step s c).2 cs
  done : ∀ s cs, kept s → done s → parse s cs = (true,close s,cs)
  keeps : ∀ s c, kept s → (step s c).1 = true → kept (step s c).2

variable {kept : σ → Prop} {close : σ → σ}

theorem Loop.takes (hl : Loop parse done step kept close) (hk : kept s)
    (h : Takes done step s w t) (rest : List β) : parse s (w++rest) = parse t rest ∧ kept t := by
  induction h with
  | nil s => exact ⟨rfl,hk⟩
  | @cons s t c cs more taken _ ih =>
    obtain ⟨hp,ht⟩ := ih (hl.keeps s c hk taken)
    exact ⟨(hl.cons s c _ hk more taken).trans hp,ht⟩

theorem Takes.split {u v : List β} (h : Takes done step s (u++v) t) :
    ∃ m, Takes done step s u m ∧ Takes done step m v t := by
  induction u generalizing s with
  | nil => exact ⟨s,.nil s,h⟩
  | cons c u ih =>
    cases h with
    | cons more taken rest =>
      obtain ⟨m,hu,hv⟩ := ih rest
      exact ⟨m,.cons more taken hu,hv⟩

theorem Loop.seamless (hl : Loop parse done step kept close) (hk : kept s)
    (h : Takes done step s w t) (ht : done t) : Seamless parse (close t) s w := by
  refine seamless_of (fun s w => kept s ∧ Takes done step s w t) ?_ ?_ ⟨hk,h⟩
  · rintro s w ⟨hs,hw⟩ rest
    obtain ⟨hp,hkt⟩ := hl.takes hs hw rest
    rw [hp, hl.done t rest hkt ht]
  · rintro s u v ⟨hs,hw⟩ - hv
    obtain ⟨m,hu,hrest⟩ := hw.split
    obtain ⟨hp,hm⟩ := hl.takes hs hu []
    have hmore : ¬ done m := by
      cases hrest with
      | nil s => exact absurd rfl hv
      | cons more taken rest => exact more
    rw [List.append_nil, hl.nil m hm hmore] at hp
    exact ⟨m,hp,hm,hrest⟩

theorem Loop.fed (hl : Loop parse done step kept close) {lost : σ → Bool}
    (hlost : ∀ s, kept s → lost s = false) (hk : kept s) (h : Takes done step s w t)
    (ht : done t) (hw : w ≠ []) {packets : List (List β)} {tail : List β}
    (hp : packets.flatten = w++tail) :
    ∃ before p rest ps, packets = before ++ p::ps ∧ w++rest = before.flatten++p ∧
      before.flatten.length < w.length ∧ feed parse lost s packets = some (close t,rest,ps) := by
  induction packets generalizing s w with
  | nil => exact absurd (List.append_eq_nil_iff.mp hp.symm).1 hw
  | cons p ps ih =>
    have hfirst : ∀ rest, p = w++rest → ∃ before q rest' qs, p::ps = before ++ q::qs ∧
        w++rest' = before.flatten++q ∧ before.flatten.length < w.length ∧
          feed parse lost s (p::ps) = some (close t,rest',qs) := by
      rintro rest rfl
      obtain ⟨hrest,hkt⟩ := hl.takes hk h rest
      rw [hl.done t rest hkt ht] at hrest
      refine ⟨[],w++rest,rest,ps,rfl,rfl,List.length_pos_of_ne_nil hw,?_⟩
      rw [feed_done (by rw [hrest]), hrest]
    rw [List.flatten_cons] at hp
    rcases List.append_eq_append_iff.mp hp with ⟨v,rfl,hps⟩ | ⟨rest,hrest,-⟩
    · by_cases hv : v = []
      · subst hv
        exact hfirst [] (by simp)
      · obtain ⟨m,hu,hm⟩ := h.split
        obtain ⟨hpm,hkm⟩ := hl.takes hk hu []
        have hmore : ¬ done m := by
          cases hm with
          | nil s => exact absurd rfl hv
          | cons more taken rest => exact more
        rw [List.append_nil, hl.nil m hkm hmore] at hpm
        obtain ⟨before,q,rest,qs,rfl,hq,hlt,hfeed⟩ := ih hkm hm hv hps
        refine ⟨p::before,q,rest,qs,rfl,?_,?_,?_⟩
        · rw [List.append_assoc, hq, List.flatten_cons, List.append_assoc]
        · rw [List.flatten_cons, List.length_append, List.length_append]
          omega
        · rw [feed_more (by rw [hpm]) (by simp [hpm, hlost m hkm]), hpm, hfeed]
    · exact hfirst rest hrest

end Loops

section Sequences
variable (ready : σ → Bool) (p q : Parser σ β)

def andThen : Parser σ β := fun s cs =>
  if ready s then q s cs
  else if (p s cs).1 then q (p s cs).2.1 (p s cs).2.2 else p s cs

variable {ready p q} {m : σ} {v : List β}

theorem Seamless.second (hkeep : ∀ s cs, ready s = true → ready (q s cs).2.1 = true)
    (hs : ready s = true) (h : Seamless q t s w) : Seamless (andThen ready p q) t s w := by
  refine seamless_of (fun s w => ready s = true ∧ Seamless q t s w) ?_ ?_ ⟨hs,h⟩
  · rintro s w ⟨hr,hw⟩ rest
    exact (if_pos hr).trans (hw.whole rest)
  · rintro s u v ⟨hr,hw⟩ hu hv
    obtain ⟨m,hm,hrest⟩ := hw.cut rfl hu hv
    have hready := hkeep s u hr
    rw [hm] at hready
    exact ⟨m,(if_pos hr).trans hm,hready,hrest⟩

theorem Seamless.andThen (hfirst : ∀ s cs, ready s = false → (p s cs).1 = false →
      ready (p s cs).2.1 = false)
    (hsecond : ∀ s cs, ready s = true → ready (q s cs).2.1 = true)
    (hs : ready s = false) (hm : ready m = true) (hidle : q m [] = (false,m,[]))
    (h : Seamless p m s v) (g : Seamless q t m w) (hw : w ≠ []) :
    Seamless (Incremental.andThen ready p q) t s (v++w) := by
  have hthrough {s : σ} {v : List β} (hr : ready s = false) (hv : Seamless p m s v)
      (rest : List β) : Incremental.andThen ready p q s (v++rest) = q m rest := by
    simp [Incremental.andThen, hr, hv.whole rest]
  induction hn : v.length using Nat.strongRecOn generalizing s v with
  | ind n ih =>
    refine seamless_intro (fun rest => ?_) fun a b hab ha hb => ?_
    · rw [List.append_assoc, hthrough hs h, g.whole rest]
    · rcases List.append_eq_append_iff.mp hab with ⟨u,rfl,rfl⟩ | ⟨u,rfl,rfl⟩
      · by_cases hu : u = []
        · subst hu
          exact ⟨m,(hthrough hs h []).trans hidle,g.second hsecond hm⟩
        · obtain ⟨k,hk,hrest⟩ := g.cut rfl hu hb
          have hready := hsecond m u hm
          rw [hk] at hready
          exact ⟨k,(hthrough hs h u).trans hk,hrest.second hsecond hready⟩
      · by_cases hu : u = []
        · subst hu
          rw [List.append_nil] at h
          have hend := hthrough hs h []
          rw [List.append_nil] at hend
          exact ⟨m,hend.trans hidle,g.second hsecond hm⟩
        · obtain ⟨k,hk,hrest⟩ := h.cut rfl ha hu
          have hready := hfirst s a hs (by rw [hk])
          rw [hk] at hready
          have hlength := List.length_pos_of_ne_nil ha
          rw [List.length_append] at hn
          exact ⟨k,by simp [Incremental.andThen, hs, hk],ih u.length (by omega) hready hrest rfl⟩

end Sequences

section Receivers
variable {υ : Type*}

def outputs (receive : σ → List β → υ × σ) (s : σ) (packets : List (List β)) : List (υ × σ) :=
  Machine.answers (fun s cs => (receive s cs,(receive s cs).2)) s packets

theorem outputs_cons (receive : σ → List β → υ × σ) (s : σ) (cs : List β)
    (packets : List (List β)) : outputs receive s (cs::packets) =
      receive s cs :: outputs receive (receive s cs).2 packets := rfl

theorem outputs_append (receive : σ → List β → υ × σ) (s : σ) (packets qs : List (List β)) :
    outputs receive s (packets++qs) =
      outputs receive s packets ++ outputs receive (Machine.final receive s packets) qs := by
  induction packets generalizing s with
  | nil => rfl
  | cons cs packets ih => exact congrArg (receive s cs :: ·) (ih _)

theorem outputs_last {receive : σ → List β → υ × σ} (P : σ → Prop) {waiting : υ}
    (hstep : ∀ s cs, P s → (receive s cs).1 = waiting → P (receive s cs).2) (hs : P s)
    {packets : List (List β)} {quiet : List (υ × σ)} {a : υ × σ}
    (h : outputs receive s packets = quiet++[a]) (hq : ∀ b ∈ quiet, b.1 = waiting) :
    ∃ m cs, P m ∧ receive m cs = a := by
  induction quiet generalizing s packets with
  | nil =>
    cases packets with
    | nil => exact absurd h.symm (List.cons_ne_nil _ _)
    | cons cs packets =>
      rw [outputs_cons] at h
      exact ⟨s,cs,hs,(List.cons.inj h).1⟩
  | cons b quiet ih =>
    cases packets with
    | nil => exact absurd h.symm (List.cons_ne_nil _ _)
    | cons cs packets =>
      rw [outputs_cons, List.cons_append] at h
      obtain ⟨rfl,hrest⟩ := List.cons.inj h
      rw [List.forall_mem_cons] at hq
      exact ih (hstep s cs hs hq.1) hrest hq.2

/-- A receiver that waits for its head, and for every packet from there on has
its content. -/
structure Headed (receive : σ → List β → υ × σ) (head : Parser σ β) (lost held : σ → Bool)
    (content : Bool → σ → List β → υ × σ) (waiting invalid : υ) (cleared : σ) : Prop where
  done : ∀ s cs, held s = false → (head s cs).1 = true →
    receive s cs = content true (head s cs).2.1 (head s cs).2.2
  stop : ∀ s cs, held s = false → (head s cs).1 = false →
    (head s cs).2.2 ≠ [] ∨ lost (head s cs).2.1 = true → receive s cs = (invalid,cleared)
  more : ∀ s cs, held s = false → (head s cs).1 = false →
    ¬ ((head s cs).2.2 ≠ [] ∨ lost (head s cs).2.1 = true) →
      receive s cs = (waiting,(head s cs).2.1)
  within : ∀ s cs, held s = true → receive s cs = content false s cs
  held : ∀ s cs, held s = false → held (head s cs).2.1 = (head s cs).1

variable {receive : σ → List β → υ × σ} {head : Parser σ β} {lost held : σ → Bool}
  {content : Bool → σ → List β → υ × σ} {waiting invalid : υ} {cleared : σ}

theorem Headed.outputs (h : Headed receive head lost held content waiting invalid cleared)
    (hs : held s = false) {packets ps : List (List β)} {rest : List β}
    (hf : feed head lost s packets = some (t,rest,ps)) :
    held t = true ∧ ∃ quiet, Incremental.outputs receive s packets =
      quiet ++ content true t rest :: Incremental.outputs receive (content true t rest).2 ps ∧
      ∀ a ∈ quiet, a.1 = waiting := by
  induction packets generalizing s with
  | nil => simp [feed] at hf
  | cons cs packets ih =>
    have hheld := h.held s cs hs
    rw [outputs_cons]
    cases hd : (head s cs).1 with
    | true =>
      rw [feed_done hd] at hf
      simp only [Option.some.injEq, Prod.mk.injEq] at hf
      obtain ⟨rfl,rfl,rfl⟩ := hf
      exact ⟨hheld.trans hd,[],by rw [h.done s cs hs hd]; rfl,by simp⟩
    | false =>
      by_cases hr : (head s cs).2.2 ≠ [] ∨ lost (head s cs).2.1 = true
      · rw [feed_stop hd hr] at hf
        exact absurd hf (by simp)
      · rw [feed_more hd hr] at hf
        obtain ⟨ht,quiet,hquiet,hall⟩ := ih (hheld.trans hd) hf
        refine ⟨ht,(waiting,(head s cs).2.1)::quiet,?_,?_⟩
        · rw [h.more s cs hs hd hr, hquiet]
          rfl
        · rintro a (_ | ⟨_,ha⟩)
          · rfl
          · exact hall a ha

theorem Headed.reached (h : Headed receive head lost held content waiting invalid cleared)
    (hs : held s = false) {packets ps : List (List β)} {rest : List β}
    (hf : feed head lost s packets = some (t,rest,ps)) :
    ∃ before p, packets = before ++ p::ps ∧
      receive (Machine.final receive s before) p = content true t rest := by
  induction packets generalizing s with
  | nil => simp [feed] at hf
  | cons cs packets ih =>
    have hheld := h.held s cs hs
    cases hd : (head s cs).1 with
    | true =>
      rw [feed_done hd] at hf
      simp only [Option.some.injEq, Prod.mk.injEq] at hf
      obtain ⟨rfl,rfl,rfl⟩ := hf
      exact ⟨[],cs,rfl,h.done s cs hs hd⟩
    | false =>
      by_cases hr : (head s cs).2.2 ≠ [] ∨ lost (head s cs).2.1 = true
      · rw [feed_stop hd hr] at hf
        exact absurd hf (by simp)
      · rw [feed_more hd hr] at hf
        obtain ⟨before,p,rfl,hp⟩ := ih (hheld.trans hd) hf
        refine ⟨cs::before,p,rfl,?_⟩
        rw [Machine.final, h.more s cs hs hd hr]
        exact hp

theorem gather_outputs {returned : υ} (part : List β → σ) {whole : List β}
    (hmore : ∀ b cs v, b++cs++v = whole → v ≠ [] → receive (part b) cs = (waiting,part (b++cs)))
    (hlast : ∀ b cs, b++cs = whole → receive (part b) cs = (returned,t)) (b : List β)
    {packets : List (List β)} (hn : packets ≠ []) (hfull : ∀ p ∈ packets.tail, p ≠ [])
    (hp : b++packets.flatten = whole) :
    ∃ quiet, outputs receive (part b) packets = quiet ++ [(returned,t)] ∧
      ∀ a ∈ quiet, a.1 = waiting := by
  induction packets generalizing b with
  | nil => exact absurd rfl hn
  | cons cs ps ih =>
    rw [List.flatten_cons, ← List.append_assoc] at hp
    rw [outputs_cons]
    cases ps with
    | nil =>
      rw [List.flatten_nil, List.append_nil] at hp
      exact ⟨[],by rw [hlast b cs hp]; rfl,by simp⟩
    | cons q qs =>
      have hv : (q::qs).flatten ≠ [] := by simp [hfull q (by simp)]
      obtain ⟨quiet,hquiet,hall⟩ := ih (b++cs) (by simp)
        (fun p hp => hfull p (List.mem_of_mem_tail hp)) hp
      refine ⟨(waiting,part (b++cs))::quiet,?_,?_⟩
      · rw [hmore b cs _ hp hv, hquiet]
        rfl
      · rintro a (_ | ⟨_,ha⟩)
        · rfl
        · exact hall a ha

theorem gather_waits (part : List β → σ) {whole : List β}
    (hmore : ∀ b cs v, b++cs++v = whole → v ≠ [] → receive (part b) cs = (waiting,part (b++cs)))
    (b : List β) {packets : List (List β)} {v : List β} (hp : b++packets.flatten++v = whole)
    (hv : v ≠ []) : ∀ a ∈ outputs receive (part b) packets, a.1 = waiting := by
  induction packets generalizing b with
  | nil => simp [Incremental.outputs, Machine.answers]
  | cons cs ps ih =>
    rw [List.flatten_cons] at hp
    have hstep := hmore b cs (ps.flatten++v) (by simpa using hp) (by simp [hv])
    rw [outputs_cons, List.forall_mem_cons, hstep]
    exact ⟨rfl,ih (b++cs) (by simpa using hp)⟩

end Receivers

end RethinkLog.Incremental
