import RethinkLog.MessageHead

/-!
# The bodies of messages

A body without chunks is put together from what its packets have of it. A
receiver that holds a message with a part of its body waits for the rest, and
returns the message with the whole of it.
-/

set_option autoImplicit false

namespace RethinkLog.Via
open Incremental

def MessageHeaders.takeBody (h : MessageHeaders) (body cs : Bytes) : RxState × Bytes :=
  Via.takeBody h.contentLength (h.find HeaderId.contentLength.lowercaseName) body cs

theorem takeBody_part {whole : Bytes} (hn : whole.length < 2^63) (field : Bytes) {b cs v : Bytes}
    (h : b++cs++v = whole) :
    takeBody whole.length field b cs = (if v = [] then .valid else .incomplete,b++cs) := by
  have hlength := congrArg List.length h
  simp only [List.length_append] at hlength
  have hmax : whole.length ≠ Http.ulongMax := by
    simp only [Http.ulongMax]
    omega
  have hfield : ¬ (cs ≠ [] ∧ whole.length = 0 ∧ field = []) := by
    rintro ⟨hcs,hzero,-⟩
    exact hcs (List.eq_nil_of_length_eq_zero (by omega))
  have hrequired : required whole.length b = (cs.length : ℤ)+v.length := by
    rw [required, Int.bmod_eq_of_le (by omega) (by omega)]
    omega
  have hextended : extended whole.length b cs = b++cs := by
    rw [extended, hrequired, if_neg (by omega)]
  rw [takeBody, if_neg hmax, if_neg hfield, hrequired, if_neg (by omega), hextended,
    List.length_append]
  by_cases hv : v = []
  · subst hv
    rw [List.length_nil] at hlength
    rw [if_pos (by omega), if_pos rfl]
  · have hpos := List.length_pos_of_ne_nil hv
    rw [if_neg (by omega), if_neg hv]

theorem append_concat {α : Type*} {as bs cs : List α} {c : α} (h : as++bs = cs++[c])
    (hb : bs ≠ []) : ∃ ds, cs = as++ds ∧ bs = ds++[c] := by
  obtain ⟨ds,d,rfl⟩ := List.eq_nil_or_concat bs |>.resolve_left hb
  rw [List.concat_eq_append, ← List.append_assoc] at h
  obtain ⟨rfl,hd⟩ := List.append_inj' h rfl
  exact ⟨ds,rfl,by rw [List.concat_eq_append, hd]⟩

section Receivers
variable {ρ σ : Type}

/-- A receiver holds a message with a part of its body. It returns the whole
body with the message, and an error clears it. -/
structure Carrier (receive : σ → Bytes → RxState × σ)
    (content : Bool → σ → Bytes → RxState × σ) (headers : ρ → MessageHeaders)
    (hold full : ρ → Bytes → σ) (held : σ → Bool) (cleared : σ) : Prop where
  holds : ∀ r b, held (hold r b) = held (hold r [])
  within : ∀ s cs, held s = true → receive s cs = content false s cs
  content : ∀ r b parsed cs, (headers r).isChunked = false → content parsed (hold r b) cs =
    settled cleared (hold r) (full r) ((headers r).takeBody b cs)

variable {receive : σ → Bytes → RxState × σ} {content : Bool → σ → Bytes → RxState × σ}
  {headers : ρ → MessageHeaders} {hold full : ρ → Bytes → σ} {held lost : σ → Bool} {cleared s : σ}
  {head : Parser σ UInt8} (hc : Carrier receive content headers hold full held cleared)
  (hh : Headed receive head lost held content .incomplete .invalid cleared)
  {r : ρ} (hr : (headers r).isChunked = false)
include hc hr

theorem Carrier.part (hv : held (hold r []) = true) {whole : Bytes} (hn : whole.length < 2^63)
    (hl : (headers r).contentLength = whole.length) {b cs v : Bytes} (h : b++cs++v = whole) :
    receive (hold r b) cs =
      if v = [] then (.valid,full r (b++cs)) else (.incomplete,hold r (b++cs)) := by
  have htake : (headers r).takeBody b cs = (if v = [] then .valid else .incomplete,b++cs) := by
    rw [MessageHeaders.takeBody, hl, takeBody_part hn _ h]
  rw [hc.within _ _ ((hc.holds r b).trans hv), hc.content r b false cs hr, htake]
  by_cases hv : v = [] <;> simp [hv, settled]

include hh
variable (hs : held s = false) {packets ps : List Bytes} {rest : Bytes}
  (hf : feed head lost s packets = some (hold r [],rest,ps))
include hs hf

theorem Carrier.outputs : held (hold r []) = true ∧ ∃ quiet,
    outputs receive s packets = quiet ++ Incremental.outputs receive (hold r []) (rest::ps) ∧
      ∀ a ∈ quiet, a.1 = .incomplete := by
  obtain ⟨hv,quiet,hquiet,hall⟩ := hh.outputs hs hf
  have hfirst : content true (hold r []) rest = receive (hold r []) rest := by
    rw [hc.within _ _ hv, hc.content r [] true rest hr, hc.content r [] false rest hr]
  rw [hfirst, ← outputs_cons] at hquiet
  exact ⟨hv,quiet,hquiet,hall⟩

theorem Carrier.carried {body : Bytes} (hn : body.length < 2^63)
    (hl : (headers r).contentLength = body.length) (hfull : ∀ p ∈ ps, p ≠ [])
    (hp : rest++ps.flatten = body) :
    ∃ quiet, Incremental.outputs receive s packets = quiet ++ [(.valid,full r body)] ∧
      ∀ a ∈ quiet, a.1 = .incomplete := by
  obtain ⟨hv,quiet,hquiet,hall⟩ := hc.outputs hh hr hs hf
  obtain ⟨more,hmore,hwait⟩ := gather_outputs (hold r)
    (fun b cs v h hne => (hc.part hr hv hn hl h).trans (if_neg hne))
    (fun b cs h => by
      have hlast := hc.part hr hv hn hl ((List.append_nil (b++cs)).trans h)
      rwa [if_pos rfl, h] at hlast) [] (List.cons_ne_nil rest ps) hfull hp
  refine ⟨quiet++more,by rw [hquiet, hmore, List.append_assoc],fun a ha => ?_⟩
  rcases List.mem_append.mp ha with ha | ha
  · exact hall a ha
  · exact hwait a ha

theorem Carrier.returned {quiet : List (RxState × σ)} {x : σ}
    (ho : Incremental.outputs receive s packets = quiet ++ [(.valid,x)])
    (hq : ∀ a ∈ quiet, a.1 = .incomplete) :
    ∃ b, x = full r b ∧ b.length = (headers r).contentLength := by
  obtain ⟨hv,before,hbefore,-⟩ := hc.outputs hh hr hs hf
  rw [hbefore] at ho
  obtain ⟨more,rfl,hmore⟩ := append_concat ho (by simp [outputs_cons])
  have hstep (b cs : Bytes) :=
    (hc.within _ cs ((hc.holds r b).trans hv)).trans (hc.content r b false cs hr)
  have hkept (m : σ) (cs : Bytes) (hm : ∃ b, m = hold r b) (hw : (receive m cs).1 = .incomplete) :
      ∃ b, (receive m cs).2 = hold r b := by
    obtain ⟨b,rfl⟩ := hm
    rw [hstep] at hw ⊢
    generalize (headers r).takeBody b cs = p at hw ⊢
    obtain ⟨st,body⟩ := p
    obtain rfl : st = .incomplete := hw
    exact ⟨body,rfl⟩
  obtain ⟨m,cs,⟨b,rfl⟩,hlast⟩ := outputs_last (fun m => ∃ b, m = hold r b) hkept ⟨[],rfl⟩ hmore
    (fun a ha => hq a (List.mem_append_right before ha))
  have hlength := takeBody_valid (headers r).contentLength
    ((headers r).find HeaderId.contentLength.lowercaseName) b cs
  rw [hstep, MessageHeaders.takeBody] at hlast
  generalize takeBody _ _ b cs = p at hlast hlength
  obtain ⟨st,body⟩ := p
  obtain ⟨rfl,rfl⟩ := Prod.mk.inj hlast
  exact ⟨body,rfl,hlength rfl⟩

theorem Carrier.starved {body : Bytes} (hn : (headers r).contentLength < 2^63)
    (hl : body.length < (headers r).contentLength) (hp : rest++ps.flatten = body) :
    ∀ a ∈ Incremental.outputs receive s packets, a.1 = .incomplete := by
  obtain ⟨hv,quiet,hquiet,hall⟩ := hc.outputs hh hr hs hf
  let missing : Bytes := List.replicate ((headers r).contentLength-body.length) 0
  have hlength : (body++missing).length = (headers r).contentLength := by
    simp only [missing, List.length_append, List.length_replicate]
    omega
  have hmissing : missing ≠ [] := by
    apply List.ne_nil_of_length_pos
    simp only [missing, List.length_replicate]
    omega
  have hwait : ∀ a ∈ Incremental.outputs receive (hold r []) (rest::ps), a.1 = .incomplete :=
    gather_waits (hold r)
      (fun b cs v h hne => (hc.part hr hv (hlength ▸ hn) hlength.symm h).trans (if_neg hne)) []
      (by rw [List.nil_append, List.flatten_cons, hp]) hmissing
  intro a ha
  rw [hquiet] at ha
  rcases List.mem_append.mp ha with ha | ha
  · exact hall a ha
  · exact hwait a ha

end Receivers

end RethinkLog.Via
