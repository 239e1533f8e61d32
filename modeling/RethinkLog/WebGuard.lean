import RethinkLog.MessageText
import RethinkLog.RequestReading

/-!
# The size guard of the admin service

The guard stands in the handler of the expectation to continue, and the
receiver raises an expectation only for a request in chunks, when it has seen
the fields for it. A body without chunks is taken whole and answered, whatever
its length.
-/

set_option autoImplicit false

namespace RethinkLog.Via
open Http

namespace Field

def IsCalled (f : Field) (name : Bytes) : Prop := toLower f.name = name

instance (f : Field) (name : Bytes) : Decidable (f.IsCalled name) :=
  inferInstanceAs (Decidable (_ = _))

def value (f : Field) : Bytes := f.content.dropWhile isSpaceOrTab

end Field

namespace Request

structure Demands (q : Request) (n : ℕ) : Prop where
  trace : q.method ≠ ascii "TRACE"
  host : ∃ f ∈ q.fields, f.IsCalled (ascii "host")
  expect : ∃ f ∈ q.fields, f.IsCalled (ascii "expect") ∧
    toLower f.value = ascii "100-continue"
  sized : ∃ f ∈ q.fields, f.IsCalled (ascii "content-length")
  length : ∀ f ∈ q.fields, f.IsCalled (ascii "content-length") → f.value = Decimal.natural n
  large : WebAdmin.maxLength < n

def InChunks (q : Request) : Prop := ∃ f ∈ q.fields, f.IsCalled (ascii "transfer-encoding")

structure Carries (q : Request) (n : ℕ) (payload : Bytes) : Prop where
  chunks : q.InChunks → ∃ parts : List Bytes, (∀ p ∈ parts, p ≠ []) ∧
    payload = parts.flatMap (sendChunk · []) ++ lastChunk [] []
  whole : ¬ q.InChunks → payload.length = n

def expects (q : Request) (fields : List (Bytes × Bytes)) : Bool :=
  contains (ascii "100-continue") (toLower ((q.shown fields).find (ascii "expect")))

end Request

/-- The fields that are read bring the request before the guard, and nothing
behind them is an error. -/
def Exposed (q : Request) (packets : List Bytes) : Prop :=
  (∀ c ∈ q.method, isUpper c = true) ∧
    ∃ fields rest, reading q.fields (advance q.firstLine.length packets) = some (fields,rest) ∧
      Connection.Guarded (q.shown fields) (q.expects fields) ∧ ¬ Refuses rest

theorem expects_shown {r : RxRequest} {q : Request} {fields : List (Bytes × Bytes)}
    (h : r.shown = q.shown fields) : r.expectContinue = q.expects fields := by
  have hmajor : r.line.majorVersion = 1 := congrArg Http.RxRequest.majorVersion h
  have hminor : r.line.minorVersion = 1 := congrArg Http.RxRequest.minorVersion h
  simp [RxRequest.expectContinue, Request.expects, hmajor, hminor, h]

theorem refused_plain {w : Bytes} (h : w.all Field.plain = true) (packets : List Bytes) :
    refused w packets = false := by
  induction w generalizing packets with
  | nil => rfl
  | cons c w ih =>
    obtain ⟨hc,hw⟩ := Bool.and_eq_true_iff.mp h
    rw [refused, ih hw, hc]
    rfl

theorem advance_text (v w : Bytes) (ps : List Bytes) : advance v.length ((v++w)::ps) = w::ps := by
  simp [advance]

theorem reading_whole (fields : List Field) (h : ∀ f ∈ fields, f.name.all Field.plain = true)
    (rest : Bytes) (ps : List Bytes) :
    reading fields ((fields.flatMap Field.line ++ (crlf++rest))::ps) =
      some (fields.map Field.kept,rest) := by
  induction fields with
  | nil =>
    have hend := advance_text crlf rest ps
    simp only [reading, left, List.flatMap_nil, List.nil_append, List.map_nil]
    rw [show 2 = crlf.length from rfl, hend]
    rfl
  | cons f fields ih =>
    have htext : (f::fields).flatMap Field.line ++ (crlf++rest) =
        (f.name ++ 58::f.content) ++ (crlf ++ (fields.flatMap Field.line ++ (crlf++rest))) := by
      simp [Field.line]
    have hlength : f.name.length+1+f.content.length = (f.name ++ 58::f.content).length := by
      simp
      omega
    have hbehind := advance_text (f.name ++ 58::f.content)
      (crlf ++ (fields.flatMap Field.line ++ (crlf++rest))) ps
    have hnext := advance_text crlf (fields.flatMap Field.line ++ (crlf++rest)) ps
    rw [← hlength, ← Field.behind, ← htext] at hbehind
    have hcut : cut ((crlf ++ (fields.flatMap Field.line ++ (crlf++rest)))::ps) = false := rfl
    rw [reading, refused_plain (h f (by simp)), hbehind, hcut]
    rw [show crlf.length = 2 from rfl] at hnext
    rw [if_neg (by simp), if_neg (by simp), hnext, ih (fun g hg => h g (by simp [hg]))]
    rfl

variable (files : Bytes → Bytes)

theorem first_exposed {q : Request} (hq : q.WellFormed) {payload : Bytes} {packets : List Bytes}
    (hp : Holds packets (q.text++payload)) :
    Connection.first files packets = some 413 ↔ Exposed q packets := by
  unfold Connection.first Connection.ready Exposed
  refine (Connection.first_guarded files .cleared rfl packets).trans ?_
  by_cases hm : ∀ c ∈ q.method, isUpper c = true
  · have hseen := Connection.request_heard hq hm hp
    simp only [Connection.seen] at hseen
    constructor
    · rintro ⟨r,rest,hr,hg,he⟩
      rw [hr] at hseen
      obtain ⟨x,hx,hs⟩ := Option.map_eq_some_iff.mp hseen.symm
      obtain ⟨hs,rfl⟩ := Prod.mk.inj hs
      exact ⟨hm,x.1,x.2,hx,by rwa [hs, ← expects_shown hs.symm],he⟩
    · rintro ⟨-,fields,rest,hr,hg,he⟩
      rw [hr] at hseen
      obtain ⟨x,hx,hs⟩ := Option.map_eq_some_iff.mp hseen
      obtain ⟨hs,rfl⟩ := Prod.mk.inj hs
      exact ⟨x.1,x.2,hx,by rwa [hs, expects_shown hs],he⟩
  · rw [Request.text, Request.firstLine] at hp
    simp only [List.append_assoc] at hp
    rw [Connection.method_refused hq hm hp]
    simp [hm]

/-- However a request is split into packets, the first response is 413 exactly
when the guard gets to see it. -/
theorem guard_iff {q : Request} (hq : q.WellFormed) (payload : Bytes) {packets : List Bytes}
    (hn : ∀ p ∈ packets, p ≠ []) (hp : packets.flatten = q.text ++ payload) :
    Connection.first files packets = some 413 ↔ Exposed q packets :=
  first_exposed files hq ⟨hp,fun p hm => hn p (List.mem_of_mem_tail hm)⟩

theorem head_whole {q : Request} (h : ∀ f ∈ q.fields, f.name.all Field.plain = true)
    (rest : Bytes) (ps : List Bytes) :
    reading q.fields (advance q.firstLine.length ((q.text++rest)::ps)) =
      some (q.fields.map Field.kept,rest) := by
  rw [Request.text, List.append_assoc, List.append_assoc, advance_text]
  exact reading_whole q.fields h rest ps

def asking (coding : List Field) : Request :=
  ⟨ascii "POST",ascii "/",[⟨ascii "Host",ascii " a"⟩,⟨ascii "Expect",ascii " 100-continue"⟩,
    ⟨ascii "Content-Length",ascii " 1048577"⟩] ++ coding⟩

theorem guard_iff_chunked :
    let q := asking [⟨ascii "Transfer-Encoding",ascii " chunked"⟩]
    Connection.first (fun _ => []) [q.text ++ ascii "1\r\nA\r\n0\r\n\r\n"] = some 413 := by
  intro q
  have hwell : q.WellFormed := by decide
  have hread := head_whole (q := q) (by decide) (ascii "1\r\nA\r\n0\r\n\r\n") []
  refine (guard_iff _ hwell (ascii "1\r\nA\r\n0\r\n\r\n") ?_ (by simp)).mpr
    ⟨List.all_eq_true.mp (by decide),_,_,hread,by decide,?_⟩
  · simp [ascii]
  · rintro ⟨h,-⟩
    exact absurd h (by decide)

theorem guard_bypassed :
    ¬ ∀ (files : Bytes → Bytes) (q : Request) (n : ℕ) (payload : Bytes) (packets : List Bytes),
      q.WellFormed → q.Demands n → q.Carries n payload → (∀ p ∈ packets, p ≠ []) →
        packets.flatten = q.text ++ payload → Connection.first files packets = some 413 := by
  intro h
  have hwell : (asking []).WellFormed := by decide
  have hchunks : ¬ (asking []).InChunks := by
    unfold Request.InChunks
    decide
  have hdemands : (asking []).Demands 1048577 := by
    refine ⟨by decide,by decide,by decide,by decide,?_,by decide⟩
    decide
  have hcarries : (asking []).Carries 1048577 (List.replicate 1048577 65) :=
    ⟨fun hc => absurd hc hchunks,fun _ => List.length_replicate⟩
  have hbody : (List.replicate 1048577 [(65 : UInt8)]).flatten = List.replicate 1048577 65 :=
    List.flatten_replicate_singleton
  have hflat : ((asking []).text::List.replicate 1048577 [65]).flatten =
      (asking []).text ++ List.replicate 1048577 65 := by rw [List.flatten_cons, hbody]
  have hfull : ∀ p ∈ (asking []).text::List.replicate 1048577 [65], p ≠ [] := by
    intro p hp
    rcases List.mem_cons.mp hp with rfl | hp
    · simp [Request.text, crlf]
    · simp [List.eq_of_mem_replicate hp]
  have hfirst := h (fun _ => []) (asking []) 1048577 _ _ hwell hdemands hcarries hfull hflat
  obtain ⟨-,fields,rest,hr,⟨hc,-,-⟩,-⟩ := (first_exposed _ hwell
    ⟨hflat,fun p hp => hfull p (List.mem_of_mem_tail hp)⟩).mp hfirst
  have hread := head_whole (q := asking []) (by decide) [] (List.replicate 1048577 [65])
  rw [List.append_nil, hr] at hread
  obtain ⟨rfl,-⟩ := Prod.mk.inj (Option.some.inj hread)
  exact absurd hc (by decide)

end RethinkLog.Via
