import RethinkLog.RequestText

/-!
# What is read of a request

The request line and the field lines are followed byte by byte, over the
packets as they come. A field line is left at its line end: there the field is
kept, or a packet begins and the headers are over. What is heard of a request
is the field lines up to that place.
-/

set_option autoImplicit false

namespace RethinkLog.Via
open Incremental

def amid (l : RequestLine) (fs : List (Bytes × Bytes)) (f : FieldLine) : RxRequest :=
  ⟨l,⟨fs,f,false⟩,false⟩

def ended (l : RequestLine) (fs : List (Bytes × Bytes)) : Http.RxRequest :=
  ⟨l.method,l.uri,l.majorVersion,l.minorVersion,fs,true⟩

theorem token_plain {c : UInt8} (h : isToken c = true) : isEndOfLine c = false ∧ ¬ c = 58 := by
  constructor
  · rcases Bool.eq_false_or_eq_true (isEndOfLine c) with he | he
    · simp only [isEndOfLine, Bool.or_eq_true, decide_eq_true_eq] at he
      rcases he with rfl | rfl <;> exact absurd h (by decide)
    · exact he
  · rintro rfl
    exact absurd h (by decide)

theorem token_blank {c : UInt8} (h : isToken c = true) : isSpaceOrTab c = false := by
  rcases Bool.eq_false_or_eq_true (isSpaceOrTab c) with hb | hb
  · simp only [isSpaceOrTab, Bool.or_eq_true, decide_eq_true_eq] at hb
    rcases hb with rfl | rfl <;> exact absurd h (by decide)
  · exact hb

theorem Field.line_length (f : Field) :
    f.line.length = f.name.length+1+f.content.length+2 := by
  simp [Field.line, crlf]
  omega

theorem next_head (fields : List Field) (hw : ∀ f ∈ fields, f.WellFormed) (t : Bytes) :
    ∃ c s, fields.flatMap Field.line ++ (crlf++t) = c::s ∧ isSpaceOrTab c = false := by
  cases fields with
  | nil => exact ⟨13,10::t,rfl,by decide⟩
  | cons f fields =>
    obtain ⟨c,w,hc⟩ := List.exists_cons_of_ne_nil (hw f (by simp)).named
    refine ⟨c,w ++ 58::(f.content ++ (crlf ++ (fields.flatMap Field.line ++ (crlf++t)))),?_,?_⟩
    · simp [Field.line, hc]
    · exact token_blank ((hw f (by simp)).name c (by simp [hc]))

namespace Connection

def seen (r : RxRequest) (packets : List Bytes) : Option (Http.RxRequest × Bytes) :=
  (heard r packets).map (fun x => (x.1.shown,x.2))

def onward (l : RequestLine) (fs : List (Bytes × Bytes)) (o : Parsed FieldLine)
    (ps : List Bytes) : Option (Http.RxRequest × Bytes) :=
  if o.1 then seen (amid l (fs++[(o.2.1.name,o.2.1.value)]) .cleared) (o.2.2::ps)
  else if o.2.2 ≠ [] then none
  else seen (amid l fs o.2.1) ps

def inside (l : RequestLine) (fs : List (Bytes × Bytes)) (f : FieldLine) :
    List Bytes → Option (Http.RxRequest × Bytes)
  | [] => none
  | p::ps => onward l fs (f.parse p) ps

section Packets
variable {r q : RxRequest} {p rest : Bytes}

theorem seen_done (h : r.parse p = (true,q,rest)) (ps : List Bytes) :
    seen r (p::ps) = some (q.shown,rest) := by
  rw [seen, heard_done (by rw [h]), h]
  rfl

theorem seen_stop (h : r.parse p = (false,q,rest)) (hr : rest ≠ []) (ps : List Bytes) :
    seen r (p::ps) = none := by
  rw [seen, heard_stop (by rw [h]) (.inl (by rwa [h]))]
  rfl

theorem seen_more (h : r.parse p = (false,q,[])) (hf : q.line.fail = false) (ps : List Bytes) :
    seen r (p::ps) = seen q ps := by
  rw [seen, heard_more (by rw [h]) (by simp [h, hf]), h]
  rfl

end Packets

section FieldLines
variable {l : RequestLine} (hl : l.valid = true) (hf : l.fail = false)
  (fs : List (Bytes × Bytes))
include hl hf

theorem seen_nil (f : FieldLine) (ps : List Bytes) :
    seen (amid l fs f) ([]::ps) = seen (amid l fs f) ps := by
  have hparse : (amid l fs f).parse [] = (false,amid l fs f,[]) := by
    simp [RxRequest.parse, RxRequest.parseHeaders, amid, hl, MessageHeaders.parse,
      MessageHeaders.parseFields]
  exact seen_more hparse hf ps

theorem seen_inside (f : FieldLine) {c : UInt8} (hc : isEndOfLine c = false) (p : Bytes)
    (ps : List Bytes) : seen (amid l fs f) ((c::p)::ps) = inside l fs f ((c::p)::ps) := by
  have hfields : MessageHeaders.parseFields ⟨fs,f,false⟩ (c::p) =
      if (f.parse (c::p)).1 then
        MessageHeaders.parseFields (MessageHeaders.add ⟨fs,f,false⟩ (f.parse (c::p)).2.1)
          (f.parse (c::p)).2.2
      else (false,⟨fs,(f.parse (c::p)).2.1,false⟩,(f.parse (c::p)).2.2) := by
    rw [MessageHeaders.parseFields]
    simp [hc]
  change _ = onward l fs (f.parse (c::p)) ps
  generalize f.parse (c::p) = o at hfields ⊢
  obtain ⟨done,g,rest⟩ := o
  cases done with
  | true =>
    have hparse : (amid l fs f).parse (c::p) =
        (amid l (fs++[(g.name,g.value)]) .cleared).parse rest := by
      simp [RxRequest.parse, RxRequest.parseHeaders, amid, hl, MessageHeaders.parse, hfields,
        MessageHeaders.add]
    simp only [seen, onward, heard_congr hparse ps, if_true]
  | false =>
    have hparse : (amid l fs f).parse (c::p) = (false,amid l fs g,rest) := by
      simp [RxRequest.parse, RxRequest.parseHeaders, amid, hl, MessageHeaders.parse, hfields]
    by_cases hr : rest = []
    · subst hr
      rw [seen_more hparse hf]
      rfl
    · rw [seen_stop hparse hr, onward, if_neg (by simp), if_pos hr]

omit hl hf in
theorem inside_nil {f : FieldLine} (he : f.state ≠ .headerEnd) (ps : List Bytes) :
    inside l fs f ([]::ps) = seen (amid l fs f) ps := by
  simp [inside, onward, FieldLine.parse, he]

omit hl hf in
theorem inside_char {f g : FieldLine} {c : UInt8} (he : f.state ≠ .headerEnd)
    (hg : g.state ≠ .headerEnd) (h : f.parseChar c = (true,g)) (p : Bytes) (ps : List Bytes) :
    inside l fs f ((c::p)::ps) = inside l fs g (p::ps) := by
  have hparse : f.parse (c::p) = g.parse p := by
    rw [FieldLine.parse, if_neg he, h, if_pos rfl, FieldLine.continued_state _ _ hg]
  simp only [inside, hparse]

theorem inside_next {f : FieldLine} {c : UInt8} {t : Bytes} {packets : List Bytes}
    (hp : Holds packets (c::t)) (hc : isEndOfLine c = false) (he : f.state ≠ .headerEnd) :
    ∃ p ps, inside l fs f packets = inside l fs f ((c::p)::ps) ∧
      advance 1 packets = p::ps ∧ Holds (p::ps) t := by
  obtain ⟨p,ps,hcase,hone,hrest⟩ := holds_cons hp
  refine ⟨p,ps,?_,hone,hrest⟩
  rcases hcase with rfl | rfl
  · rfl
  · rw [inside_nil fs he, seen_inside hl hf fs f hc]

theorem inside_taken {f g : FieldLine} {c : UInt8} {t : Bytes} {packets : List Bytes}
    (hp : Holds packets (c::t)) (hc : isEndOfLine c = false) (he : f.state ≠ .headerEnd)
    (hg : g.state ≠ .headerEnd) (h : f.parseChar c = (true,g)) :
    inside l fs f packets = inside l fs g (advance 1 packets) ∧ Holds (advance 1 packets) t := by
  obtain ⟨p,ps,heq,hone,hrest⟩ := inside_next hl hf fs hp hc he
  rw [heq, hone, inside_char fs he hg h]
  exact ⟨rfl,hrest⟩

theorem seen_start {f : FieldLine} {c : UInt8} {t : Bytes} {packets : List Bytes}
    (hp : Holds packets (c::t)) (hc : isEndOfLine c = false) (he : f.state ≠ .headerEnd) :
    seen (amid l fs f) packets = inside l fs f packets := by
  obtain ⟨p,ps,rfl | rfl,-,-⟩ := holds_cons hp
  · exact seen_inside hl hf fs f hc p ps
  · rw [seen_nil hl hf, inside_nil fs he]

/-- The letters of a name are kept. Another byte is an error, or it is passed
over at the end of its packet. -/
theorem inside_name (n w t : Bytes) (hw : ∀ c ∈ w, isToken c = true) {packets : List Bytes}
    (hp : Holds packets (w++58::t)) : inside l fs ⟨n,[],.headerName⟩ packets =
      if refused w packets then none
      else inside l fs ⟨n++(w.filter Field.plain).map Http.lower,[],.headerName⟩
        (advance w.length packets) := by
  induction w generalizing n packets with
  | nil => simp [refused, advance_zero]
  | cons c w ih =>
    obtain ⟨hline,hcolon⟩ := token_plain (hw c (by simp))
    obtain ⟨p,ps,heq,hone,hrest⟩ := inside_next hl hf fs hp hline
      (f := ⟨n,[],.headerName⟩) (by simp)
    have htail : ∀ d ∈ w, isToken d = true := fun d hd => hw d (by simp [hd])
    rw [List.length_cons, advance_succ, refused, hone, heq]
    by_cases hk : Field.plain c = true
    · have hchar : FieldLine.parseChar ⟨n,[],.headerName⟩ c =
          (true,⟨n++[Http.lower c],[],.headerName⟩) := if_pos hk
      rw [inside_char fs (by simp) (by simp) hchar, ih _ htail hrest]
      simp [hk]
    · have hchar : FieldLine.parseChar ⟨n,[],.headerName⟩ c = (false,⟨n,[],.headerName⟩) := by
        rw [FieldLine.parseChar]
        exact (if_neg hk).trans (if_neg hcolon)
      have hparse : FieldLine.parse ⟨n,[],.headerName⟩ (c::p) =
          (false,⟨n,[],.headerName⟩,p) := by
        simp [FieldLine.parse, hchar]
      by_cases hs : p = []
      · subst hs
        have hgo : inside l fs ⟨n,[],.headerName⟩ ([c]::ps) =
            inside l fs ⟨n,[],.headerName⟩ ([]::ps) := by
          rw [inside_nil fs (by simp), inside, hparse]
          simp [onward]
        rw [hgo, ih n htail hrest]
        simp [hk, atStart]
      · simp [inside, hparse, onward, hk, hs, atStart]

theorem inside_value (n v w t : Bytes) (hw : ∀ c ∈ w, isEndOfLine c = false)
    {packets : List Bytes} (hp : Holds packets (w++t)) :
    inside l fs ⟨n,v,.headerValue⟩ packets =
      inside l fs ⟨n,v++w,.headerValue⟩ (advance w.length packets) := by
  induction w generalizing v packets with
  | nil => simp [advance_zero]
  | cons c w ih =>
    have hc := hw c (by simp)
    have hchar : FieldLine.parseChar ⟨n,v,.headerValue⟩ c = (true,⟨n,v++[c],.headerValue⟩) := by
      simp [FieldLine.parseChar, FieldLine.parseValue, hc]
    obtain ⟨heq,hrest⟩ := inside_taken hl hf fs hp hc (by simp) (by simp) hchar
    rw [heq, ih _ (fun d hd => hw d (by simp [hd])) hrest, List.length_cons, advance_succ w.length,
      List.append_assoc, List.singleton_append]

theorem inside_content (n w t : Bytes) (hw : ∀ c ∈ w, isEndOfLine c = false)
    {packets : List Bytes} (hp : Holds packets (w++t)) :
    ∃ s : FieldState, (s = .headerValueLS ∨ s = .headerValue) ∧
      inside l fs ⟨n,[],.headerValueLS⟩ packets =
        inside l fs ⟨n,w.dropWhile isSpaceOrTab,s⟩ (advance w.length packets) := by
  induction w generalizing packets with
  | nil => exact ⟨.headerValueLS,Or.inl rfl,by simp [advance_zero]⟩
  | cons c w ih =>
    have hc := hw c (by simp)
    have htail : ∀ d ∈ w, isEndOfLine d = false := fun d hd => hw d (by simp [hd])
    by_cases hb : isSpaceOrTab c = true
    · have hchar : FieldLine.parseChar ⟨n,[],.headerValueLS⟩ c =
          (true,⟨n,[],.headerValueLS⟩) := if_pos hb
      obtain ⟨heq,hrest⟩ := inside_taken hl hf fs hp hc (by simp) (by simp) hchar
      obtain ⟨s,hs,hgo⟩ := ih htail hrest
      refine ⟨s,hs,?_⟩
      rw [heq, hgo, List.length_cons, advance_succ w.length, List.dropWhile_cons_of_pos hb]
    · have hchar : FieldLine.parseChar ⟨n,[],.headerValueLS⟩ c =
          (true,⟨n,[c],.headerValue⟩) := by
        simp [FieldLine.parseChar, FieldLine.parseValue, hb, hc]
      obtain ⟨heq,hrest⟩ := inside_taken hl hf fs hp hc (by simp) (by simp) hchar
      refine ⟨.headerValue,Or.inr rfl,?_⟩
      rw [heq, inside_value hl hf fs n [c] w t htail hrest, List.length_cons, advance_succ w.length,
        List.dropWhile_cons_of_neg hb, List.singleton_append]

omit hf in
/-- A line feed at the head of a packet ends the headers, whatever was read of
a field before. -/
theorem seen_feed (f : FieldLine) (p : Bytes) (ps : List Bytes) :
    seen (amid l fs f) ((10::p)::ps) = some (ended l fs,p) := by
  have hparse : (amid l fs f).parse (10::p) = (true,⟨l,⟨fs,f,true⟩,true⟩,p) := by
    simp [RxRequest.parse, RxRequest.parseHeaders, amid, hl, MessageHeaders.parse,
      MessageHeaders.parseFields, MessageHeaders.afterReturn, isEndOfLine]
  exact seen_done hparse ps

theorem seen_over (f : FieldLine) {packets : List Bytes} {t : Bytes}
    (hp : Holds packets (13::10::t)) :
    seen (amid l fs f) packets = some (ended l fs,left packets) := by
  obtain ⟨p,ps,hcase,hone,hrest⟩ := holds_cons hp
  have hline : seen (amid l fs f) ((13::p)::ps) =
      some (ended l fs,(advance 1 (p::ps)).headD []) := by
    obtain ⟨p',ps',hp' | hp',htwo,-⟩ := holds_cons hrest
    · obtain ⟨rfl,rfl⟩ := List.cons.inj hp'
      have hparse : (amid l fs f).parse (13::10::p') = (true,⟨l,⟨fs,f,true⟩,true⟩,p') := by
        simp [RxRequest.parse, RxRequest.parseHeaders, amid, hl, MessageHeaders.parse,
          MessageHeaders.parseFields, MessageHeaders.afterReturn, isEndOfLine]
      exact seen_done hparse ps
    · obtain ⟨rfl,rfl⟩ := List.cons.inj hp'
      have hparse : (amid l fs f).parse [13] = (false,amid l fs f,[]) := by
        simp [RxRequest.parse, RxRequest.parseHeaders, amid, hl, MessageHeaders.parse,
          MessageHeaders.parseFields, MessageHeaders.afterReturn, isEndOfLine]
      rw [seen_more hparse hf, seen_feed hl, htwo]
      rfl
  rw [left, advance_succ, hone, ← hline]
  rcases hcase with rfl | rfl
  · rfl
  · exact seen_nil hl hf fs f _

theorem inside_end (n v : Bytes) {s : FieldState} (hs : s = .headerValueLS ∨ s = .headerValue)
    {c : UInt8} {t : Bytes} (hc : isSpaceOrTab c = false) {packets : List Bytes}
    (hp : Holds packets (13::10::c::t)) : inside l fs ⟨n,v,s⟩ packets =
      if cut packets then some (ended l fs,left packets)
      else seen (amid l (fs++[(n,v)]) .cleared) (advance 2 packets) := by
  have he : s ≠ .headerEnd := by rcases hs with rfl | rfl <;> simp
  obtain ⟨p,ps,rfl | rfl,hone,hrest⟩ := holds_cons hp
  · have hchar : FieldLine.parseChar ⟨n,v,s⟩ 13 = (true,⟨n,v,.headerLF⟩) := by
      rcases hs with rfl | rfl <;> rfl
    rw [inside_char fs he (by simp) hchar, left, advance_succ, hone]
    obtain ⟨p',ps',hp' | hp',htwo,hlast⟩ := holds_cons hrest
    · obtain ⟨rfl,rfl⟩ := List.cons.inj hp'
      have hblank : p'.head?.any isSpaceOrTab = false := by
        obtain ⟨p'',ps'',h | h,-,-⟩ := holds_cons hlast
        · rw [(List.cons.inj h).1]
          exact hc
        · rw [(List.cons.inj h).1]
          rfl
      have hparse : FieldLine.parse ⟨n,v,.headerLF⟩ (10::p') = (true,⟨n,v,.headerEnd⟩,p') := by
        cases p' <;> simp_all [FieldLine.parse, FieldLine.parseChar, FieldLine.continued]
      have hcut : cut ((13::10::p')::ps) = false := by simp [cut, atStart, advance]
      rw [hcut, htwo, inside, hparse]
      simp [onward]
    · obtain ⟨rfl,rfl⟩ := List.cons.inj hp'
      have hcut : cut ([13]::(10::p')::ps') = true := by simp [cut, atStart, advance]
      rw [hcut, inside_nil fs (by simp), seen_feed hl, htwo]
      rfl
  · have hcut : cut ([]::(13::p)::ps) = true := by simp [cut, atStart]
    rw [hcut, inside_nil fs he, ← seen_nil hl hf, seen_over hl hf fs _ hp]
    rfl

theorem seen_field {f : Field} (hw : f.WellFormed) {c : UInt8} {t : Bytes}
    (hc : isSpaceOrTab c = false) {packets : List Bytes} (hp : Holds packets (f.line++c::t)) :
    seen (amid l fs .cleared) packets =
      if refused f.name packets then none
      else if cut (f.behind packets) then some (ended l fs,left (f.behind packets))
      else seen (amid l (fs++[f.kept]) .cleared) (advance 2 (f.behind packets)) := by
  have htext : f.line++c::t = f.name++58::(f.content++13::10::c::t) := by
    simp [Field.line, crlf]
  rw [htext] at hp
  obtain ⟨b,w,hb⟩ := List.exists_cons_of_ne_nil hw.named
  have hstart := hp
  rw [hb, List.cons_append] at hstart
  have hline := (token_plain (hw.name b (by simp [hb]))).1
  rw [seen_start hl hf fs hstart hline (by simp [FieldLine.cleared]), FieldLine.cleared,
    inside_name hl hf fs [] f.name _ hw.name hp]
  by_cases hr : refused f.name packets = true
  · rw [if_pos hr, if_pos hr]
  · rw [if_neg hr, if_neg hr]
    have hname := holds_advance f.name hp
    obtain ⟨heq,hvalue⟩ := inside_taken hl hf fs hname (c := 58) (by decide) (by simp)
      (by simp) (f := ⟨[]++(f.name.filter Field.plain).map Http.lower,[],.headerName⟩) rfl
    obtain ⟨s,hs,hgo⟩ := inside_content hl hf fs _ f.content _ hw.content hvalue
    have hend := holds_advance f.content hvalue
    rw [heq, hgo, inside_end hl hf fs _ _ hs hc hend, Field.behind, advance_add, advance_add]
    rfl

theorem seen_fields (fields : List Field) (hw : ∀ f ∈ fields, f.WellFormed) (t : Bytes)
    {packets : List Bytes} (hp : Holds packets (fields.flatMap Field.line ++ (crlf++t))) :
    seen (amid l fs .cleared) packets =
      (reading fields packets).map (fun x => (ended l (fs++x.1),x.2)) := by
  induction fields generalizing fs packets with
  | nil =>
    rw [seen_over hl hf fs _ hp]
    simp [reading]
  | cons f fields ih =>
    have hfield := hw f (by simp)
    have htail : ∀ g ∈ fields, g.WellFormed := fun g hg => hw g (by simp [hg])
    obtain ⟨c,s,hs,hc⟩ := next_head fields htail t
    rw [List.flatMap_cons, List.append_assoc, hs] at hp
    have hrest := holds_advance f.line hp
    rw [← hs, f.line_length, advance_add, ← Field.behind] at hrest
    rw [seen_field hl hf fs hfield hc hp, reading]
    by_cases hr : refused f.name packets = true
    · simp [hr]
    · by_cases hcut : cut (f.behind packets) = true
      · simp [hr, hcut]
      · rw [if_neg hr, if_neg hr, if_neg hcut, if_neg hcut, ih (fs++[f.kept]) htail hrest]
        cases reading fields (advance 2 (f.behind packets)) <;> simp

end FieldLines

theorem first_line_takes {q : Request} (hw : q.WellFormed)
    (hm : ∀ c ∈ q.method, isUpper c = true) :
    Takes RequestLine.IsDone RequestLine.parseChar .cleared q.firstLine q.complete := by
  have htext : q.firstLine = q.method ++ 32::(q.uri ++ ascii " HTTP/1.1\r\n") := by
    simp [Request.firstLine]
  have hmethod : Takes RequestLine.IsDone RequestLine.parseChar .cleared q.method
      (naming q.method) := method_takes [] q.method hm
  have hblank : (naming q.method).parseChar 32 = (true,targeting q.method []) := by
    have hcalled : q.method ≠ [] := hw.called
    simp [RequestLine.parseChar, naming, targeting, isUpper, isSpaceOrTab, hcalled]
  have huri : Takes RequestLine.IsDone RequestLine.parseChar (targeting q.method []) q.uri
      (targeting q.method q.uri) := uri_takes q.method [] q.uri hw.uri
  have hversion := protocol_takes q.method q.uri hw.targeted
  rw [htext]
  exact hmethod.trans (.next (by simp [RequestLine.IsDone, naming]) hblank (huri.trans hversion))

theorem method_refused {q : Request} (hw : q.WellFormed)
    (hm : ¬ ∀ c ∈ q.method, isUpper c = true) {t : Bytes} {packets : List Bytes}
    (hp : Holds packets (q.method++t)) : heard .cleared packets = none := by
  have hsplit := List.takeWhile_append_dropWhile (p := isUpper) (l := q.method)
  have hupper : ∀ c ∈ q.method.takeWhile isUpper, isUpper c = true :=
    fun c hc => List.mem_takeWhile_imp hc
  cases hrest : q.method.dropWhile isUpper with
  | nil =>
    rw [hrest, List.append_nil] at hsplit
    exact absurd (hsplit ▸ hupper) hm
  | cons c w =>
    have hc : isUpper c = false := by
      have hhead := List.head?_dropWhile_not isUpper q.method
      simpa [hrest] using hhead
    have htoken : isToken c = true := by
      apply hw.method
      rw [← hsplit, hrest]
      simp
    rw [← hsplit, hrest, List.append_assoc] at hp
    have hmethod := method_takes [] _ hupper
    obtain ⟨heq,hvalid,hfail⟩ := takes_heard .cleared false rfl hmethod rfl hp
    obtain ⟨p,ps,hcase,-,-⟩ := holds_cons (holds_advance _ hp)
    have hchar : ((naming ([]++q.method.takeWhile isUpper)).parseChar c).1 = false := by
      simp [RequestLine.parseChar, naming, hc, token_blank htoken]
    have hgo := line_refused .cleared false hvalid (by simp [naming]) hchar p ps
    refine heq.trans ?_
    rcases hcase with h | h
    · rw [h, hgo]
    · rw [h, line_nil _ _ hvalid hfail (by simp [naming]), hgo]

theorem request_heard {q : Request} (hw : q.WellFormed) (hm : ∀ c ∈ q.method, isUpper c = true)
    {t : Bytes} {packets : List Bytes} (hp : Holds packets (q.text++t)) :
    seen .cleared packets = (reading q.fields (advance q.firstLine.length packets)).map
      (fun x => (q.shown x.1,x.2)) := by
  rw [Request.text, List.append_assoc, List.append_assoc] at hp
  obtain ⟨heq,hvalid,-⟩ := takes_heard .cleared false rfl (first_line_takes hw hm) rfl hp
  have hrest := holds_advance q.firstLine hp
  obtain ⟨c,s,hs,-⟩ := next_head q.fields hw.fields t
  have hfields := seen_fields (l := { q.complete with valid := true }) rfl rfl [] q.fields
    hw.fields t hrest
  rw [hs] at hrest
  have hend : seen .cleared packets = seen (amid { q.complete with valid := true } [] .cleared)
      (advance q.firstLine.length packets) := by
    obtain ⟨p,ps,h | h,-,-⟩ := holds_cons hrest
    · exact congrArg (Option.map _) (heq.trans (h ▸ line_end .cleared false hvalid rfl _ ps))
    · exact congrArg (Option.map _) (heq.trans (h ▸ line_end .cleared false hvalid rfl _ _))
  rw [hend, hfields]
  simp [ended, Request.shown, Request.complete]

end Connection

end RethinkLog.Via
