import RdfTurtle.Proofs.Comparison.Leading
import RdfTurtle.Proofs.Failures
import RdfTurtle.Iri.Standard

/-! # Completed triples

A source delivers a document and breaks behind it, where it should have ended. The scanner looks one
code point ahead, so that the break may show before the last triple of the document is complete.

* **`Scanner.Unending`** — a scanner whose input ends with a failure.
* **`Parser.pursue_of_spent`** — at the end of input no triple is completed.
* **`Scanner.metEnd`** — whether the end of input has been seen.
* **`parse_of_broken`** — a failure costs the last triple of a document if its dot was read together
  with the end of input, and otherwise none. -/

namespace RdfTurtle

/-! ## Inputs without an end -/

namespace Decoder

/-- The decoder never comes to an end of its input: its source breaks there. -/
def Unending (d : Decoder) : Prop := d.Serves ∧ d.source.ending ≠ .closed

variable {d : Decoder}

/-- Reading a byte leaves an input without an end. -/
theorem unending_nextByte (h : d.Unending) : (finalState (nextByte d)).Unending := by
  have hk := continues_nextByte h.1
  exact ⟨hk.serves, hk.ending ▸ h.2⟩

/-- So does reading several. -/
theorem unending_further (n : Nat) (h : d.Unending) : (finalState (further n d)).Unending := by
  induction n generalizing d with
  | zero => exact h
  | succ n ih =>
    refine finalState_bind (unending_nextByte h) fun byte? e he => ?_
    cases byte? with
    | none => exact he
    | some byte => exact finalState_bind (ih he) fun _ _ he => he

/-- So does reading a group. -/
theorem unending_group (mode : Strictness) (lead : UInt8) (h : d.Unending) :
    (finalState (group mode lead d)).Unending := by
  cases mode with
  | permissive => exact finalState_bind (unending_further _ h) fun _ _ he => he
  | strict =>
    by_cases hlead : Utf8.isLead lead
    · rw [group, if_pos hlead]
      refine finalState_bind (unending_further _ h) fun bytes e he => ?_
      cases Utf8.scalar? lead bytes with
      | some x => exact he
      | none => exact he
    · rw [group, if_neg hlead]
      exact h

/-- What such a decoder decodes is a code point. -/
theorem unending_next {l : Lookahead} {d' : Decoder} (h : d.Unending) (hn : d.next = .ok l d') :
    d'.Unending ∧ l.codePoint? ≠ none := by
  obtain ⟨byte?, e, hbyte, hn⟩ := ok_of_bind hn
  have he : e.Unending := by
    have hfinal := unending_nextByte h
    rwa [hbyte] at hfinal
  cases byte? with
  | none => exact absurd (ending_of_nextByte_none h.1 hbyte).2 h.2
  | some lead =>
    obtain ⟨c, e', hc, hn⟩ := ok_of_bind (x := group e.mode lead) hn
    have he' : e'.Unending := by
      have hfinal := unending_group e.mode lead he
      rwa [hc] at hfinal
    injection hn with hl hd
    subst hl hd
    exact ⟨he', Option.some_ne_none c⟩

end Decoder

namespace Scanner

/-- The scanner never comes to an end of its input. -/
def Unending (s : Scanner) : Prop :=
  s.decoder.Unending ∧ ∀ l ∈ s.queue, l.codePoint? ≠ none

/-- A scanner over such an input stays over one. -/
theorem unending_step {s s' : Scanner} (h : s.Unending) (hs : step s = .ok () s') :
    s'.Unending := by
  obtain ⟨hdecoder, hqueue⟩ := h
  rcases of_step_ok hs with ⟨current, putBack, hp, rfl⟩ | ⟨hp, current, decoder, hnext, rfl⟩
  · refine ⟨hdecoder, fun l hl => hqueue l (List.mem_cons_of_mem _ ?_)⟩
    rw [hp]
    exact hl
  · obtain ⟨hdecoder, hcurrent⟩ := Decoder.unending_next hdecoder hnext
    refine ⟨hdecoder, fun l hl => ?_⟩
    rw [queue, hp] at hl
    exact List.mem_singleton.1 hl ▸ hcurrent

/-- The input of such a scanner ends with a failure. -/
theorem ending_of_unending {s : Scanner} (h : s.Unending) :
    ∃ e, s.prospect.ending = .error e := by
  induction s using induction_coming with
  | ended s hend =>
    exact absurd (Option.isNone_iff_eq_none.1 hend) (h.2 s.current List.mem_cons_self)
  | more s s' _ hs hprospect ih =>
    obtain ⟨e, he⟩ := ih (unending_step h hs)
    exact ⟨e, by rw [hprospect, he]⟩
  | failing s e _ _ _ hprospect => exact ⟨e, by rw [hprospect]⟩

/-! ## Where the input has ended -/

/-- A spent scanner reads no object: dots alone are none. -/
theorem recognize_object_of_spent {s : Scanner} (h : s.Spent) :
    ∃ e s', recognize .object s = .error e s' := by
  -- Nothing is complete where no move is left, which is so at the end and behind a dot.
  by_cases hend : s.atEnd
  · exact error_of_stuck (move?_of_atEnd (s := s.clear) hend _) rfl []
  · have hdefer : s.clear.move? (.start .object) = some (.defer .leadingDot) := by
      rw [move?, clear, h.isDot hend]
      rfl
    have hspent := Spent.step (s := s.clear) h hend
    rw [recognize, run_of_defer hdefer]
    simp only [bind, EStateM.bind]
    cases hs : step s.clear with
    | error e s' => exact ⟨e, s', rfl⟩
    | ok u s' =>
      rw [hs, finalState_ok] at hspent
      refine error_of_stuck ?_ rfl _
      by_cases hend' : s'.atEnd
      · exact move?_of_atEnd hend' _
      · have hdigit : ('.' : CodePoint) ∉ CharClass.digit := by decide +kernel
        rw [move?, Spent.isDot hspent hend', Option.bind_some, State.next, if_neg hdigit]

end Scanner

namespace Parser

variable {p q : Parser}

variable [IriLibrary]

/-- From a spent scanner no object is read. -/
theorem moveObject_of_spent (subject predicate : Term) (h : p.scanner.Spent) :
    ∃ e q, moveObject subject predicate p = .error e q := by
  simp only [moveObject, lexAfterBlank, bind, EStateM.bind]
  have hspent := h.recognize .blank
  cases hblank : p.skipBlank with
  | error e q => exact ⟨e, q, rfl⟩
  | ok u q =>
    have hq : q.scanner.Spent := by
      obtain ⟨l, scanner, hr, rfl⟩ := of_skipBlank_ok hblank
      rw [hr] at hspent
      exact hspent
    obtain ⟨e, s, hobject⟩ := Scanner.recognize_object_of_spent hq
    have hlex : q.lex .object = .error (.lex e) { q with scanner := s, afterDot := false } := by
      unfold lex
      rw [hobject]
    simp only [hlex]
    exact ⟨_, _, rfl⟩

/-- **At the end of input no triple is completed.** -/
theorem pursue_of_spent {t : Triple} (h : p.scanner.Spent) : p.pursue ≠ .ok (some t) q := by
  intro hp
  fun_induction pursue p with
  | case1 p t' p' hm =>
    obtain ⟨subject, predicate, hx⟩ := expected_of_move_triple hm
    obtain ⟨e, q', herror⟩ := moveObject_of_spent subject predicate h
    simp only [move, hx, herror] at hm
    cases hm
  | case2 p p' hm ih =>
    have hspent := (Comparison.follows_move (c := .leading [] .closed)).stays h
    rw [hm] at hspent
    exact ih hspent hp
  | case3 | case4 => cases hp

/-- Behind a triple something is expected. -/
theorem expected_of_pursue_triple {t : Triple} (hx : p.expected ≠ .nothing)
    (h : p.pursue = .ok (some t) q) : q.expected ≠ .nothing := by
  fun_induction pursue p with
  | case1 p t' p' hm =>
    injection h with _ h
    exact h ▸ expected_of_move_onward hx hm (by simp)
  | case2 p p' hm ih => exact ih (expected_of_move_onward hx hm (by simp)) h
  | case3 | case4 => cases h

/-- A document is only over at the end of input. -/
theorem atEnd_of_pursue_none (hx : p.expected ≠ .nothing) (h : p.pursue = .ok none q) :
    q.scanner.atEnd := by
  fun_induction pursue p with
  | case1 | case4 => cases h
  | case2 p p' hm ih => exact ih (expected_of_move_onward hx hm (by simp)) h
  | case3 p p' hm =>
    injection h with _ h
    exact h ▸ atEnd_of_move_finished hx hm

/-! ## A source that breaks behind a document -/

/-- A failure of the source is the last item. -/
theorem items_of_source_fault {text : String} {position : Position}
    (h : fault? p.pursue = some (.lex ⟨.source text, position⟩)) :
    p.items = [.error (.lex ⟨.source text, position⟩)] := by
  cases hp : p.pursue with
  | ok t? q =>
    rw [hp] at h
    cases h
  | error e q =>
    rw [hp] at h
    injection h with h
    subst h
    rw [items_of_pursue_error hp, afterError_of_stops (Bool.and_false _), items_of_nothing rfl]

omit [IriLibrary] in
/-- What was seen of the end is the same for corresponding scanners. -/
theorem metEnd_eq {k : Likeness} {s s' : Scanner} (h : k.Inputs s s') : s.metEnd = s'.metEnd := by
  have hqueue : List.Forall₂ k.Lookaheads s.queue s'.queue := .cons h.current h.putBack
  unfold Scanner.metEnd
  generalize s.queue = ls, s'.queue = ls' at hqueue
  induction hqueue with
  | nil => rfl
  | cons hl _ ih => rw [List.any_cons, List.any_cons, hl.codePoint, ih]

/-- Either both parsers come to the same, the failure being still ahead, or the end is seen before,
and the failure is all that comes. -/
theorem pursue_of_broken {text : String} {t? : Option Triple} {failure : LexError} {p p' : Parser}
    (h : (Comparison.leading [] (.broken text)).Parsers p p')
    (hfailure : p'.scanner.prospect.ending = .error failure) (hp : p.pursue = .ok t? q) :
    (∃ q', p'.pursue = .ok t? q' ∧ (Comparison.leading [] (.broken text)).Parsers q q' ∧
        q'.scanner.prospect.ending = .error failure) ∨
      q.scanner.Spent ∧ ∃ position, p'.items = [.error (.lex ⟨.source text, position⟩)] := by
  have hpursue := Comparison.follows_pursue.alike h
  have hcomes := p'.comes_pursue
  rw [hp] at hpursue
  rcases hpursue with halike | ⟨hspent, hparted⟩
  · obtain ⟨_, q', hp', rfl, hq⟩ := halike.of_ok
    rw [hp'] at hcomes
    cases hcomes with
    | given rest => exact Or.inl ⟨q', hp', hq, rest.ending.trans hfailure⟩
  · obtain ⟨position, hfault⟩ := hparted text rfl rfl
    exact Or.inr ⟨hspent, position, items_of_source_fault hfault⟩

/-- Once the end is seen there are no triples. -/
theorem nil_of_spent {ts : List Triple} (h : q.scanner.Spent)
    (hitems : q.items = ts.map .triple) : ts = [] := by
  cases ts with
  | nil => rfl
  | cons t ts =>
    obtain ⟨r, hr, -⟩ := pursue_of_items_cons hitems
    exact absurd hr (pursue_of_spent h)

/-- **A parser whose source breaks yields what it would yield if the source ended**, and then the
failure; only the last triple is missing if the end is seen before it is complete. -/
theorem items_of_broken {text : String} {ts : List Triple} {p p' : Parser}
    (h : (Comparison.leading [] (.broken text)).Parsers p p') (hx : p.expected ≠ .nothing)
    (hfailing : ∃ e, p'.scanner.prospect.ending = .error e)
    (hitems : p.items = ts.map .triple) :
    ∃ position, p'.items =
      (if (p.after ts.length).scanner.metEnd then ts.dropLast else ts).map .triple ++
        [.error (.lex ⟨.source text, position⟩)] := by
  obtain ⟨failure, hfailure⟩ := hfailing
  induction ts generalizing p p' with
  | nil =>
    obtain ⟨q, hp⟩ := pursue_of_items_nil hitems
    rcases pursue_of_broken h hfailure hp with ⟨q', -, hq, hending⟩ | ⟨-, position, hitems'⟩
    -- The second parser has not come to its end, since a failure is ahead of it.
    · have hend := Comparison.atEnd_eq hq.scanner ▸ atEnd_of_pursue_none hx hp
      exact absurd hend (Scanner.not_atEnd_of_ending hending)
    · refine ⟨position, ?_⟩
      rw [hitems']
      simp
  | cons t ts ih =>
    obtain ⟨q, hp, hq⟩ := pursue_of_items_cons hitems
    have hafter : p.after (t :: ts).length = q.after ts.length := by
      rw [List.length_cons, after, next_of_pursue_triple hp]
    rw [hafter]
    rcases pursue_of_broken h hfailure hp with
      ⟨q', hp', hqq', hending⟩ | ⟨hspent, position, hitems'⟩
    · obtain ⟨position, hq'⟩ := ih hqq' (expected_of_pursue_triple hx hp) hq hending
      refine ⟨position, ?_⟩
      rw [items_of_pursue_triple hp', hq']
      cases ts with
      | nil =>
        have hmet : q.scanner.metEnd = false :=
          (metEnd_eq hqq'.scanner.input).trans (Scanner.not_metEnd_of_ending hending)
        simp [after, hmet]
      | cons u ts =>
        split <;> rfl
    -- Once the end is seen no triple is completed, so that this one was the last.
    · obtain rfl := nil_of_spent hspent hq
      have hmet : q.scanner.metEnd = true := Scanner.metEnd_of_spent hspent
      refine ⟨position, ?_⟩
      rw [hitems']
      simp [after, hmet]

end Parser

section Sources

variable {a b : Source} {bytes : List UInt8} {text : String}

variable [IriLibrary]

/-- A parser over a source that breaks has a failure ahead. -/
theorem Parser.ending_of_create {options : ParserOptions} {p : Parser}
    (hb : b.Delivers bytes (.broken text)) (hp : create b options = .ok p) :
    ∃ e, p.scanner.prospect.ending = .error e := by
  obtain ⟨t, base?, ht, -, rfl⟩ := exists_of_create hp
  obtain ⟨s, hs, hmark⟩ := of_begin_ok ht
  obtain ⟨current, decoder, hnext, hsame⟩ := Scanner.of_ofSource_ok hs
  obtain ⟨-, hending, hserves⟩ := hb.spec
  have hdecoder : (Decoder.ofSource b options.scanner).Unending :=
    ⟨⟨options.scanner.capacity_pos, hserves⟩, fun h => by cases hending.symm.trans h⟩
  obtain ⟨hrest, hcurrent⟩ := Decoder.unending_next hdecoder hnext
  have hunending : s.Unending := by
    rw [hsame]
    exact ⟨hrest, fun l hl => List.mem_singleton.1 hl ▸ hcurrent⟩
  apply Scanner.ending_of_unending
  rcases of_skipMark_ok hmark with ⟨-, rfl⟩ | ⟨-, -, hstep⟩
  · exact hunending
  · exact Scanner.unending_step hunending hstep

/-- **A failure behind a document costs at most its last triple.** Take a document that is parsed
without error, and a source that delivers the same bytes and then breaks. If a parser can be created
over it, it yields the triples of the document and then the failure of the source. The last triple
is missing if and only if the parser of the document has seen the end of input when it completes it,
so that the failure comes before. -/
theorem parse_of_broken {options : ParserOptions} {ts : List Triple} {p p' : Parser}
    (ha : a.Delivers bytes .closed) (hb : b.Delivers bytes (.broken text))
    (hp : Parser.create a options = .ok p) (hp' : Parser.create b options = .ok p')
    (hparse : parse a options = ts.map .triple) :
    ∃ position, parse b options =
      (if (p.after ts.length).scanner.metEnd then ts.dropLast else ts).map .triple ++
        [.error (.lex ⟨.source text, position⟩)] := by
  have hitems : p.items = ts.map .triple := by
    rw [parse, hp] at hparse
    exact hparse
  have hx : p.expected ≠ .nothing := by
    obtain ⟨_, _, -, -, rfl⟩ := Parser.exists_of_create hp
    simp
  have hparsers : (Comparison.leading [] (.broken text)).Parsers p p' := by
    have hleads := ha.leads hb (List.append_nil bytes).symm options.scanner
    rcases Comparison.parsers_of_create hleads hp hp' with h | ⟨-, hparted⟩
    · exact h
    -- The source has not broken yet.
    · obtain ⟨_, hnone⟩ := hparted text rfl rfl
      cases hnone
  rw [parse, hp']
  exact Parser.items_of_broken hparsers hx (Parser.ending_of_create hb hp') hitems

end Sources

section

open scoped Iri.Standard

/-- With a line end behind the dot no triple is missing. -/
theorem parse_of_broken_line_end :
    ∃ position, parse (.breaking "<s> <p> <o> .\n" "reset") =
      [.triple ⟨.iri "s", .iri "p", .iri "o"⟩, .error (.lex ⟨.source "reset", position⟩)] := by
  have hbroken : (Source.breaking "<s> <p> <o> .\n" "reset").Delivers
      "<s> <p> <o> .\n".toUTF8.toList (.broken "reset") :=
    .reader _ _ _ fun _ h => by cases h
  have hparse : parse (.memory "<s> <p> <o> .\n".toUTF8.toList) =
      [⟨.iri "s", .iri "p", .iri "o"⟩].map .triple := by
    decide +kernel
  have hmet : (Parser.create (.memory "<s> <p> <o> .\n".toUTF8.toList) {}).map
      (fun p => (p.after 1).scanner.metEnd) = .ok false := by
    decide +kernel
  have hcreated : (Parser.create (.breaking "<s> <p> <o> .\n" "reset") {}).map
      (fun p => p.recover) = .ok false := by
    decide +kernel
  obtain ⟨p, hp, hmet⟩ := ok_of_map hmet
  obtain ⟨p', hp', -⟩ := ok_of_map hcreated
  obtain ⟨position, h⟩ := parse_of_broken (.memory _) hbroken hp hp' hparse
  exact ⟨position, by rw [h, List.length_singleton, hmet]; rfl⟩

/-- Without it the end is seen before the last triple is complete, and the triple is missing. -/
theorem last_triple_lost :
    parse (.memory "<s> <p> <o> .".toUTF8.toList) = [.triple ⟨.iri "s", .iri "p", .iri "o"⟩] ∧
      parse (.breaking "<s> <p> <o> ." "reset") =
        [.error (.lex ⟨.source "reset", ⟨1, 14⟩⟩)] := by
  decide +kernel

end

end RdfTurtle
