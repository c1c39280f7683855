import RdfTurtle.Proofs.Provenance
import RdfTurtle.Iri.Standard

/-! # What statements declare

A directive declares once it has been read to its end, and then all that it declares: a namespace,
under the name before its colon, or a base. A statement that fails has declared nothing, wherever in
it the error arises, and so it is still after the parser has gone on to the next statement.

* **`Parser.complete`** — goes on to the end of a statement.
* **`Parser.Declares`** — what a statement that is complete has declared.
* **`Parser.declares_of_complete`**, **`Parser.knows_of_complete_error`** — a statement that
  succeeds, and one that fails.
* **`Parser.Passes`** — statements that are completed one after the other.
* **`directives_atomic`** — for whatever is reached. -/

namespace RdfTurtle

open Syntax

namespace State

/-- Where an IRI reference is asked for nothing else begins. -/
theorem iriRef_of_path {iri : Strictness} {p : Production} {ds cs : List CodePoint}
    (h : Path iri p (.start .iriRef) ds cs) : p = .iriRef := by
  have hfamily : p.family = .iri :=
    family_of_only h rfl fun _ => Move.Only.ite (fun _ => .some rfl) fun _ => .none
  cases p <;> first | rfl | cases hfamily

end State

namespace Parser

variable {p p' q : Parser} {o : Outcome} {e : DocumentError} {keyword token : Token}
  {iri : String} {dotted : Bool}

variable [IriLibrary]

/-! ## Going through a statement -/

/-- Goes on to the end of the statement, where another one may begin or nothing more comes. -/
def complete (p : Parser) : EStateM.Result DocumentError Parser Unit :=
  match _h : move p with
  | .ok _ p' =>
    if _hx : p'.expected = .statement ∨ p'.expected = .nothing then .ok () p' else complete p'
  | .error e q => .error e q
termination_by p.size
decreasing_by
  refine size_of_move ‹_› fun ho => _hx (Or.inr ?_)
  subst ho
  exact expected_of_move_finished ‹_›

/-- A move may end the statement. -/
theorem complete_of_closed (hm : p.move = .ok o p')
    (hx : p'.expected = .statement ∨ p'.expected = .nothing) : p.complete = .ok () p' := by
  rw [complete]
  split <;> simp_all

/-- What a move leads on to ends the same statement. -/
theorem complete_of_open (hm : p.move = .ok o p')
    (hx : ¬ (p'.expected = .statement ∨ p'.expected = .nothing)) :
    p.complete = p'.complete := by
  rw [complete]
  split <;> simp_all

/-- The statement fails as a move does. -/
theorem complete_of_error (hm : p.move = .error e q) : p.complete = .error e q := by
  rw [complete]
  split <;> simp_all

/-- Statements lead from one parser to the other, each of them being completed. -/
def Passes : Parser → Parser → Prop := Relation.ReflTransGen fun p q => p.complete = .ok () q

/-- A statement that is completed leads to what is reached. -/
theorem reached_of_complete (h : p.complete = .ok () p') : p.Reached p' := by
  fun_induction complete p with
  | case1 p o p₁ hm =>
    injection h with _ h
    exact h ▸ .move .start hm
  | case2 p o p₁ hm _ ih => exact (Reached.move .start hm).trans (ih h)
  | case3 p e q hm => cases h

/-- What a parser passes on the way is reached. -/
theorem Passes.reached (h : p.Passes q) : p.Reached q := by
  induction h with
  | refl => exact .start
  | tail _ hcomplete ih => exact ih.trans (reached_of_complete hcomplete)

/-- Within a statement what is left of it is completed. -/
theorem Within.complete {start : Parser} {ts : List Token} (h : Within start ts p) :
    p.expected ≠ .nothing ∧ start.complete = p.complete := by
  induction h with
  | begin hx => exact ⟨by rw [hx]; simp, rfl⟩
  | @move ts us p q p' o h hm course settled within undotted ih =>
    have hx : p'.expected ≠ .nothing := settled.onward (course.expected ▸ ih.1)
    exact ⟨hx, ih.2.trans (complete_of_open hm (not_or.2 ⟨within, hx⟩))⟩

/-- A statement begins where one may begin. -/
theorem Within.expected {start : Parser} {ts : List Token} (h : Within start ts p) :
    start.expected = .statement := by
  induction h with
  | begin hx => exact hx
  | move _ _ _ _ _ _ ih => exact ih

/-- An item that is an error ends a statement: the one that the parser stands in, or one that others
lead to. -/
theorem exists_passes_of_pursue_error (h : p.pursue = .error e q) :
    p.complete = .error e q ∨
      ∃ start, p.Passes start ∧ start.expected = .statement ∧ start.complete = .error e q := by
  fun_induction pursue p with
  | case1 | case3 => cases h
  | case2 p p' hm ih =>
    by_cases hx : p'.expected = .statement ∨ p'.expected = .nothing
    · have hcomplete := complete_of_closed hm hx
      rcases hx with hx | hx
      · rcases ih h with hfails | ⟨start, hpasses, hstart⟩
        · exact Or.inr ⟨p', .single hcomplete, hx, hfails⟩
        · exact Or.inr ⟨start, .head hcomplete hpasses, hstart⟩
      · rw [pursue_of_nothing hx] at h
        cases h
    · have hcomplete := complete_of_open hm hx
      rcases ih h with hfails | ⟨start, hpasses, hstart, hfails⟩
      · exact Or.inl (hcomplete.trans hfails)
      · refine Or.inr ⟨start, ?_, hstart, hfails⟩
        -- The first statement that is passed is the one that the move was within.
        rcases hpasses.cases_head with rfl | ⟨r, hr, hrest⟩
        · exact absurd (Or.inl hstart) hx
        · exact .head (hcomplete.trans hr) hrest
  | case4 p e' q' hm =>
    injection h with he hq
    subst he hq
    exact Or.inl (complete_of_error hm)

/-! ## What a move leaves as it is -/

/-- A move declares only from the beginning of a statement to that of another one. -/
theorem knows_of_move (h : p.move = .ok o p')
    (hx : p.expected ≠ .statement ∨ p'.expected ≠ .statement) : Knows p p' := by
  rcases p.proceeds_move with hproceeds | ⟨p'', hfinished, hend⟩
  · rw [h] at hproceeds
    cases hproceeds with
    | settles course settled =>
      rcases settled.kept with hkept | ⟨hbefore, hbehind⟩
      · exact course.knows.trans hkept
      · exact absurd hx (not_or.2 ⟨not_not.2 (course.expected ▸ hbefore), not_not.2 hbehind⟩)
  · rw [h] at hfinished
    injection hfinished with _ hp'
    subst hp'
    rcases hend with ⟨-, rfl⟩ | ⟨q, hblank, -, rfl⟩
    · exact ⟨rfl, rfl⟩
    · exact (Course.blank hblank (.done q)).knows

/-- **A statement that fails has declared nothing.** -/
theorem knows_of_complete_error (h : p.complete = .error e q) : Knows p q := by
  fun_induction complete p with
  | case1 => cases h
  | case2 p o p' hm hx ih => exact (knows_of_move hm (Or.inr (not_or.1 hx).1)).trans (ih h)
  | case3 p e' q' hm =>
    injection h with _ hq
    exact hq ▸ knows_of_move_error hm

/-- Behind the beginning of a statement nothing is declared. -/
theorem knows_of_complete (hx : p.expected ≠ .statement) (h : p.complete = .ok () p') :
    Knows p p' := by
  fun_induction complete p with
  | case1 p o p₁ hm =>
    injection h with _ h
    exact h ▸ knows_of_move hm (Or.inl hx)
  | case2 p o p₁ hm hopen ih =>
    exact (knows_of_move hm (Or.inl hx)).trans (ih (not_or.1 hopen).1 h)
  | case3 => cases h

/-! ## What a directive declares -/

/-- The words that declare a base. -/
def baseWords : List Production := [.atBase, .sparqlBase]

/-- The words that declare a namespace. -/
def prefixWords : List Production := [.atPrefix, .sparqlPrefix]

/-- What the statement that begins at `p` has declared where it is complete. Behind its word a
directive reads what it declares, an IRI being resolved against the base before the statement. -/
inductive Declares (p p' : Parser) : Prop
  /-- The name before the colon is a namespace now, and no other name is changed -/
  | namespace {keyword name token : Token} {q q₁ q₂ : Parser} {declared iri : String}
    (word : lexAfterBlank .statement p = .ok keyword q) (kind : keyword.production ∈ prefixWords)
    (reads : lexAfterBlank .namespaceName q = .ok name q₁)
    (text : name.chars = declared.toList ++ [':'])
    (follows : lexAfterBlank .iriRef q₁ = .ok token q₂) (stands : resource token p = .ok iri p)
    (base : p'.base? = p.base?)
    (prefixes : ∀ other, p'.prefixes.find? other =
      if other = declared then some iri else p.prefixes.find? other)
  /-- The base is another one, and no namespace is changed -/
  | base {keyword token : Token} {q q₁ : Parser} {iri : String} {declared : Iri}
    (word : lexAfterBlank .statement p = .ok keyword q) (kind : keyword.production ∈ baseWords)
    (follows : lexAfterBlank .iriRef q = .ok token q₁) (stands : resource token p = .ok iri p)
    (absolute : IriLibrary.parse iri.toList = .ok declared)
    (base : p'.base? = some declared) (prefixes : p'.prefixes = p.prefixes)
  /-- The statement is no directive, and what is known is as before -/
  | nothing
    (kind : ∀ ⦃keyword q⦄, lexAfterBlank .statement p = .ok keyword q →
      keyword.production ∉ baseWords ++ prefixWords)
    (knows : Knows p p')

omit [IriLibrary] in
/-- A token in the place of an IRI reference is one. -/
theorem iriRef_of_lexAfterBlank (h : lexAfterBlank .iriRef p = .ok token q) :
    token.production = .iriRef := by
  obtain ⟨_, _, hpath, -⟩ := path_of_lexAfterBlank h
  exact State.iriRef_of_path hpath

/-- What a reference stands for depends on nothing but the base. -/
theorem resource_of_iriRef (ht : token.production = .iriRef) (hbase : q.base? = p.base?)
    (h : resource token q = .ok iri p') : resource token p = .ok iri p := by
  simp only [resource, ht] at h ⊢
  cases hreference : Escape.iri? (token.inner 1) with
  | none =>
    rw [hreference] at h
    cases h
  | some reference =>
    simp only [hreference, resolve, bind, EStateM.bind] at h ⊢
    simp only [get_apply, hbase] at h ⊢
    cases hp : p.base? with
    | none =>
      simp only [hp] at h ⊢
      injection h with h
      exact h ▸ rfl
    | some base =>
      simp only [hp] at h ⊢
      cases hresolved : IriLibrary.resolve base reference with
      | error e =>
        rw [hresolved] at h
        cases h
      | ok resolved =>
        rw [hresolved] at h
        injection h with h
        exact h ▸ rfl

/-- The IRI that a directive declares is that of the reference behind it. -/
theorem reference_of_readDeclared {declared : Token × String}
    (h : readDeclared dotted p = .ok declared q) :
    ∃ r, lexAfterBlank .iriRef p = .ok declared.1 r ∧ resource declared.1 p = .ok declared.2 p := by
  obtain ⟨token, p₁, htoken, h⟩ := ok_of_bind h
  obtain ⟨iri, p₂, hiri, h⟩ := ok_of_bind h
  obtain ⟨_, hcourse⟩ := (scans_lexAfterBlank _).course htoken
  have hresult : declared = (token, iri) := by
    cases dotted with
    | false =>
      injection h with h
      exact h.symm
    | true =>
      obtain ⟨_, _, -, h⟩ := ok_of_bind h
      injection h with h
      exact h.symm
  subst hresult
  exact ⟨p₁, htoken, resource_of_iriRef (iriRef_of_lexAfterBlank htoken) hcourse.knows.1 hiri⟩

/-- A base is declared. -/
theorem declares_of_readBase (word : lexAfterBlank .statement p = .ok keyword q)
    (kind : keyword.production ∈ baseWords) (h : readBase dotted q = .ok () p') :
    p.Declares p' ∧ p'.expected = p.expected := by
  obtain ⟨_, hword⟩ := (scans_lexAfterBlank _).course word
  obtain ⟨⟨token, iri⟩, q₁, hdeclared, h⟩ := ok_of_bind h
  obtain ⟨_, hcourse⟩ := (scans_readDeclared dotted).course hdeclared
  obtain ⟨_, follows, stands⟩ := reference_of_readDeclared hdeclared
  have hstands := resource_of_iriRef (iriRef_of_lexAfterBlank follows) hword.knows.1 stands
  have hknows := hword.knows.trans hcourse.knows
  dsimp only at h
  cases absolute : IriLibrary.parse iri.toList with
  | error e =>
    rw [absolute] at h
    cases h
  | ok base =>
    rw [absolute] at h
    injection h with _ h
    subst h
    exact ⟨.base word kind follows hstands absolute rfl hknows.2,
      hcourse.expected.trans hword.expected⟩

/-- A namespace is declared. -/
theorem declares_of_readPrefix (word : lexAfterBlank .statement p = .ok keyword q)
    (kind : keyword.production ∈ prefixWords) (h : readPrefix dotted q = .ok () p') :
    p.Declares p' ∧ p'.expected = p.expected := by
  obtain ⟨_, hword⟩ := (scans_lexAfterBlank _).course word
  obtain ⟨name, q₁, reads, h⟩ := ok_of_bind h
  obtain ⟨_, hname⟩ := (scans_lexAfterBlank _).course reads
  obtain ⟨⟨token, iri⟩, q₂, hread, h⟩ := ok_of_bind h
  obtain ⟨_, hcourse⟩ := (scans_readDeclared dotted).course hread
  obtain ⟨_, follows, stands⟩ := reference_of_readDeclared hread
  have hbehind := hword.knows.trans hname.knows
  have hstands := resource_of_iriRef (iriRef_of_lexAfterBlank follows) hbehind.1 stands
  have hknows := hbehind.trans hcourse.knows
  obtain ⟨n, htext, hsame⟩ := namespace_of_lexAfterBlank reads
  have hdeclared : name.chars = n.name.toList ++ [':'] := by
    rw [htext, Namespace.text, Namespace.name, String.toList_ofList]
  injection h with _ h
  subst h
  refine ⟨.namespace word kind reads hdeclared follows hstands hknows.1 fun other => ?_,
    (hcourse.expected.trans hname.expected).trans hword.expected⟩
  rw [← hsame, ← hknows.2]
  exact PrefixMap.find?_insert ..

/-- What follows the first token of a statement: a directive is complete and declares, and anything
else goes on. -/
theorem declares_of_readStatement (word : lexAfterBlank .statement p = .ok keyword q)
    (h : readStatement keyword q = .ok () p') :
    p.Declares p' ∧ p'.expected = p.expected ∨
      keyword.production ∉ baseWords ++ prefixWords ∧ p'.expected ≠ .statement := by
  generalize hread : readStatement keyword = x at h
  unfold readStatement at hread
  split at hread <;> subst hread
  · next kind => exact Or.inl (declares_of_readBase word (by simp [kind, baseWords]) h)
  · next kind => exact Or.inl (declares_of_readBase word (by simp [kind, baseWords]) h)
  · next kind => exact Or.inl (declares_of_readPrefix word (by simp [kind, prefixWords]) h)
  · next kind => exact Or.inl (declares_of_readPrefix word (by simp [kind, prefixWords]) h)
  · next kind =>
    refine Or.inr ⟨by simp [kind, baseWords, prefixWords], ?_⟩
    exact opens_bind (fun _ _ => opens_expect (by simp)) _ h
  · next kind =>
    refine Or.inr ⟨by simp [kind, baseWords, prefixWords], ?_⟩
    exact opens_bind (fun _ _ => opens_expect (by simp)) _ h
  · next kind =>
    refine Or.inr ⟨by simp [kind, baseWords, prefixWords], ?_⟩
    exact opens_expect (by simp) _ h
  · cases h

omit [IriLibrary] in
/-- At the end of input there is no token. -/
theorem lex_of_atEnd {r : Recognizer} (hr : (State.start r).accepting = none)
    (hend : p.scanner.atEnd) : ∃ e q, p.lex r = .error e q := by
  obtain ⟨e, s, hs⟩ := Scanner.error_of_stuck
    (Scanner.move?_of_atEnd (s := p.scanner.clear) hend (.start r)) hr []
  unfold lex Scanner.recognize
  rw [hs]
  exact ⟨_, _, rfl⟩

/-- The first move of a statement reads its first token and goes on behind it, or comes to the end
of the document. -/
theorem begun_of_move (hx : p.expected = .statement) (h : p.move = .ok o p') :
    (∃ keyword q, lexAfterBlank .statement p = .ok keyword q ∧
        readStatement keyword q = .ok () p') ∨
      (∀ keyword q, lexAfterBlank .statement p ≠ .ok keyword q) ∧ p'.expected = .nothing := by
  rw [move_of_statement hx] at h
  obtain ⟨_, r, hblank, h⟩ := ok_of_bind h
  obtain ⟨r', _, hget, h⟩ := ok_of_bind h
  injection hget with hr hr'
  subst hr hr'
  split at h
  · next hend =>
    obtain ⟨_, _, hexpect, h⟩ := ok_of_bind h
    injection hexpect with _ hexpect
    injection h with _ h
    -- At the end no first token could have been read either.
    refine Or.inr ⟨fun keyword q hword => ?_, by rw [← h, ← hexpect]⟩
    obtain ⟨_, r', hblank', hlex⟩ := ok_of_bind hword
    rw [hblank] at hblank'
    injection hblank' with _ hsame
    subst hsame
    obtain ⟨_, _, hfails⟩ := lex_of_atEnd (r := .statement) rfl hend
    rw [hlex] at hfails
    cases hfails
  · obtain ⟨keyword, q, hlex, h⟩ := ok_of_bind h
    obtain ⟨_, _, hread, h⟩ := ok_of_bind h
    injection h with _ h
    subst h
    refine Or.inl ⟨keyword, q, ?_, hread⟩
    simp only [lexAfterBlank, bind, EStateM.bind, hblank]
    exact hlex

/-- **A statement that is completed has declared what its directive says, and nothing without
one.** -/
theorem declares_of_complete (hx : p.expected = .statement) (h : p.complete = .ok () p') :
    p.Declares p' := by
  cases hm : p.move with
  | error e q =>
    rw [complete_of_error hm] at h
    cases h
  | ok o p₁ =>
    -- What follows an open statement are predicates and objects, which declare nothing.
    have hrest (hopen : p₁.expected ≠ .statement) : Knows p p' := by
      have hknows := knows_of_move hm (Or.inr hopen)
      by_cases hnothing : p₁.expected = .nothing
      · rw [complete_of_closed hm (Or.inr hnothing)] at h
        injection h with _ h
        exact h ▸ hknows
      · rw [complete_of_open hm (not_or.2 ⟨hopen, hnothing⟩)] at h
        exact hknows.trans (knows_of_complete hopen h)
    rcases begun_of_move hx hm with ⟨keyword, q, word, hread⟩ | ⟨hnone, hnothing⟩
    · rcases declares_of_readStatement word hread with ⟨hdeclares, hclosed⟩ | ⟨hkind, hopen⟩
      · rw [complete_of_closed hm (Or.inl (hclosed.trans hx))] at h
        injection h with _ h
        exact h ▸ hdeclares
      · refine .nothing (fun keyword' q' word' => ?_) (hrest hopen)
        rw [word] at word'
        injection word' with hsame
        exact hsame ▸ hkind
    · exact .nothing (fun keyword q word => absurd word (hnone keyword q))
        (hrest (by rw [hnothing]; simp))

end Parser

/-- **Directives are atomic.** Where a statement that begins in whatever is reached fails, the base
and the namespaces are those from before it, also after the parser has gone on to the next
statement; where it is completed it has declared what its directive says and nothing else. Each
error among the items ends such a statement, those before it being completed. -/
theorem directives_atomic [IriLibrary] {source : Source} {options : ParserOptions} {p₀ p : Parser}
    (h₀ : Parser.create source options = .ok p₀) (h : p₀.Reached p) :
    (p.expected = .statement →
      (∀ e q, p.complete = .error e q → p.Knows q ∧ p.Knows (q.afterError e)) ∧
        ∀ p', p.complete = .ok () p' → p.Declares p') ∧
      ∀ e p', p.next = (some (.error e), p') →
        ∃ start q, p₀.Reached start ∧ start.expected = .statement ∧
          start.complete = .error e q ∧ p' = q.afterError e ∧ start.Knows p' ∧
            (p.expected = .statement → p.Passes start) := by
  have hfails {start q : Parser} {e : DocumentError} (hstart : start.complete = .error e q) :
      start.Knows (q.afterError e) :=
    (Parser.knows_of_complete_error hstart).trans (Parser.knows_afterError q e)
  refine ⟨fun hx => ⟨fun e q hcomplete => ?_, fun p' => Parser.declares_of_complete hx⟩,
    fun e p' hnext => ?_⟩
  · exact ⟨Parser.knows_of_complete_error hcomplete, hfails hcomplete⟩
  · obtain ⟨q, hpursue, rfl⟩ := Parser.pursue_of_next_error hnext
    rcases Parser.exists_passes_of_pursue_error hpursue with
      hcomplete | ⟨start, hpasses, hx, hstart⟩
    · by_cases hx : p.expected = .statement
      · exact ⟨p, q, h, hx, hcomplete, rfl, hfails hcomplete, fun _ => .refl⟩
      -- The parser is within a statement, and that is the one that fails.
      · have hsome : p.expected ≠ .nothing := by
          intro hnothing
          rw [Parser.pursue_of_nothing hnothing] at hpursue
          cases hpursue
        obtain ⟨start, ts, hreached, hwithin⟩ :=
          Parser.exists_within (Parser.expected_of_create h₀) h hsome
        have hstart := hwithin.complete.2.trans hcomplete
        exact ⟨start, q, hreached, hwithin.expected, hstart, rfl, hfails hstart,
          fun hx' => absurd hx' hx⟩
    · exact ⟨start, q, h.trans hpasses.reached, hx, hstart, rfl, hfails hstart, fun _ => hpasses⟩

section

open scoped Iri.Standard

/-- A relative base without one before it is wrong, and found so behind its dot. The namespace that
was declared before it stays the only one. -/
theorem directives_atomic_relative_base :
    ∃ p p' q e,
      Parser.create (.memory "@prefix a: <u:> . @base <b> . <s> a <o> .".toUTF8.toList)
          { recover := true } = .ok p ∧
        p.complete = .ok () p' ∧ p.Declares p' ∧ p'.prefixes.entries = [("a", "u:")] ∧
          p'.expected = .statement ∧ p'.complete = .error e q ∧ p'.Knows (q.afterError e) ∧
            ∃ start r, p.next = (some (.error e), r.afterError e) ∧ p.Passes start ∧
              start.complete = .error e r ∧ start.Knows (r.afterError e) := by
  have hruns : (Parser.create
      (.memory "@prefix a: <u:> . @base <b> . <s> a <o> .".toUTF8.toList) { recover := true }).map
        (fun p => ((fault? p.complete, (finalState p.complete).expected),
          (fault? (finalState p.complete).complete, (finalState p.complete).prefixes.entries))) =
      .ok ((none, .statement),
        (some (.invalidIri "b" "No scheme found in an absolute IRI" ⟨1, 25⟩), [("a", "u:")])) := by
    decide +kernel
  have hitems : (Parser.create
      (.memory "@prefix a: <u:> . @base <b> . <s> a <o> .".toUTF8.toList) { recover := true }).map
        (·.next.1) =
      .ok (some (.error (.invalidIri "b" "No scheme found in an absolute IRI" ⟨1, 25⟩))) := by
    decide +kernel
  obtain ⟨p, hcreate, hruns⟩ := ok_of_map hruns
  simp only [Prod.mk.injEq] at hruns
  obtain ⟨⟨hfirst, hx'⟩, hsecond, hentries⟩ := hruns
  rw [hcreate] at hitems
  have hx := Parser.expected_of_create hcreate
  have hp := directives_atomic hcreate .start
  cases hcomplete : p.complete with
  | error e q =>
    rw [hcomplete] at hfirst
    cases hfirst
  | ok u p' =>
    rw [hcomplete] at hentries hx' hsecond
    have hp' := (directives_atomic hcreate (Parser.reached_of_complete hcomplete)).1 hx'
    cases hcomplete' : p'.complete with
    | ok u r =>
      rw [finalState_ok, hcomplete'] at hsecond
      cases hsecond
    | error e q =>
      rw [finalState_ok, hcomplete'] at hsecond
      obtain rfl := Option.some.inj hsecond
      obtain ⟨start, r, -, -, hstart, hnext, hknows, hpasses⟩ :=
        hp.2 _ p.next.2 (Prod.ext (Except.ok.inj hitems) rfl)
      refine ⟨p, p', q, _, hcreate, hcomplete, (hp.1 hx).2 p' hcomplete, hentries, hx', hcomplete',
        (hp'.1 _ q hcomplete').2, start, r,
        Prod.ext (Except.ok.inj hitems) hnext, hpasses hx, hstart, ?_⟩
      exact hnext ▸ hknows

end

end RdfTurtle
