import RdfTurtle.Iri.Standard
import RdfTurtle.Proofs.Statements

/-! # Parsing documents

A parser that begins at the text of a document yields the triples that the document stands for, in
their order, and declares what the document declares.

* **`Parser.Completes`** — moves that complete triples and lead to a parser, and **`Parser.Runs`**
  such moves from place to place.
* **`Parser.runs_group`**, **`Parser.runs_statement`**, **`Parser.runs_statements`** — each tree is
  read to its end, by induction on its lists.
* **`parse_document`** — a whole document. -/

namespace RdfTurtle

open Syntax

namespace Parser

section

variable [IriLibrary]

/-! ## Moves in sequence -/

/-- Moves of `p` complete the triples and lead to `p'`. -/
inductive Completes : Parser → List Triple → Parser → Prop
  | done (p : Parser) : Completes p [] p
  | triple {p p' p'' : Parser} {t : Triple} {ts : List Triple} (h : move p = .ok (.triple t) p')
    (more : Completes p' ts p'') : Completes p (t :: ts) p''
  | onward {p p' p'' : Parser} {ts : List Triple} (h : move p = .ok .onward p')
    (more : Completes p' ts p'') : Completes p ts p''

namespace Completes

variable {p p' p'' : Parser} {ts us : List Triple}

/-- Moves go on where other moves have led. -/
theorem trans (h : Completes p ts p') (h' : Completes p' us p'') : Completes p (ts ++ us) p'' := by
  induction h with
  | done p => exact h'
  | triple hmove _ ih => exact .triple hmove (ih h')
  | onward hmove _ ih => exact .onward hmove (ih h')

/-- The items are the triples and then those of the parser that the moves lead to. -/
theorem items (h : Completes p ts p') : p.items = ts.map .triple ++ p'.items := by
  induction h with
  | done p => rfl
  | triple hmove _ ih =>
    rw [items_of_next (next_of_triple hmove), ih, List.map_cons, List.cons_append]
  | onward hmove _ ih => rw [items_of_onward hmove, ih]

/-- The parser after the last item is that of the parser that the moves lead to. -/
theorem finish (h : Completes p ts p') : p.finish = p'.finish := by
  induction h with
  | done p => rfl
  | triple hmove _ ih => rw [finish_of_next (next_of_triple hmove), ih]
  | onward hmove _ ih => rw [finish_of_onward hmove, ih]

end Completes

/-- From `start` the parser completes the triples and comes to `finish`. -/
def Runs (iri : Strictness) (start : Place) (ts : List Triple) (finish : Place) : Prop :=
  ∀ p : Parser, p.Stands iri start → ∃ p', p.Completes ts p' ∧ p'.Stands iri finish

variable {iri : Strictness} {c c' : Context} {rest : List CodePoint} {subject : Term}

namespace Runs

variable {start middle finish : Place} {ts us : List Triple}

/-- Nothing is to be done. -/
theorem done : Runs iri start [] start := fun p hp => ⟨p, .done p, hp⟩

/-- Runs go on where other runs have led. -/
theorem trans (h : Runs iri start ts middle) (h' : Runs iri middle us finish) :
    Runs iri start (ts ++ us) finish := by
  intro p hp
  obtain ⟨p₁, hmoves, hp₁⟩ := h p hp
  obtain ⟨p₂, hmoves', hp₂⟩ := h' p₁ hp₁
  exact ⟨p₂, hmoves.trans hmoves', hp₂⟩

/-- A move that completes no triple, and what follows it. -/
theorem onward (h : Reads iri start move (· = .onward) middle) (h' : Runs iri middle ts finish) :
    Runs iri start ts finish := by
  intro p hp
  obtain ⟨_, p₁, hmove, rfl, hp₁⟩ := h p hp
  obtain ⟨p₂, hmoves, hp₂⟩ := h' p₁ hp₁
  exact ⟨p₂, .onward hmove hmoves, hp₂⟩

/-- A move that completes a triple, and what follows it. -/
theorem triple {t : Triple} (h : Reads iri start move (· = .triple t) middle)
    (h' : Runs iri middle ts finish) : Runs iri start (t :: ts) finish := by
  intro p hp
  obtain ⟨_, p₁, hmove, rfl, hp₁⟩ := h p hp
  obtain ⟨p₂, hmoves, hp₂⟩ := h' p₁ hp₁
  exact ⟨p₂, .triple hmove hmoves, hp₂⟩

end Runs

/-! ## Groups -/

omit [IriLibrary] in
/-- What is done to every element of a list without failing is done to each. -/
theorem forall₂_of_mapM {α β : Type} {f : α → Option β} {xs : List α} {ys : List β}
    (h : xs.mapM f = some ys) : List.Forall₂ (fun x y => f x = some y) xs ys := by
  induction xs generalizing ys with
  | nil =>
    injection h with h
    rw [← h]
    exact .nil
  | cons x xs ih =>
    rw [List.mapM_cons] at h
    obtain ⟨y, hy, h⟩ := Option.bind_eq_some_iff.1 h
    obtain ⟨ys', hys, h⟩ := Option.bind_eq_some_iff.1 h
    injection h with h
    rw [← h]
    exact .cons hy (ih hys)

/-- Objects with commas between them are read, each to what ends it. -/
theorem runs_objects {predicate : Term} {x : Char} {q : Production} (gap : Gap)
    (first : Object iri) (more : List (NextObject iri)) {ts : List Triple}
    (h : List.Forall₂ (fun o t => (o.term? c).map (Triple.mk subject predicate ·) = some t)
      (first :: more.map NextObject.object) ts)
    (last : Gap) (hx : Ends x q) :
    Runs iri ⟨c, .object subject predicate,
        codes gap.text ++ (codes first.text ++ (codes (more.flatMap NextObject.text) ++
          (codes last.text ++ (x : CodePoint) :: rest)))⟩
      ts ⟨c, expectedAfter subject predicate q, rest⟩ := by
  -- The first object ends with a comma exactly if there are more, and what is between the two
  -- commas becomes the gap before the next.
  induction more generalizing gap first ts with
  | nil =>
    cases h with
    | cons hfirst hmore =>
      cases hmore with
      | nil =>
        obtain ⟨term, hterm, rfl⟩ := Option.map_eq_some_iff.1 hfirst
        exact .triple (reads_object gap first hterm last hx) .done
  | cons next more ih =>
    cases h with
    | cons hfirst hmore =>
      obtain ⟨term, hterm, rfl⟩ := Option.map_eq_some_iff.1 hfirst
      have htext : codes ((next :: more).flatMap NextObject.text) ++
          (codes last.text ++ (x : CodePoint) :: rest) =
            codes next.before.text ++ CodePoint.ofChar ',' :: (codes next.after.text ++
              (codes next.object.text ++ (codes (more.flatMap NextObject.text) ++
                (codes last.text ++ (x : CodePoint) :: rest)))) := by
        simp [NextObject.text]
      rw [htext]
      exact .triple (reads_object gap first hterm next.before .comma)
        (ih next.after next.object hmore)

/-- A predicate with its objects is read to what ends the last one. -/
theorem runs_group {continued : Bool} {x : Char} {q : Production} (gap : Gap) (g : Group iri)
    {ts : List Triple} (h : g.triples? c subject = some ts) (last : Gap) (hx : Ends x q) :
    ∃ predicate, Runs iri ⟨c, .predicate subject continued,
        codes gap.text ++ (codes g.text ++ (codes last.text ++ (x : CodePoint) :: rest))⟩
      ts ⟨c, expectedAfter subject predicate q, rest⟩ := by
  obtain ⟨predicate, hverb, h⟩ := Option.bind_eq_some_iff.1 h
  have htext : codes g.text ++ (codes last.text ++ (x : CodePoint) :: rest) =
      codes g.verb.text ++ (codes g.gap.text ++ (codes g.first.text ++
        (codes (g.more.flatMap NextObject.text) ++
          (codes last.text ++ (x : CodePoint) :: rest)))) := by
    simp [Group.text]
  rw [htext]
  exact ⟨predicate, .onward (reads_verb gap g.verb hverb g.gap.separated)
    (runs_objects g.gap g.first g.more (forall₂_of_mapM h) last hx)⟩

/-- Semicolons may follow each other. -/
theorem runs_semicolons (gaps : List Gap) :
    Runs iri ⟨c, .predicate subject true, codes (gaps.flatMap semicolonText) ++ rest⟩ []
      ⟨c, .predicate subject true, rest⟩ := by
  induction gaps with
  | nil => exact .done
  | cons gap gaps ih =>
    have htext : codes ((gap :: gaps).flatMap semicolonText) ++ rest =
        codes gap.text ++ CodePoint.ofChar ';' :: (codes (gaps.flatMap semicolonText) ++ rest) := by
      simp [semicolonText]
    rw [htext]
    exact .onward (reads_semicolon gap) ih

/-- The last group of a statement is read to the end of the statement. -/
theorem runs_last {continued : Bool} (gap : Gap) (g : Group iri) {ts : List Triple}
    (h : g.triples? c subject = some ts) (semicolons : List Gap) (last : Gap) :
    Runs iri ⟨c, .predicate subject continued,
        codes gap.text ++ (codes g.text ++ (codes (semicolons.flatMap semicolonText) ++
          (codes last.text ++ CodePoint.ofChar '.' :: rest)))⟩
      ts ⟨c, .statement, rest⟩ := by
  cases semicolons with
  | nil =>
    obtain ⟨predicate, hgroup⟩ := runs_group gap g h last .dot
    exact hgroup
  | cons semicolon semicolons =>
    have htext : codes ((semicolon :: semicolons).flatMap semicolonText) ++
        (codes last.text ++ CodePoint.ofChar '.' :: rest) =
          codes semicolon.text ++ CodePoint.ofChar ';' ::
            (codes (semicolons.flatMap semicolonText) ++
              (codes last.text ++ CodePoint.ofChar '.' :: rest)) := by
      simp [semicolonText]
    rw [htext]
    -- The first semicolon ends the last object; the others stand in the place of a predicate.
    obtain ⟨predicate, hgroup⟩ := runs_group gap g h semicolon .semicolon
    rw [← List.append_nil ts]
    exact hgroup.trans ((runs_semicolons semicolons).trans (.onward (reads_dot last) .done))

/-- Groups with semicolons between them are read to the end of the statement. -/
theorem runs_groups {continued : Bool} (gap : Gap) (first : Group iri)
    (more : List (NextGroup iri)) {triples : List (List Triple)}
    (h : List.Forall₂ (fun g ts => Group.triples? c subject g = some ts)
      (first :: more.map NextGroup.group) triples)
    (semicolons : List Gap) (last : Gap) :
    Runs iri ⟨c, .predicate subject continued,
        codes gap.text ++ (codes first.text ++ (codes (more.flatMap NextGroup.text) ++
          (codes (semicolons.flatMap semicolonText) ++
            (codes last.text ++ CodePoint.ofChar '.' :: rest))))⟩
      triples.flatten ⟨c, .statement, rest⟩ := by
  -- Behind a semicolon a predicate is continued, so the induction is over both ways to expect one.
  induction more generalizing gap first continued triples with
  | nil =>
    cases h with
    | cons hfirst hmore =>
      cases hmore with
      | nil =>
        rw [List.flatten_cons, List.flatten_nil, List.append_nil]
        exact runs_last gap first hfirst semicolons last
  | cons next more ih =>
    cases h with
    | cons hfirst hmore =>
      have htext : codes ((next :: more).flatMap NextGroup.text) ++
          (codes (semicolons.flatMap semicolonText) ++
            (codes last.text ++ CodePoint.ofChar '.' :: rest)) =
          codes next.first.text ++ CodePoint.ofChar ';' ::
            (codes (next.more.flatMap semicolonText) ++ (codes next.gap.text ++
              (codes next.group.text ++ (codes (more.flatMap NextGroup.text) ++
                (codes (semicolons.flatMap semicolonText) ++
                  (codes last.text ++ CodePoint.ofChar '.' :: rest)))))) := by
        simp [NextGroup.text, semicolonText]
      rw [htext, List.flatten_cons]
      obtain ⟨predicate, hgroup⟩ := runs_group gap first hfirst next.first .semicolon
      exact hgroup.trans ((runs_semicolons next.more).trans (ih next.gap next.group hmore))

/-! ## Statements and documents -/

omit [IriLibrary] in
/-- What succeeds gives what it gives as an option. -/
theorem eq_ok_of_toOption {ε α : Type} {x : Except ε α} {a : α} (h : x.toOption = some a) :
    x = .ok a := by
  cases x with
  | error e => cases h
  | ok a' => rw [Option.some.inj h]

/-- A statement is read to its end. -/
theorem runs_statement (b : Blanks) (s : Statement iri) {ts : List Triple}
    (h : s.meaning? c = some (ts, c')) :
    Runs iri ⟨c, .statement, codes b.text ++ (codes s.text ++ rest)⟩ ts ⟨c', .statement, rest⟩ := by
  -- A directive is read in one move, triples in one for the subject and the moves of their groups.
  cases s with
  | base form gap r =>
    obtain ⟨resolved, hresolved, h⟩ := Option.bind_eq_some_iff.1 h
    obtain ⟨base, hbase, h⟩ := Option.bind_eq_some_iff.1 h
    injection h with h
    injection h with hts hc
    subst hts hc
    have hparse := eq_ok_of_toOption hbase
    have htext : codes (Statement.base form gap r).text ++ rest = codes form.opening ++
        (codes gap.text ++ (codes r.text ++ (codes form.closing ++ rest))) := by
      simp [Statement.text]
    rw [htext]
    exact .onward (reads_base b form gap r hresolved hparse) .done
  | namespaceName form before n gap r =>
    obtain ⟨resolved, hresolved, h⟩ := Option.bind_eq_some_iff.1 h
    injection h with h
    injection h with hts hc
    subst hts hc
    have htext : codes (Statement.namespaceName form before n gap r).text ++ rest =
        codes form.opening ++ (codes before.text ++ (codes n.text ++
          (codes gap.text ++ (codes r.text ++ (codes form.closing ++ rest))))) := by
      simp [Statement.text]
    rw [htext]
    exact .onward (reads_namespace b form before n gap r hresolved) .done
  | triples subject gap first more semicolons last =>
    obtain ⟨term, hterm, h⟩ := Option.bind_eq_some_iff.1 h
    obtain ⟨triples, htriples, h⟩ := Option.bind_eq_some_iff.1 h
    injection h with h
    injection h with hts hc
    subst hts hc
    have htext : codes (Statement.triples subject gap first more semicolons last).text ++ rest =
        codes subject.text ++ (codes gap.text ++ (codes first.text ++
          (codes (more.flatMap NextGroup.text) ++ (codes (semicolons.flatMap semicolonText) ++
            (codes last.text ++ CodePoint.ofChar '.' :: rest))))) := by
      simp [Statement.text]
    rw [htext]
    exact .onward (reads_subject b subject hterm gap.separated)
      (runs_groups gap first more (forall₂_of_mapM htriples) semicolons last)

/-- Statements are read one after the other. -/
theorem runs_statements (statements : List (Blanks × Statement iri)) {ts : List Triple}
    (h : meaningOf? c statements = some (ts, c')) :
    Runs iri ⟨c, .statement, codes (statementsText statements) ++ rest⟩ ts
      ⟨c', .statement, rest⟩ := by
  induction statements generalizing c ts with
  | nil =>
    injection h with h
    injection h with hts hc
    subst hts hc
    exact .done
  | cons s statements ih =>
    obtain ⟨⟨us, c₁⟩, hs, h⟩ := Option.bind_eq_some_iff.1 h
    obtain ⟨⟨more, c₂⟩, hmore, h⟩ := Option.bind_eq_some_iff.1 h
    injection h with h
    injection h with hts hc
    subst hts hc
    have htext : codes (statementsText (s :: statements)) ++ rest =
        codes s.1.text ++ (codes s.2.text ++ (codes (statementsText statements) ++ rest)) := by
      simp [statementsText]
    rw [htext]
    exact (runs_statement s.1 s.2 hs).trans (ih hmore)

/-- A parser at the text of a document yields what the document stands for. -/
theorem items_of_document {p : Parser} (d : Document iri) {ts : List Triple}
    (hp : p.Stands iri ⟨c, .statement, codes d.text⟩) (h : d.meaning? c = some (ts, c')) :
    p.items = ts.map .triple ∧ p.finish.base? = c'.base? ∧ p.finish.prefixes = c'.prefixes := by
  rw [Document.text, codes_append] at hp
  obtain ⟨p₁, hmoves, hp₁⟩ := runs_statements d.statements h p hp
  obtain ⟨_, p₂, hmove, rfl, hp₂⟩ := reads_end d.trailing p₁ hp₁
  have hnone : p₁.next = (none, p₂) := next_of_finished hmove
  rw [hmoves.items, hmoves.finish, items_of_next_none hnone, finish_of_next_none hnone,
    List.append_nil]
  exact ⟨rfl, hp₂.base, hp₂.prefixes⟩

end

/-- A text without the byte order mark that may begin it. -/
def unmarked (text : List Char) : List Char :=
  if text.head? = some '\uFEFF' then text.tail else text

/-- A text without a mark is left as it is. -/
theorem unmarked_of_ne {text : List Char} (h : text.head? ≠ some '\uFEFF') :
    unmarked text = text := if_neg h

/-- A mark stands in front of the text, not of what follows it. -/
theorem unmarked_append (text : List Char) {more : List Char} (h : more.head? ≠ some '\uFEFF') :
    unmarked (text ++ more) = unmarked text ++ more := by
  cases text with
  | nil => exact unmarked_of_ne h
  | cons x text =>
    by_cases hx : x = '\uFEFF' <;> simp [unmarked, hx]

/-- What is left of a text belongs to it. -/
theorem mem_of_mem_unmarked {text : List Char} {x : Char} (h : x ∈ unmarked text) : x ∈ text := by
  unfold unmarked at h
  split at h
  · exact List.mem_of_mem_tail h
  · exact h

section

variable [IriLibrary]

/-- A parser is created at the beginning of a text, behind a byte order mark. -/
theorem exists_create {source : Source} {options : ParserOptions} {base? : Option Iri}
    {text : List Char} (hsource : source.Delivers (String.ofList text).toUTF8.toList .closed)
    (hbase : initialBase? options.base? = .ok base?) :
    ∃ s, create source options = .ok ⟨s, base?, .empty, .statement, options.recover, false⟩ ∧
      s.Awaits (codes (unmarked text)) ∧ s.options = options.scanner := by
  obtain ⟨s, hs, hawaits, hoptions⟩ := Scanner.awaits_ofSource hsource options.scanner
  suffices hskip : ∃ t, skipMark s = .ok t ∧ t.Awaits (codes (unmarked text)) ∧
      t.options = s.options by
    obtain ⟨t, hskip, ht, hsame⟩ := hskip
    refine ⟨t, ?_, ht, hsame.trans hoptions⟩
    unfold create
    simp only [hbase, hs, bind, Except.bind, hskip]
  -- Only a mark is read past, and it is the first character or there is none.
  cases text with
  | nil =>
    refine ⟨s, ?_, hawaits, rfl⟩
    rw [skipMark, if_neg]
    rw [hawaits.codePoint?]
    simp
  | cons x text =>
    by_cases hx : x = '\uFEFF'
    · subst hx
      obtain ⟨t, ht, hrest, hk⟩ := Scanner.step_of_awaits hawaits
      refine ⟨t, ?_, hrest, hk.options⟩
      have hend : ¬ s.atEnd := by
        rw [hawaits.atEnd]
        exact Bool.false_ne_true
      have hmark : s.current.codePoint? = some byteOrderMark := hawaits.1
      rw [skipMark, if_pos hmark, Scanner.advance, if_neg hend, ht]
    · refine ⟨s, ?_, ?_, rfl⟩
      · rw [skipMark, if_neg]
        rw [hawaits.codePoint?]
        exact fun h => hx (CodePoint.ofChar_inj.1 (Option.some.inj h))
      · rwa [unmarked_of_ne (by simpa using hx)]

/-- A parser is created at the beginning of a text that has no byte order mark. -/
theorem stands_create {source : Source} {options : ParserOptions} {base? : Option Iri}
    {text : List Char} (hsource : source.Delivers (String.ofList text).toUTF8.toList .closed)
    (hbase : initialBase? options.base? = .ok base?)
    (hmark : ∀ x ∈ (codes text).head?, x ≠ byteOrderMark) :
    ∃ p, create source options = .ok p ∧
      p.Stands options.scanner.iri ⟨⟨base?, .empty⟩, .statement, codes text⟩ := by
  have hne : text.head? ≠ some '\uFEFF' :=
    fun h => hmark '\uFEFF' (by rw [codes, List.head?_map, h]; rfl) rfl
  obtain ⟨s, hcreate, hawaits, hoptions⟩ := exists_create hsource hbase
  rw [unmarked_of_ne hne] at hawaits
  exact ⟨_, hcreate, hawaits, congrArg Options.iri hoptions, rfl, rfl, rfl⟩

omit [IriLibrary] in
/-- A directive does not begin with a byte order mark if its word does not. -/
theorem opening_head_ne {x : Char} {word : List Char} (form : Form (x :: word))
    (hlower : x ≠ '\uFEFF') (hupper : x.toUpper ≠ '\uFEFF') :
    ∀ c ∈ (codes form.opening ++ rest).head?, c ≠ CodePoint.ofChar '\uFEFF' := by
  intro c hc
  cases form with
  | dotted gap =>
    rw [← Option.some.inj hc]
    decide
  | bare spelling =>
    obtain ⟨chars, hcase⟩ := spelling
    cases chars with
    | nil => cases hcase
    | cons y chars =>
      rw [← Option.some.inj hc]
      -- The first letter is that of the word in one of its two cases.
      rcases (List.forall₂_cons.1 hcase).1 with h | h <;> rw [h, Ne, CodePoint.ofChar_inj]
      · exact hlower
      · exact hupper

/-- A document that stands for something without declarations before it does not begin with a byte
order mark, since only a namespace could begin so. -/
theorem head_ne_mark {base? : Option Iri} (d : Document iri) {ts : List Triple}
    (h : d.meaning? ⟨base?, .empty⟩ = some (ts, c')) :
    ∀ x ∈ (codes d.text).head?, x ≠ byteOrderMark := by
  have hmark : byteOrderMark = CodePoint.ofChar '\uFEFF' := rfl
  obtain ⟨statements, trailing⟩ := d
  rw [hmark, Document.text, codes_append]
  cases statements with
  | nil =>
    rw [statementsText, List.flatMap_nil, codes_nil, List.nil_append, ← List.append_nil (codes _)]
    exact trailing.head_ne (by decide) fun x hx => by cases hx
  | cons s statements =>
    obtain ⟨⟨us, c₁⟩, hs, -⟩ := Option.bind_eq_some_iff.1 h
    obtain ⟨b, s⟩ := s
    rw [statementsText, List.flatMap_cons, codes_append, codes_append, List.append_assoc,
      List.append_assoc]
    refine b.head_ne (by decide) ?_
    cases s with
    | base form gap r =>
      rw [Statement.text, codes_append, List.append_assoc]
      exact opening_head_ne form (by decide) (by decide)
    | namespaceName form before n gap r =>
      rw [Statement.text, codes_append, List.append_assoc]
      exact opening_head_ne form (by decide) (by decide)
    | triples subject gap first more semicolons last =>
      obtain ⟨term, hterm, -⟩ := Option.bind_eq_some_iff.1 hs
      intro x hx
      cases subject with
      | ref r =>
        cases r with
        | reference r =>
          rw [← Option.some.inj hx]
          decide
        -- No namespace is declared yet, so a name stands for nothing.
        | name n l => cases hterm
      | blank l =>
        rw [← Option.some.inj hx]
        decide

/-- A parser is created at the beginning of a document that stands for something, and yields what
the document stands for. -/
theorem create_of_document {source : Source} {options : ParserOptions} {base? : Option Iri}
    (d : Document options.scanner.iri) {ts : List Triple} {c : Context}
    (hsource : source.Delivers (String.ofList d.text).toUTF8.toList .closed)
    (hbase : initialBase? options.base? = .ok base?)
    (h : d.meaning? ⟨base?, .empty⟩ = some (ts, c)) :
    ∃ p, create source options = .ok p ∧ p.items = ts.map .triple ∧
      p.finish.base? = c.base? ∧ p.finish.prefixes = c.prefixes := by
  obtain ⟨p, hcreate, hp⟩ := stands_create hsource hbase (head_ne_mark d h)
  exact ⟨p, hcreate, items_of_document d hp h⟩

end

end Parser

section

open scoped Iri.Standard

end

end RdfTurtle
