import RdfTurtle.Proofs.Printing
import RdfTurtle.Proofs.Recognition.Families

/-! # Yielded triples are well-formed

Whatever the source holds and whatever the options are, the grammar has a spelling for each triple
that is yielded. A parser between two tokens remembers only terms that may stand where it put them,
and every action keeps to that.

* **`Expected.WellFormed`** — the invariant: what a parser remembers may stand in a triple.
* **`Parser.Upholds`** — an action that keeps the invariant, and what it gives;
  **`Parser.Upholds.bind`** such actions in sequence.
* **`Parser.upholds_move`** — every move keeps it and completes well-formed triples only.
* **`Parser.wellFormed_of_mem_items`**, **`wellFormed_of_mem_parse`** — all items. -/

namespace RdfTurtle

open Syntax

/-- The subject and predicate that are remembered may stand in a triple. -/
def Expected.WellFormed : Expected → Prop
  | .statement | .nothing => True
  | .predicate subject _ => subject.WellFormed ∧ ∀ l, subject ≠ .literal l
  | .object subject verb =>
    (subject.WellFormed ∧ ∀ l, subject ≠ .literal l) ∧ ∃ text, verb = .iri text

/-- A token that reads as its kind says, if it is a label or a language tag. -/
structure Token.Genuine (t : Token) : Prop where
  label : t.production = .blankNodeLabel → ∃ l : Label, t.chars = l.text
  language : t.production = .languageTag → ∃ l : Language, t.chars = l.text

namespace Parser

variable {α β : Type}

/-- The action keeps the invariant, and what it gives satisfies `Q`. -/
def Upholds (x : Action α) (Q : α → Prop) : Prop :=
  ∀ ⦃p a p'⦄, p.expected.WellFormed → x p = .ok a p' → Q a ∧ p'.expected.WellFormed

namespace Upholds

variable {Q : α → Prop}

/-- A sequence keeps the invariant if its parts do. -/
theorem bind {x : Action α} {f : α → Action β} {Q' : β → Prop} (hx : Upholds x Q)
    (hf : ∀ a, Q a → Upholds (f a) Q') : Upholds (x >>= f) Q' := by
  intro p b p' hp h
  obtain ⟨a, p₁, h₁, h₂⟩ := ok_of_bind h
  obtain ⟨ha, hp₁⟩ := hx hp h₁
  exact hf a ha hp₁ h₂

/-- A result keeps it. -/
theorem pure {a : α} (h : Q a) : Upholds (Pure.pure a) Q := by
  intro p b p' hp h'
  injection h' with ha hp'
  subst ha hp'
  exact ⟨h, hp⟩

/-- What fails gives nothing. -/
theorem throw (e : DocumentError) : Upholds (MonadExcept.throw e) Q :=
  fun _ _ _ _ h => by cases h

/-- Looking at the state keeps it. -/
theorem of_get : Upholds MonadState.get fun _ : Parser => True := by
  intro p q p' hp h
  injection h with hq hp'
  subst hp'
  exact ⟨trivial, hp⟩

/-- What is expected is not changed. -/
theorem of_modify {f : Parser → Parser} (hf : ∀ p, (f p).expected = p.expected) :
    Upholds (modify f) fun _ => True := by
  intro p u p' hp h
  injection h with _ hp'
  subst hp'
  refine ⟨trivial, ?_⟩
  rw [hf]
  exact hp

end Upholds

/-- What is remembered must be well-formed. -/
theorem upholds_expect {e : Expected} (he : e.WellFormed) : Upholds (expect e) fun _ => True := by
  intro p u p' _ h
  injection h with _ hp'
  subst hp'
  exact ⟨trivial, he⟩

/-! ## Tokens -/

/-- A token has the characters of a path of its kind, whichever encoding they were accumulated
in. -/
theorem path_of_lex {r : Recognizer} {p p' : Parser} {t : Token} (h : lex r p = .ok t p') :
    ∃ iri cs, State.Path iri t.production (.start r) [] cs ∧
      ∀ text : List Char, cs = codes text → t.chars = text := by
  obtain ⟨l, scanner, hl, rfl, -⟩ := of_lex_ok h
  obtain ⟨cs, htext, hpath⟩ := Scanner.path_of_recognize hl
  refine ⟨_, cs, hpath, fun text hcs => ?_⟩
  have hchars : l.text.chars = text := by
    rw [htext, hcs]
    exact Text.chars_encode _ text
  exact hchars

/-- A token reads as its kind says. -/
theorem upholds_lex (r : Recognizer) : Upholds (lex r) Token.Genuine := by
  intro p t p' hp h
  obtain ⟨iri, cs, hpath, hchars⟩ := path_of_lex h
  refine ⟨⟨fun hkind => ?_, fun hkind => ?_⟩, ?_⟩
  · rw [hkind] at hpath
    obtain ⟨label, hlabel⟩ := State.label_of_path hpath
    exact ⟨label, hchars _ hlabel⟩
  · rw [hkind] at hpath
    obtain ⟨language, hlanguage⟩ := State.language_of_path hpath
    exact ⟨language, hchars _ hlanguage⟩
  · obtain ⟨l, scanner, -, -, rfl⟩ := of_lex_ok h
    exact hp

/-- Blanks are passed over without remembering anything. -/
theorem upholds_skipBlank : Upholds skipBlank fun _ => True := by
  intro p u p' hp h
  obtain ⟨l, scanner, -, rfl⟩ := of_skipBlank_ok h
  exact ⟨trivial, hp⟩

/-- A token behind blanks reads as its kind says. -/
theorem upholds_lexAfterBlank (r : Recognizer) : Upholds (lexAfterBlank r) Token.Genuine :=
  upholds_skipBlank.bind fun _ _ => upholds_lex r

variable [IriLibrary]

/-- Resolving a reference remembers nothing, whatever it comes to. -/
theorem upholds_resolve (reference : List Char) (position : Position) :
    Upholds (resolve reference position) fun _ => True := by
  apply Upholds.of_get.bind
  intro p _
  split
  · exact .pure trivial
  · split
    · exact .pure trivial
    · exact .throw _

/-- Nor does naming an IRI. -/
theorem upholds_resource (token : Token) : Upholds (resource token) fun _ => True := by
  unfold resource
  split
  · split
    · exact upholds_resolve _ _
    · exact .throw _
  · apply Upholds.of_get.bind
    intro p _
    split
    · exact .throw _
    · exact (upholds_lex _).bind fun _ _ => .pure trivial
  · exact .throw _

omit [IriLibrary] in
/-- The label of a blank node is one. -/
theorem isLabel_of_genuine {t : Token} (h : t.Genuine) (hkind : t.production = .blankNodeLabel) :
    IsLabel (label t).toList := by
  obtain ⟨l, hl⟩ := h.label hkind
  rw [label, hl]
  simp [Label.text, l.isLabel]

/-! ## Statements -/

omit [IriLibrary] in
/-- Nor does reading the dot of a directive. -/
theorem upholds_readDot : Upholds readDot fun _ => True := by
  apply (upholds_lexAfterBlank _).bind
  intro token _
  split
  · exact .pure trivial
  · exact .throw _

/-- Nor does reading what a directive declares. -/
theorem upholds_readDeclared (dotted : Bool) : Upholds (readDeclared dotted) fun _ => True := by
  apply (upholds_lexAfterBlank _).bind
  intro token _
  apply (upholds_resource token).bind
  intro iri _
  split
  · exact upholds_readDot.bind fun _ _ => .pure trivial
  · exact .pure trivial

/-- Declaring a base leaves what is remembered. -/
theorem upholds_readBase (dotted : Bool) : Upholds (readBase dotted) fun _ => True := by
  apply (upholds_readDeclared dotted).bind
  intro declared _
  dsimp only
  split
  · exact .of_modify fun _ => rfl
  · exact .throw _

/-- So does declaring a namespace. -/
theorem upholds_readPrefix (dotted : Bool) : Upholds (readPrefix dotted) fun _ => True :=
  (upholds_lexAfterBlank _).bind fun _ _ => (upholds_readDeclared dotted).bind fun _ _ =>
    .of_modify fun _ => rfl

/-- A statement begins with a directive or a subject. -/
theorem upholds_readStatement {token : Token} (ht : token.Genuine) :
    Upholds (readStatement token) fun _ => True := by
  unfold readStatement
  split
  · exact upholds_readBase true
  · exact upholds_readBase false
  · exact upholds_readPrefix true
  · exact upholds_readPrefix false
  · exact (upholds_resource token).bind fun iri _ => upholds_expect ⟨.iri iri, by simp⟩
  · exact (upholds_resource token).bind fun iri _ => upholds_expect ⟨.iri iri, by simp⟩
  · next hkind => exact upholds_expect ⟨.blank (isLabel_of_genuine ht hkind), by simp⟩
  · exact .throw _

/-- A predicate is an IRI. -/
theorem upholds_readPredicate {subject : Term} {continued : Bool} (token : Token)
    (hsubject : subject.WellFormed ∧ ∀ l, subject ≠ .literal l) :
    Upholds (readPredicate subject continued token) fun _ => True := by
  unfold readPredicate
  split
  -- A semicolon keeps the subject, and a dot forgets it.
  · split
    · exact upholds_expect hsubject
    · exact .throw _
  · split
    · exact upholds_expect trivial
    · exact .throw _
  · exact upholds_expect ⟨hsubject, _, rfl⟩
  · exact (upholds_resource token).bind fun iri _ => upholds_expect ⟨hsubject, iri, rfl⟩

omit [IriLibrary] in
/-- After a term the token that ends the object does not change it. -/
theorem upholds_terminated {term : Term} (h : term.WellFormed) :
    Upholds (do return (term, ← readTerminator)) fun result => result.1.WellFormed :=
  (upholds_lexAfterBlank _).bind fun _ _ => .pure h

/-- A string has a language or a datatype, or neither. -/
theorem upholds_readSuffix (lexical : String) :
    Upholds (readSuffix lexical) fun result => result.1.WellFormed := by
  apply (upholds_lexAfterBlank _).bind
  intro suffix hsuffix
  split
  · next hkind =>
    obtain ⟨l, hl⟩ := hsuffix.language hkind
    have hlanguage : IsLanguage (String.ofList (suffix.chars.drop 1)).toList := by
      rw [hl]
      exact ⟨l, by simp [Language.text]⟩
    exact upholds_terminated (.tagged lexical hlanguage)
  · apply (upholds_lexAfterBlank _).bind
    intro token _
    apply (upholds_resource token).bind
    intro datatype _
    exact upholds_terminated (.typed lexical datatype)
  · exact .pure (.plain lexical)

/-- A string is a well-formed literal. -/
theorem upholds_readString (n : Nat) (token : Token) :
    Upholds (readString n token) fun result => result.1.WellFormed := by
  unfold readString
  split
  · exact upholds_readSuffix _
  · exact .throw _

/-- An object is a term that the grammar has a spelling for. -/
theorem upholds_readObject {token : Token} (ht : token.Genuine) :
    Upholds (readObject token) fun result => result.1.WellFormed := by
  unfold readObject
  split
  · exact (upholds_resource token).bind fun iri _ => upholds_terminated (.iri iri)
  · exact (upholds_resource token).bind fun iri _ => upholds_terminated (.iri iri)
  · next hkind => exact upholds_terminated (.blank (isLabel_of_genuine ht hkind))
  · exact upholds_terminated (.typed _ _)
  · exact upholds_terminated (.typed _ _)
  · exact upholds_terminated (.typed _ _)
  · exact upholds_terminated (.typed _ _)
  · exact upholds_readString 1 token
  · exact upholds_readString 3 token
  · exact .throw _

/-- A completed triple is well-formed, and what may come after it fits its beginning. -/
theorem upholds_readTriple {subject predicate : Term} {token : Token} (ht : token.Genuine)
    (hbegun : (Expected.object subject predicate).WellFormed) :
    Upholds (readTriple subject predicate token) Triple.WellFormed := by
  apply (upholds_readObject ht).bind
  rintro ⟨object, terminator⟩ hobject
  -- A comma keeps the subject and the predicate, a semicolon the subject only.
  have hafter : (expectedAfter subject predicate terminator.production).WellFormed := by
    unfold expectedAfter
    split
    · exact hbegun
    · exact hbegun.1
    · trivial
  exact (upholds_expect hafter).bind fun _ _ => .pure ⟨hbegun.1.1, hbegun.1.2, hbegun.2, hobject⟩

/-! ## Items -/

/-- Every triple among the outcomes is well-formed. -/
def Outcome.WellFormed (o : Outcome) : Prop := ∀ t, o = .triple t → t.WellFormed

/-- A move in the place of a statement completes no triple. -/
theorem upholds_moveStatement : Upholds moveStatement Outcome.WellFormed := by
  apply upholds_skipBlank.bind
  intro _ _
  apply Upholds.of_get.bind
  intro p _
  split
  · exact (upholds_expect (e := .nothing) trivial).bind fun _ _ => .pure fun _ h => by cases h
  · exact (upholds_lex _).bind fun token ht => (upholds_readStatement ht).bind fun _ _ =>
      .pure fun _ h => by cases h

/-- **A move keeps the invariant and completes well-formed triples only.** -/
theorem upholds_move : Upholds move Outcome.WellFormed := by
  intro p o p' hp h
  unfold move at h
  -- One case for each thing that may be expected; what is remembered for it is well-formed.
  split at h
  · injection h with ho hp'
    subst ho hp'
    exact ⟨fun _ h => (by cases h), hp⟩
  · exact upholds_moveStatement hp h
  · next subject continued hexpected =>
    have hmove : Upholds (movePredicate subject continued) Outcome.WellFormed := by
      rw [hexpected] at hp
      exact (upholds_lexAfterBlank _).bind fun token _ => (upholds_readPredicate token hp).bind
        fun _ _ => .pure fun _ h => by cases h
    exact hmove hp h
  · next subject predicate hexpected =>
    have hmove : Upholds (moveObject subject predicate) Outcome.WellFormed := by
      rw [hexpected] at hp
      exact (upholds_lexAfterBlank _).bind fun token ht => (upholds_readTriple ht hp).bind
        fun t htriple => .pure fun _ h => Outcome.triple.inj h ▸ htriple
    exact hmove hp h

omit [IriLibrary] in
/-- After an error nothing is remembered. -/
theorem wellFormed_afterError (p : Parser) (e : DocumentError) :
    (p.afterError e).expected.WellFormed := by
  generalize hafter : p.afterError e = p'
  cases recovered_of_afterError hafter <;> trivial

/-- The next item keeps the invariant, and is well-formed if it is a triple. -/
theorem wellFormed_of_next {p p' : Parser} {i? : Option Item} (hp : p.expected.WellFormed)
    (h : next p = (i?, p')) :
    p'.expected.WellFormed ∧ ∀ t, i? = some (.triple t) → t.WellFormed := by
  fun_induction next p with
  | case1 p t p₁ hmove =>
    -- A triple is completed.
    obtain ⟨ht, hp₁⟩ := upholds_move hp hmove
    injection h with hi hp'
    subst hi hp'
    refine ⟨hp₁, fun u hu => ?_⟩
    rw [← Item.triple.inj (Option.some.inj hu)]
    exact ht t rfl
  | case2 p p₁ hmove ih =>
    -- The move leads onward.
    exact ih (upholds_move hp hmove).2 h
  | case3 p p₁ hmove =>
    -- The document has ended.
    injection h with hi hp'
    subst hi hp'
    exact ⟨(upholds_move hp hmove).2, by simp⟩
  | case4 p e p₁ hmove =>
    -- The move fails.
    injection h with hi hp'
    subst hi hp'
    exact ⟨wellFormed_afterError p₁ e, fun _ hu => by cases hu⟩

/-- **Every triple among the items is well-formed.** -/
theorem wellFormed_of_mem_items {p : Parser} {t : Triple} (hp : p.expected.WellFormed)
    (h : .triple t ∈ p.items) : t.WellFormed := by
  fun_induction items p with
  | case1 p i p' hnext ih =>
    obtain ⟨hp', hi⟩ := wellFormed_of_next hp hnext
    rcases List.mem_cons.1 h with h | h
    · exact hi t (by rw [h])
    · exact ih hp' h
  | case2 p p' hnext => cases h

/-- A parser begins with a statement. -/
theorem expected_of_create {source : Source} {options : ParserOptions} {p : Parser}
    (h : create source options = .ok p) : p.expected = .statement := by
  unfold create at h
  simp only [bind, Except.bind] at h
  split at h
  · cases h
  · split at h
    · injection h with h
      rw [← h]
    · cases h

end Parser

/-- **Every triple that a source yields is well-formed.** -/
theorem wellFormed_of_mem_parse [IriLibrary] {source : Source} {options : ParserOptions}
    {t : Triple} (h : .triple t ∈ parse source options) : t.WellFormed := by
  unfold parse at h
  split at h
  · next p hp =>
    have hexpected : p.expected.WellFormed := by
      rw [Parser.expected_of_create hp]
      trivial
    exact Parser.wellFormed_of_mem_items hexpected h
  · cases List.mem_singleton.1 h

end RdfTurtle
