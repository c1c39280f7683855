import RdfTurtle.Proofs.Documents
import RdfTurtle.Iri.Standard

/-! # Printing and parsing

Triples are printed one to a line, each as a document that stands for itself: between quotes the
characters that could end or alter a string are escaped, and IRIs stand between brackets as they
are. Printing is undone by parsing as long as no IRI has a character that means something there.

* **`Triple.WellFormed`** — the triples that the grammar has a spelling for.
* **`Triple.Plain`** — the triples whose IRIs may stand between brackets as they are.
* **`Triple.exists_statement`** — a printed triple is a statement that stands for it.
* **`parse_printed`** — printed triples are parsed to themselves. -/

namespace RdfTurtle

open Syntax

/-! ## Triples with a spelling -/

/-- The language tags without their `@`. -/
def Syntax.IsLanguage (chars : List Char) : Prop := ∃ l : Language, l.chars = chars

/-- A term that the grammar has a spelling for: a label or a language is one of the grammar, and a
literal has a datatype or a language but not both. -/
inductive Term.WellFormed : Term → Prop
  | iri (text : String) : WellFormed (.iri text)
  | blank {label : String} (h : IsLabel label.toList) : WellFormed (.blank label)
  | plain (lexical : String) : WellFormed (.literal (.plain lexical))
  | typed (lexical datatype : String) : WellFormed (.literal (.typed lexical datatype))
  | tagged (lexical : String) {language : String} (h : IsLanguage language.toList) :
    WellFormed (.literal ⟨lexical, none, some language⟩)

/-- A triple that the grammar has a spelling for. -/
structure Triple.WellFormed (t : Triple) : Prop where
  subject : t.subject.WellFormed
  resource : ∀ l, t.subject ≠ .literal l
  predicate : ∃ text, t.predicate = .iri text
  object : t.object.WellFormed

/-- The IRIs of a term, as it is or as a datatype. -/
def Term.iris : Term → List String
  | .iri text => [text]
  | .blank _ => []
  | .literal l => l.datatype?.toList

/-- The IRIs of a triple. -/
def Triple.iris (t : Triple) : List String := t.subject.iris ++ (t.predicate.iris ++ t.object.iris)

/-- An IRI without the characters that end an IRI reference or begin an escape in it. -/
def PlainIri (iri : String) : Prop := '>' ∉ iri.toList ∧ '\\' ∉ iri.toList

instance (iri : String) : Decidable (PlainIri iri) := by
  unfold PlainIri
  infer_instance

/-- A triple whose IRIs may all stand between brackets as they are. -/
def Triple.Plain (t : Triple) : Prop := ∀ iri ∈ t.iris, PlainIri iri

/-! ## The spelling of terms -/

/-- A character is written between quotes as a piece of a string that stands for it. -/
theorem exists_piece (x : Char) :
    ∃ p : Piece (ShortRaw .double) Escape.letterOf,
      p.text = Literal.quoteChar x ∧ p.value = x := by
  unfold Literal.quoteChar
  split
  · next h => exact ⟨.letter '"' '"' rfl, rfl, h.symm⟩
  · next hquote =>
    split
    · next h => exact ⟨.letter '\\' '\\' rfl, rfl, h.symm⟩
    · next hslash =>
      split
      · next h => exact ⟨.letter 'n' '\n' rfl, rfl, h.symm⟩
      · next hfeed =>
        split
        · next h => exact ⟨.letter 'r' '\r' rfl, rfl, h.symm⟩
        · next hreturn =>
          have hend : (x : CodePoint) ∉ CharClass.lineEnd := by
            simp [CharClass.mem_lineEnd, hfeed, hreturn]
          exact ⟨.raw x ⟨hquote, hslash, hend⟩, rfl, rfl⟩

/-- What writes each character as a piece that stands for it writes a text as pieces that stand for
the text. -/
theorem exists_pieces {Raw : Char → Prop} {letters : Char → Option Char}
    {write : Char → List Char} {chars : List Char}
    (h : ∀ x ∈ chars, ∃ p : Piece Raw letters, p.text = write x ∧ p.value = x) :
    ∃ ps : List (Piece Raw letters),
      ps.flatMap Piece.text = chars.flatMap write ∧ ps.map Piece.value = chars := by
  induction chars with
  | nil => exact ⟨[], rfl, rfl⟩
  | cons x chars ih =>
    obtain ⟨p, hp, hx⟩ := h x List.mem_cons_self
    obtain ⟨ps, hps, hchars⟩ := ih fun y hy => h y (List.mem_cons_of_mem x hy)
    refine ⟨p :: ps, ?_, ?_⟩
    · rw [List.flatMap_cons, List.flatMap_cons, hp, hps]
    · rw [List.map_cons, hx, hchars]

/-- A lexical form is written between quotes as a string that stands for it. -/
theorem exists_string (lexical : String) :
    ∃ s : StringToken, s.text = (Literal.quote lexical).toList ∧ s.value = lexical.toList := by
  obtain ⟨ps, htext, hvalue⟩ := exists_pieces fun x (_ : x ∈ lexical.toList) => exists_piece x
  refine ⟨.short .double ps, ?_, hvalue⟩
  simp [StringToken.text, StringToken.marks, StringToken.quote, StringToken.body, Literal.quote,
    Quote.char, htext]

section

variable [IriLibrary]

/-- An IRI that may stand between brackets as it is is written as a reference that stands for it. -/
theorem exists_iriRef {iri : String} (h : PlainIri iri) :
    ∃ r : IriRef .permissive, r.text = '<' :: (iri.toList ++ ['>']) ∧
      ∀ c : Context, c.base? = none → resolve? c r.reference = some iri := by
  have hraw : ∀ x ∈ iri.toList, ∃ p : Piece (IriRaw .permissive) fun _ => none,
      p.text = [x] ∧ p.value = x := by
    intro x hx
    have hclose : x ≠ '>' := fun heq => h.1 (heq ▸ hx)
    have hslash : x ≠ '\\' := fun heq => h.2 (heq ▸ hx)
    exact ⟨.raw x ⟨hclose, hslash, by simp⟩, rfl, rfl⟩
  obtain ⟨ps, htext, hvalue⟩ := exists_pieces hraw
  rw [List.flatMap_singleton'] at htext
  refine ⟨⟨ps⟩, by rw [IriRef.text, htext], fun c hc => ?_⟩
  rw [resolve?, hc]
  simp only [IriRef.reference, hvalue, String.ofList_toList]

/-- A printed subject is one that stands for it. -/
theorem Term.exists_subject {term : Term} (h : term.WellFormed) (hresource : ∀ l, term ≠ .literal l)
    (hplain : ∀ iri ∈ term.iris, PlainIri iri) :
    ∃ s : Subject .permissive, s.text = term.render.toList ∧
      ∀ c : Context, c.base? = none → s.term? c = some term := by
  cases h with
  | iri text =>
    obtain ⟨r, htext, hresolve⟩ := exists_iriRef (hplain text List.mem_cons_self)
    refine ⟨.ref (.reference r), ?_, fun c hc => ?_⟩
    · simp [Subject.text, Ref.text, htext, render]
    · simp [Subject.term?, Ref.iri?, hresolve c hc]
  | @blank label h =>
    refine ⟨.blank ⟨label.toList, h⟩, ?_, fun c _ => ?_⟩
    · simp [Subject.text, Label.text, render]
    · simp [Subject.term?]
  | plain | typed | tagged => exact absurd rfl (hresource _)

/-- A printed object is one that stands for it. -/
theorem Term.exists_object {term : Term} (h : term.WellFormed)
    (hplain : ∀ iri ∈ term.iris, PlainIri iri) :
    ∃ o : Object .permissive, o.text = term.render.toList ∧
      ∀ c : Context, c.base? = none → o.term? c = some term := by
  cases h with
  | iri text =>
    obtain ⟨r, htext, hresolve⟩ := exists_iriRef (hplain text List.mem_cons_self)
    refine ⟨.ref (.reference r), ?_, fun c hc => ?_⟩
    · simp [Object.text, Ref.text, htext, render]
    · simp [Object.term?, Ref.iri?, hresolve c hc]
  | @blank label h =>
    refine ⟨.blank ⟨label.toList, h⟩, ?_, fun c _ => ?_⟩
    · simp [Object.text, Label.text, render]
    · simp [Object.term?]
  | plain lexical =>
    obtain ⟨s, htext, hvalue⟩ := exists_string lexical
    refine ⟨.quoted s .none, ?_, fun c _ => ?_⟩
    · simp [Object.text, Suffix.text, htext, render, Literal.render, Literal.suffix, Literal.plain]
    · simp [Object.term?, Suffix.literal?, hvalue]
  | typed lexical datatype =>
    obtain ⟨s, htext, hvalue⟩ := exists_string lexical
    obtain ⟨r, hr, hresolve⟩ := exists_iriRef (hplain datatype List.mem_cons_self)
    refine ⟨.quoted s (.datatype ⟨[]⟩ ⟨[]⟩ (.reference r)), ?_, fun c hc => ?_⟩
    · simp [Object.text, Suffix.text, Ref.text, Blanks.text, htext, hr, render, Literal.render,
        Literal.suffix, Literal.typed]
    · simp [Object.term?, Suffix.literal?, Ref.iri?, hvalue, hresolve c hc]
  | @tagged lexical language h =>
    obtain ⟨s, htext, hvalue⟩ := exists_string lexical
    obtain ⟨l, hl⟩ := h
    refine ⟨.quoted s (.language ⟨[]⟩ l), ?_, fun c _ => ?_⟩
    · simp [Object.text, Suffix.text, Language.text, Blanks.text, htext, hl, render,
        Literal.render, Literal.suffix]
    · simp [Object.term?, Suffix.literal?, hvalue, hl]

/-- **A printed triple is a statement that stands for it.** -/
theorem Triple.exists_statement {t : Triple} (h : t.WellFormed) (hplain : t.Plain) :
    ∃ s : Statement .permissive, s.text = t.render.toList ∧
      ∀ c : Context, c.base? = none → s.meaning? c = some ([t], c) := by
  obtain ⟨subject, predicate, object⟩ := t
  obtain ⟨hsubject, hresource, ⟨verb, rfl⟩, hobject⟩ := h
  obtain ⟨s, hs, hsterm⟩ := Term.exists_subject hsubject hresource fun iri hiri =>
    hplain iri (List.mem_append_left _ hiri)
  obtain ⟨v, hv, hvterm⟩ := exists_iriRef
    (hplain verb (List.mem_append_right _ (List.mem_append_left _ List.mem_cons_self)))
  obtain ⟨o, ho, hoterm⟩ := Term.exists_object hobject fun iri hiri =>
    hplain iri (List.mem_append_right _ (List.mem_append_right _ hiri))
  refine ⟨.triples s Gap.space ⟨.ref (.reference v), Gap.space, o, []⟩ [] [] Gap.space, ?_,
    fun c hc => ?_⟩
  · simp [Statement.text, Group.text, Verb.text, Ref.text, hs, hv, ho, render, Term.render]
  · simp [Statement.meaning?, Group.triples?, Group.objects, Verb.term?, Ref.iri?, hsterm c hc,
      hvterm c hc, hoterm c hc]

/-! ## Lists of triples -/

/-- Triples printed one to a line. -/
def printed (ts : List Triple) : String := String.join (ts.map fun t => t.render ++ "\n")

omit [IriLibrary] in
/-- The first triple is printed on the first line. -/
theorem printed_cons (t : Triple) (ts : List Triple) :
    printed (t :: ts) = t.render ++ "\n" ++ printed ts := by
  rw [printed, List.map_cons, String.join_cons]
  rfl

/-- A line break. -/
def newline : Blanks := ⟨[.blank '\n' (by simp [CharClass.blank, CharClass.mem_iff])]⟩

/-- Behind a line break, printed triples are a document that stands for them. The line break that
ends a triple is one that stands before the next. -/
theorem exists_lines {ts : List Triple} (h : ∀ t ∈ ts, t.WellFormed)
    (hplain : ∀ t ∈ ts, t.Plain) :
    ∃ d : Document .permissive, d.text = '\n' :: (printed ts).toList ∧
      d.meaning? ⟨none, .empty⟩ = some (ts, ⟨none, .empty⟩) := by
  induction ts with
  | nil => exact ⟨⟨[], newline⟩, rfl, rfl⟩
  | cons t ts ih =>
    obtain ⟨s, hs, hmeaning⟩ :=
      Triple.exists_statement (h t List.mem_cons_self) (hplain t List.mem_cons_self)
    obtain ⟨d, hd, hmore⟩ := ih (fun u hu => h u (List.mem_cons_of_mem t hu))
      fun u hu => hplain u (List.mem_cons_of_mem t hu)
    refine ⟨d.prepend newline s, ?_, Document.meaning?_prepend (hmeaning _ rfl) hmore⟩
    rw [Document.text_prepend, hs, hd, printed_cons]
    simp [newline, Blanks.text, BlankPiece.text]

/-- Printed triples are a document that stands for them. -/
theorem exists_document {ts : List Triple} (h : ∀ t ∈ ts, t.WellFormed)
    (hplain : ∀ t ∈ ts, t.Plain) :
    ∃ d : Document .permissive, d.text = (printed ts).toList ∧
      d.meaning? ⟨none, .empty⟩ = some (ts, ⟨none, .empty⟩) := by
  cases ts with
  | nil => exact ⟨⟨[], ⟨[]⟩⟩, rfl, rfl⟩
  | cons t ts =>
    obtain ⟨s, hs, hmeaning⟩ :=
      Triple.exists_statement (h t List.mem_cons_self) (hplain t List.mem_cons_self)
    obtain ⟨d, hd, hmore⟩ := exists_lines (fun u hu => h u (List.mem_cons_of_mem t hu))
      fun u hu => hplain u (List.mem_cons_of_mem t hu)
    refine ⟨d.prepend ⟨[]⟩ s, ?_, Document.meaning?_prepend (hmeaning _ rfl) hmore⟩
    rw [Document.text_prepend, hs, hd, printed_cons]
    simp [Blanks.text]

/-- A text that is a document is parsed to what the document stands for. -/
theorem parse_of_document {d : Document .permissive} {text : String} {ts : List Triple}
    {c : Context} (hd : d.text = text.toList) (h : d.meaning? ⟨none, .empty⟩ = some (ts, c))
    {source : Source} (hsource : source.Delivers text.toUTF8.toList .closed) :
    parse source = ts.map .triple := by
  rw [← String.ofList_toList (s := text), ← hd] at hsource
  obtain ⟨p, hcreate, hitems, -⟩ := @Parser.create_of_document _ _ {} none d _ _ hsource rfl h
  rw [parse, hcreate]
  exact hitems

/-- **Printed triples are parsed to themselves**, whatever their lexical forms are, as long as no
IRI ends before its end or has an escape. -/
theorem parse_printed {ts : List Triple} (h : ∀ t ∈ ts, t.WellFormed)
    (hplain : ∀ t ∈ ts, t.Plain) {source : Source}
    (hsource : source.Delivers (printed ts).toUTF8.toList .closed) :
    parse source = ts.map .triple := by
  obtain ⟨d, hd, hmeaning⟩ := exists_document h hplain
  exact parse_of_document hd hmeaning hsource

end

section

open scoped Iri.Standard

/-- A quotation mark, a line break, a tab and an emoji in one lexical form, an empty one with a
language, and a label with a dot. -/
theorem parse_printed_quotes :
    parse (.memory (printed
        [⟨.iri "", .iri "p q", .literal (.plain "\"\n\t😀")⟩,
          ⟨.blank "0.a", .iri "p", .literal ⟨"", none, some "en-1"⟩⟩]).toUTF8.toList) =
      [.triple ⟨.iri "", .iri "p q", .literal (.plain "\"\n\t😀")⟩,
        .triple ⟨.blank "0.a", .iri "p", .literal ⟨"", none, some "en-1"⟩⟩] := by
  have hlanguage : IsLanguage "en-1".toList :=
    ⟨⟨⟨⟨['e', 'n'], by simp [CharClass.letter, CharClass.mem_iff]⟩, by simp⟩,
      [⟨⟨['1'], by simp [CharClass.letterOrDigit, CharClass.mem_iff]⟩, by simp⟩]⟩, rfl⟩
  have hlabel : IsLabel "0.a".toList := by
    simp [IsLabel, IsName, CharClass.labelStart, CharClass.nameChar, CharClass.mem_iff]
  refine parse_printed (fun t ht => ?_) (fun t ht => ?_) (.memory _)
  · rcases List.mem_pair.1 ht with rfl | rfl
    · exact ⟨.iri _, by simp, ⟨_, rfl⟩, .plain _⟩
    · exact ⟨.blank hlabel, by simp, ⟨_, rfl⟩, .tagged _ hlanguage⟩
  · rcases List.mem_pair.1 ht with rfl | rfl <;> simp [Triple.Plain, Triple.iris, Term.iris,
      PlainIri, Literal.plain]

end

end RdfTurtle
