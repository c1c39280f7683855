import RdfTurtle.Proofs.Comparison.Parser
import RdfTurtle.Proofs.Likeness.Scanner

/-! # Likeness of parsers

Parsers over alike scanners behave alike: they yield the same triples and errors that differ at most
in their positions, and they know the same base and namespaces after each item.

* **`Parser.exists_of_create`** — a parser at the start of a document.
* **`Likeness.Parsers`** — alike parsers.
* **`Likeness.alike_next`** — they have alike next items and stay alike.
* **`Likeness.alike_items`** — all their items are alike.
* **`Likeness.matching_create`** — parsers created over alike inputs are alike. -/

namespace RdfTurtle

variable [IriLibrary]

/-- A parser is created at the first code point of its source, or behind a byte order mark, and
begins with a statement. -/
theorem Parser.exists_of_create {source : Source} {options : ParserOptions} {p : Parser}
    (h : create source options = .ok p) :
    ∃ scanner base?, (Scanner.ofSource source options.scanner >>= skipMark) = .ok scanner ∧
      initialBase? options.base? = .ok base? ∧
      p = ⟨scanner, base?, .empty, .statement, options.recover, false⟩ := by
  unfold create at h
  simp only [bind, Except.bind] at h
  split at h
  · cases h
  · next base? hbase =>
    split at h
    · next scanner hscanner =>
      injection h with h
      exact ⟨scanner, base?, hscanner, hbase, h.symm⟩
    · cases h

namespace Likeness

variable {k : Likeness}

/-- Alike parsers: over alike scanners, otherwise the same. -/
structure Parsers (k : Likeness) (p p' : Parser) : Prop where
  scanner : k.Scanners p.scanner p'.scanner
  base : p.base? = p'.base?
  prefixes : p.prefixes = p'.prefixes
  expected : p.expected = p'.expected
  recover : p.recover = p'.recover
  afterDot : p.afterDot = p'.afterDot

omit [IriLibrary] in
/-- Alike parsers are those that correspond. -/
theorem parsers_iff (hk : k.Lawful) {p p' : Parser} :
    k.Parsers p p' ↔ (k.comparison hk).Parsers p p' :=
  ⟨fun h => ⟨(scanners_iff hk).1 h.scanner, h.base, h.prefixes, h.expected, h.recover, h.afterDot⟩,
    fun h => ⟨(scanners_iff hk).2 h.scanner, h.base, h.prefixes, h.expected, h.recover,
      h.afterDot⟩⟩

/-- Alike parsers have alike next items, and are alike after them. -/
theorem alike_next (hk : k.Lawful) {p p' : Parser} (h : k.Parsers p p') :
    Option.Rel k.Items p.next.1 p'.next.1 ∧ k.Parsers p.next.2 p'.next.2 :=
  (Comparison.alike_next (c := k.comparison hk) (fun _ => id) (fun _ _ => id)
    ((parsers_iff hk).1 h)).imp_right (parsers_iff hk).2

/-- All items of alike parsers are alike. -/
theorem alike_items (hk : k.Lawful) {p p' : Parser} (h : k.Parsers p p') :
    List.Forall₂ k.Items p.items p'.items :=
  Comparison.alike_items (c := k.comparison hk) (fun _ => id) (fun _ _ => id) ((parsers_iff hk).1 h)

/-! ## The start of a document -/

omit [IriLibrary] in
/-- Passing over a byte order mark leads to alike scanners. -/
theorem matching_skipMark (hk : k.Lawful) {s s' : Scanner} (h : k.Scanners s s') :
    Matching k.LexErrors k.Scanners (Parser.skipMark s) (Parser.skipMark s') := by
  unfold Parser.skipMark
  rw [← h.current.codePoint]
  split
  · have hadvance := simulates_advance hk h
    cases ha : s.advance with
    | ok _ t =>
      rw [ha] at hadvance
      obtain ⟨_, t', ha', _, ht⟩ := hadvance.of_ok
      simp only [ha']
      exact .ok ht
    | error e t =>
      rw [ha] at hadvance
      obtain ⟨e', t', ha', he, _⟩ := hadvance.of_error
      simp only [ha']
      exact .error he
  · exact .ok h

/-- Parsers with the same base and recovery are alike when their scanners are; a base that is none
is reported at the start of both. -/
theorem matching_create (hk : k.Lawful) (hstart : k.Positions .start .start)
    {source source' : Source} {options options' : ParserOptions}
    (hbase : options.base? = options'.base?) (hrecover : options.recover = options'.recover)
    (h : Matching k.LexErrors k.Scanners (Scanner.ofSource source options.scanner)
      (Scanner.ofSource source' options'.scanner)) :
    Matching k.DocumentErrors k.Parsers (Parser.create source options)
      (Parser.create source' options') := by
  have hscanner := h.bind fun _ _ hs => matching_skipMark hk hs
  have hinitial : Matching k.DocumentErrors Eq (Parser.initialBase? options.base?)
      (Parser.initialBase? options'.base?) := by
    unfold Parser.initialBase?
    rw [← hbase]
    cases options.base? with
    | none => exact .ok rfl
    | some base =>
      dsimp only
      cases IriLibrary.parse base.toList with
      | ok iri => exact .ok rfl
      | error e => exact .error (.invalidIri _ _ hstart)
  unfold Parser.create
  apply hinitial.bind
  rintro base? _ rfl
  generalize Scanner.ofSource source options.scanner >>= Parser.skipMark = r at hscanner
  generalize Scanner.ofSource source' options'.scanner >>= Parser.skipMark = r' at hscanner
  cases hscanner with
  | ok hs => exact .ok ⟨hs, rfl, rfl, rfl, hrecover, rfl⟩
  | error he => exact .error (.lex he)

end Likeness

end RdfTurtle
