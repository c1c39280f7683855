import RdfTurtle.Proofs.Iteration
import RdfTurtle.Proofs.Modes
import RdfTurtle.Proofs.Transparency
import RdfTurtle.Iri.Standard

/-! # Settings that do not show

Well-formed UTF-8 is read alike with checks and without, and characters are accumulated alike in
either form. So neither setting shows in what is parsed, nor does the form of accumulated text where
the bytes are checked, whatever they are.

* **`Text.SameChars`** — texts of the same characters, in either form.
* **`Comparison.sameChars`** — scanners that have the same characters to come and accumulate the
  same.
* **`Parser.account`** — the whole of a run.
* **`settings_transparent`** — the settings that do not show in it. -/

namespace RdfTurtle

/-! ## Texts of the same characters -/

namespace Text

/-- The texts are encodings of the same characters, each in some form. -/
def SameChars (t t' : Text) : Prop :=
  ∃ e e' text, t = encode e (codes text) ∧ t' = encode e' (codes text)

/-- Texts without code points hold the same characters. -/
theorem sameChars_empty (e e' : TextEncoding) : (empty e).SameChars (empty e') :=
  ⟨e, e', [], append_empty e [], append_empty e' []⟩

variable {t t' : Text}

/-- The texts stay so when a character is added to both. -/
theorem SameChars.push (h : t.SameChars t') (x : Char) : (t.push x).SameChars (t'.push x) := by
  obtain ⟨e, e', text, rfl, rfl⟩ := h
  refine ⟨e, e', text ++ [x], ?_, ?_⟩ <;>
    rw [codes_append, ← append_empty, ← append_empty, append_append] <;> rfl

/-- The characters are read back from both. -/
theorem SameChars.chars_eq (h : t.SameChars t') : t.chars = t'.chars := by
  obtain ⟨e, e', text, rfl, rfl⟩ := h
  exact (chars_encode e text).trans (chars_encode e' text).symm

end Text

/-! ## Scanners and parsers -/

/-- The same characters at the same positions, in either form. -/
def Likeness.sameChars : Likeness where
  Positions := Eq
  Texts := Text.SameChars
  Decoders d d' := d.prospect = d'.prospect
  Admits c := ∃ x : Char, c = x

/-- Scanners that have the same characters to come. -/
def Comparison.sameChars : Comparison :=
  .ofAlikeProspects Likeness.sameChars Eq (fun p => ⟨p, rfl⟩)
    (fun t t' c h hc => by
      obtain ⟨x, rfl⟩ := hc
      exact h.push x)
    (fun t t' h => h.chars_eq)

/-- A prospect of characters is alike to itself. -/
theorem Likeness.alike_of_textual {p q : Prospect} (h : p = q)
    (htextual : ∀ l ∈ p.lookaheads, ∀ c, l.codePoint? = some c → ∃ x : Char, c = x) :
    p.Alike sameChars q := by
  subst h
  refine ⟨List.forall₂_same.2 fun l hl => ⟨rfl, rfl, htextual l hl⟩, ?_⟩
  cases p.ending with
  | ok => exact .ok rfl
  | error => exact .error ⟨rfl, rfl⟩

namespace Parser

variable [IriLibrary]

/-- What a run comes to: all that it yields, and the lookahead at which its scanner stands then. -/
def account (p : Parser) : Yield × Lookahead := (p.yield, p.finish.scanner.current)

/-- Parsers over the same characters come to the same. -/
theorem account_eq {p p' : Parser} (h : Comparison.sameChars.Parsers p p') :
    p.account = p'.account := by
  have hpursue := (Comparison.follows_pursue.alike h).resolve fun _ => id
  obtain ⟨hitems, hbase, hprefixes⟩ :=
    Comparison.alike_yield_of_pursue (fun _ => id) (fun _ _ => id) hpursue
  have hfinish := Comparison.parsers_finish (fun _ => id) (fun _ _ => id)
    (Comparison.alike_next_of_pursue (fun _ => id) (fun _ _ => id) hpursue)
  have hpositions : ∀ ⦃position position'⦄, Comparison.sameChars.Positions position position' →
    Likeness.sameBytes.Positions position position' := fun _ _ hsame => hsame
  have hsame : List.Forall₂ Likeness.sameBytes.Items p.items p'.items :=
    hitems.imp fun _ _ hitem => hitem.mono hpositions
  have hyield : p.yield = p'.yield := Likeness.eq_of_yields ⟨hsame, hbase, hprefixes⟩
  have hcurrent := Comparison.sameChars.current hfinish.scanner.input
  rw [account, account, hyield, Lookahead.ext hcurrent.codePoint hcurrent.position]

/-! ## The start of a document -/

omit [IriLibrary] in
/-- A scanner at the start of a document has accumulated nothing yet. -/
theorem frame_begin {source : Source} {options : Options} {s : Scanner}
    (h : Scanner.ofSource source options >>= skipMark = .ok s) :
    s.text = .empty options.encoding ∧ s.start = .start ∧ s.options = options := by
  obtain ⟨t, ht, hmark⟩ := of_begin_ok h
  obtain ⟨current, decoder, hnext, hsame⟩ := Scanner.of_ofSource_ok ht
  have hfirst : current.position = .start := by
    have hlocates := (Decoder.ofSource source options).locates_next
    rw [hnext] at hlocates
    cases hlocates <;> rfl
  have hbegin : t.text = .empty options.encoding ∧ t.start = .start ∧ t.options = options := by
    rw [hsame]
    exact ⟨rfl, hfirst, rfl⟩
  rcases of_skipMark_ok hmark with ⟨-, rfl⟩ | ⟨-, -, hstep⟩
  · exact hbegin
  · have hframe := t.frame_step
    rw [hstep, finalState_ok] at hframe
    obtain ⟨htext, hstart, hoptions⟩ := hframe
    rwa [htext, hstart, hoptions]

omit [IriLibrary] in
/-- Scanners over the same characters begin alike, or none does. -/
theorem matching_begin {source : Source} {options options' : Options}
    (hiri : options.iri = options'.iri)
    (hprospect : (Decoder.ofSource source options).prospect =
      (Decoder.ofSource source options').prospect)
    (htextual : (Decoder.ofSource source options).Textual) :
    Matching Eq Comparison.sameChars.Scanners (Scanner.ofSource source options >>= skipMark)
      (Scanner.ofSource source options' >>= skipMark) := by
  have hbegin := unmarked_of_begin source options
  have hbegin' := unmarked_of_begin source options'
  rw [← hprospect] at hbegin'
  have hrest := (Prospect.endOf_unmarked (Decoder.ofSource source options).prospect).lookaheads
  cases hs : Scanner.ofSource source options >>= skipMark with
  | error e =>
    rw [hs] at hbegin
    cases hs' : Scanner.ofSource source options' >>= skipMark with
    | error e' =>
      rw [hs'] at hbegin'
      obtain ⟨-, herror⟩ := Prospect.mk.inj (hbegin.symm.trans hbegin')
      exact .error (Except.error.inj herror)
    | ok s' =>
      -- No scanner stands before nothing but a failure.
      rw [hs'] at hbegin'
      cases (Scanner.atEnd_of_prospect (hbegin'.trans hbegin)).2
  | ok s =>
    rw [hs] at hbegin
    cases hs' : Scanner.ofSource source options' >>= skipMark with
    | error e' =>
      rw [hs'] at hbegin'
      cases (Scanner.atEnd_of_prospect (hbegin.trans hbegin')).2
    | ok s' =>
      rw [hs'] at hbegin'
      obtain ⟨htext, hstart, hoptions⟩ := frame_begin hs
      obtain ⟨htext', hstart', hoptions'⟩ := frame_begin hs'
      have hempty := Text.sameChars_empty options.encoding options'.encoding
      refine .ok {
        input := Likeness.alike_of_textual (hbegin.trans hbegin'.symm) ?_
        text := by rw [htext, htext']; exact hempty
        start := hstart.trans hstart'.symm
        iri := by rw [hoptions, hoptions', hiri]
        empty := by rw [hoptions, hoptions']; exact hempty }
      rw [hbegin]
      exact fun l hl => htextual l (hrest.subset hl)

/-- Runs over the same characters, checked against the same rules for IRIs, come to the same. -/
theorem map_account_eq {source : Source} {options options' : ParserOptions}
    (hbase : options.base? = options'.base?) (hrecover : options.recover = options'.recover)
    (hiri : options.scanner.iri = options'.scanner.iri)
    (hprospect : (Decoder.ofSource source options.scanner).prospect =
      (Decoder.ofSource source options'.scanner).prospect)
    (htextual : (Decoder.ofSource source options.scanner).Textual) :
    (create source options).map account = (create source options').map account := by
  have hbegin := matching_begin hiri hprospect htextual
  unfold create
  rw [← hbase]
  generalize Scanner.ofSource source options.scanner >>= skipMark = r,
    Scanner.ofSource source options'.scanner >>= skipMark = r' at hbegin
  cases initialBase? options.base? with
  | error e => rfl
  | ok base? =>
    cases hbegin with
    | ok hs => exact congrArg Except.ok (account_eq ⟨hs, rfl, rfl, rfl, hrecover, rfl⟩)
    | error he => rw [he]

end Parser

/-- **Settings that do not show.** Whatever a source delivers, and however it is cut, paced and
ended: if its bytes are well-formed UTF-8, parsing comes to the same with checks of UTF-8 and
without, and in either form of accumulated text. With checks the form does not show in any bytes.
What is the same is whether a parser is created or which error is reported instead, all triples and
errors in their order, the base and the namespaces at the end, and where the scanner stands then. -/
theorem settings_transparent [IriLibrary] (source : Source) (base? : Option String) (recover : Bool)
    (bufferSize : Nat) (iri : Strictness) :
    (Utf8.WellFormed source.contents → ∀ utf8 utf8' encoding encoding',
      (Parser.create source ⟨base?, recover, ⟨bufferSize, utf8, iri, encoding⟩⟩).map
          Parser.account =
        (Parser.create source ⟨base?, recover, ⟨bufferSize, utf8', iri, encoding'⟩⟩).map
          Parser.account) ∧
    ∀ encoding encoding',
      (Parser.create source ⟨base?, recover, ⟨bufferSize, .strict, iri, encoding⟩⟩).map
          Parser.account =
        (Parser.create source ⟨base?, recover, ⟨bufferSize, .strict, iri, encoding'⟩⟩).map
          Parser.account := by
  constructor
  · intro h utf8 utf8' encoding encoding'
    have hprospect := Decoder.prospect_checking
      (d := .ofSource source ⟨bufferSize, utf8, iri, encoding⟩) h utf8'
    exact Parser.map_account_eq rfl rfl rfl hprospect.symm (Decoder.textual_of_wellFormed h)
  · intro encoding encoding'
    exact Parser.map_account_eq rfl rfl rfl rfl (Decoder.textual_of_strict rfl)

section

open scoped Iri.Standard

/-- A string of one character beyond `U+FFFF`, whose bytes are cut in two: two units in one form and
four bytes in the other. -/
theorem settings_transparent_pair :
    Utf8.WellFormed (Source.chunks [[0x3C, 0x73, 0x3E, 0x20, 0x3C, 0x70, 0x3E, 0x20, 0x22, 0xF0],
        [0x9F, 0x98, 0x80, 0x22, 0x20, 0x2E]]).contents ∧
      (Parser.create (.chunks [[0x3C, 0x73, 0x3E, 0x20, 0x3C, 0x70, 0x3E, 0x20, 0x22, 0xF0],
          [0x9F, 0x98, 0x80, 0x22, 0x20, 0x2E]])
          ⟨none, true, ⟨3, .permissive, .strict, .utf16⟩⟩).map Parser.account =
        (Parser.create (.chunks [[0x3C, 0x73, 0x3E, 0x20, 0x3C, 0x70, 0x3E, 0x20, 0x22, 0xF0],
          [0x9F, 0x98, 0x80, 0x22, 0x20, 0x2E]]) ⟨none, true, ⟨3, .strict, .strict, .utf8⟩⟩).map
          Parser.account := by
  have hwellFormed : Utf8.WellFormed (Source.chunks [[0x3C, 0x73, 0x3E, 0x20, 0x3C, 0x70, 0x3E,
      0x20, 0x22, 0xF0], [0x9F, 0x98, 0x80, 0x22, 0x20, 0x2E]]).contents :=
    Utf8.wellFormed_iff.2 ⟨"<s> <p> \"😀\" .".toList, by decide +kernel⟩
  exact ⟨hwellFormed, (settings_transparent _ none true 3 .strict).1 hwellFormed _ _ _ _⟩

end

end RdfTurtle
