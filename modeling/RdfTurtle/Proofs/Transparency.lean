import RdfTurtle.Proofs.Delivery
import RdfTurtle.Proofs.Likeness.Parser
import RdfTurtle.Scanner.Operation
import RdfTurtle.Iri.Standard

/-! # Transparency of delivery

Only the bytes of a source and the way it ends matter. Where the bytes are cut, how large the buffer
is and how a reader paces its answers shows neither in a token, a position or an error, nor in the
items of a document.

* **`Likeness.sameBytes`** — the comparison of scanners whose decoders agree.
* **`delivery_transparent`** — scanners and parsers over the same bytes show the same. -/

namespace RdfTurtle

namespace Likeness

/-- Everything that is seen is equal, and the decoders agree. -/
def sameBytes : Likeness where
  Positions := Eq
  Texts := Eq
  Decoders := Decoder.Agrees Eq
  Admits := fun _ => True

/-- Decoders that agree go on agreeing, so that the comparison is lawful. -/
theorem lawful_sameBytes : sameBytes.Lawful where
  next := by
    have htracks : Decoder.Tracks Eq Eq :=
      ⟨fun _ _ h => congrArg Locator.position h, fun _ _ c h => congrArg (Locator.pass · c) h⟩
    intro d d' h
    have hnext := Decoder.simulates_next htracks h
    cases hd : d.next with
    | ok l e =>
      rw [hd] at hnext
      obtain ⟨l', e', hd', hl, he⟩ := hnext.of_ok
      rw [hd']
      exact .ok ⟨hl.1, hl.2, fun _ _ => trivial⟩ he
    | error fault e =>
      rw [hd] at hnext
      obtain ⟨fault', e', hd', hfault, he⟩ := hnext.of_error
      rw [hd']
      exact .error hfault he
  position _ _ h := congrArg Locator.position h.locator
  total p := ⟨p, rfl⟩
  push _ _ c h _ := congrArg (Text.push · c) h
  chars _ _ h := congrArg Text.chars h

/-- Errors that compare by equal parts are equal. -/
theorem eq_of_lexErrors {e e' : LexError} (h : sameBytes.LexErrors e e') : e = e' := by
  obtain ⟨fault, position⟩ := e
  obtain ⟨fault', position'⟩ := e'
  rw [show fault = fault' from h.fault, show position = position' from h.position]

/-- So are lexemes. -/
theorem eq_of_lexemes {l l' : Lexeme} (h : sameBytes.Lexemes l l') : l = l' := by
  obtain ⟨production, text, position⟩ := l
  obtain ⟨production', text', position'⟩ := l'
  rw [show production = production' from h.production, show text = text' from h.text,
    show position = position' from h.position]

/-- So are lookaheads. -/
theorem eq_of_lookaheads {l l' : Lookahead} (h : sameBytes.Lookaheads l l') : l = l' :=
  Lookahead.ext h.codePoint h.position

/-- So are the errors of documents. -/
theorem eq_of_documentErrors {e e' : DocumentError} (h : sameBytes.DocumentErrors e e') :
    e = e' := by
  cases h with
  | lex error => rw [eq_of_lexErrors error]
  | unknownPrefix _ position | invalidIri _ _ position | invalidEscape position
  | unexpectedToken _ position => rw [show _ = _ from position]

/-- So are items. -/
theorem eq_of_items {i i' : Item} (h : sameBytes.Items i i') : i = i' := by
  cases h with
  | triple t => rfl
  | error error => rw [eq_of_documentErrors error]

/-- Alike operations of scanners over the same bytes. -/
theorem simulates_perform (operation : Scanner.Operation) :
    Simulates sameBytes.LexErrors sameBytes.Scanners Eq operation.perform operation.perform := by
  cases operation with
  | recognize r =>
    apply (simulates_recognize lawful_sameBytes r).bind
    intro l l' hl
    exact .pure (congrArg some (eq_of_lexemes hl))
  | advance => exact (simulates_advance lawful_sameBytes).bind fun _ _ _ => .pure rfl
  | accumulate => exact (simulates_accumulate lawful_sameBytes).bind fun _ _ _ => .pure rfl
  | clear => exact (Simulates.of_modify fun _ _ h => scanners_clear h).bind fun _ _ _ => .pure rfl

/-- Scanners over the same bytes look the same under every sequence of operations. -/
theorem observe_eq {s s' : Scanner} (h : sameBytes.Scanners s s')
    (operations : List Scanner.Operation) : s.observe operations = s'.observe operations := by
  induction operations generalizing s s' with
  | nil => rfl
  | cons operation operations ih =>
    have hperform := simulates_perform operation h
    unfold Scanner.observe
    cases hp : operation.perform s with
    | ok l? t =>
      rw [hp] at hperform
      obtain ⟨l?', t', hp', rfl, ht⟩ := hperform.of_ok
      simp only [hp']
      rw [eq_of_lookaheads ht.current, show t.text = t'.text from ht.text, ih ht]
    | error e t =>
      rw [hp] at hperform
      obtain ⟨e', t', hp', he, ht⟩ := hperform.of_error
      simp only [hp']
      rw [eq_of_lexErrors he, eq_of_lookaheads ht.current, show t.text = t'.text from ht.text,
        ih ht]

variable [IriLibrary]

/-- Parsers over the same bytes look the same, whatever number of items is asked for. -/
theorem stages_eq {p p' : Parser} (h : sameBytes.Parsers p p') (n : Nat) :
    p.stages n = p'.stages n := by
  induction n generalizing p p' with
  | zero => rfl
  | succ n ih =>
    obtain ⟨hitem, hparser⟩ := alike_next lawful_sameBytes h
    have hitem' : p.next.1 = p'.next.1 := by
      generalize p.next.1 = i, p'.next.1 = i' at hitem
      cases hitem with
      | some hitem => rw [eq_of_items hitem]
      | none => rfl
    unfold Parser.stages
    rw [hitem', hparser.base, hparser.prefixes, ih hparser]

/-- Parsers over the same bytes yield the same items. -/
theorem items_eq {p p' : Parser} (h : sameBytes.Parsers p p') : p.items = p'.items :=
  List.forall₂_eq_eq_eq ▸ (alike_items lawful_sameBytes h).imp fun _ _ => eq_of_items

end Likeness

/-! ## Sources of the same bytes -/

section Same

variable {a b : Source} {bytes : List UInt8} {ending : Ending}

/-- Decoders over sources that deliver the same agree, with buffers of any size. -/
theorem Source.Delivers.agrees (ha : a.Delivers bytes ending) (hb : b.Delivers bytes ending)
    (options : Options) (m n : Nat) :
    (Decoder.ofSource a { options with bufferSize := m }).Agrees Eq
      (Decoder.ofSource b { options with bufferSize := n }) := by
  obtain ⟨hcontents, hending, hserves⟩ := ha.spec
  obtain ⟨hcontents', hending', hserves'⟩ := hb.spec
  exact {
    contents := hcontents.trans hcontents'.symm
    ending := hending.trans hending'.symm
    locator := rfl
    mode := rfl
    left := ⟨Options.capacity_pos _, hserves⟩
    right := ⟨Options.capacity_pos _, hserves'⟩ }

/-- Scanners of two sources of the same bytes are created alike, whatever their buffers hold. -/
theorem Source.Delivers.matching_scanners (ha : a.Delivers bytes ending)
    (hb : b.Delivers bytes ending) (options : Options) (m n : Nat) :
    Matching Eq Likeness.sameBytes.Scanners
      (Scanner.ofSource a { options with bufferSize := m })
      (Scanner.ofSource b { options with bufferSize := n }) :=
  (Likeness.matching_ofSource Likeness.lawful_sameBytes (ha.agrees hb options m n) rfl
    rfl).mono fun _ _ => Likeness.eq_of_lexErrors

section

variable [IriLibrary]

/-- So are parsers. -/
theorem Source.Delivers.matching_parsers (ha : a.Delivers bytes ending)
    (hb : b.Delivers bytes ending) (options : Options) (m n : Nat) (base? : Option String)
    (recover : Bool) :
    Matching Eq Likeness.sameBytes.Parsers
      (Parser.create a ⟨base?, recover, { options with bufferSize := m }⟩)
      (Parser.create b ⟨base?, recover, { options with bufferSize := n }⟩) := by
  refine Matching.mono ?_ fun _ _ => Likeness.eq_of_documentErrors
  exact Likeness.matching_create Likeness.lawful_sameBytes rfl rfl rfl
    (Likeness.matching_ofSource Likeness.lawful_sameBytes (ha.agrees hb options m n) rfl rfl)

/-- **Delivery is transparent.** Take two sources of the same bytes that end alike, cut and paced
in any way, and buffers of any size. Scanners over them fail alike at their first code point, or
show the same lookahead and text at first and after every sequence of operations, with the same
lexemes and errors. Parsers over them yield the same items, and the same base and namespaces after
each of them. -/
theorem delivery_transparent (ha : a.Delivers bytes ending) (hb : b.Delivers bytes ending)
    (options : Options) (m n : Nat) :
    (∀ operations : List Scanner.Operation,
      (Scanner.ofSource a { options with bufferSize := m }).map
          (fun s => (s.current, s.text, s.observe operations)) =
        (Scanner.ofSource b { options with bufferSize := n }).map
          (fun s => (s.current, s.text, s.observe operations))) ∧
    ∀ (base? : Option String) (recover : Bool),
      parse a ⟨base?, recover, { options with bufferSize := m }⟩ =
          parse b ⟨base?, recover, { options with bufferSize := n }⟩ ∧
        ∀ calls : Nat,
          (Parser.create a ⟨base?, recover, { options with bufferSize := m }⟩).map
              (Parser.stages calls) =
            (Parser.create b ⟨base?, recover, { options with bufferSize := n }⟩).map
              (Parser.stages calls) := by
  constructor
  · intro operations
    apply (ha.matching_scanners hb options m n).map_eq
    intro s s' h
    rw [Likeness.eq_of_lookaheads h.current, show s.text = s'.text from h.text,
      Likeness.observe_eq h operations]
  · intro base? recover
    have hparsers := ha.matching_parsers hb options m n base? recover
    constructor
    · unfold parse
      generalize Parser.create a _ = r, Parser.create b _ = r' at hparsers
      cases hparsers with
      | ok h => exact Likeness.items_eq h
      | error h => rw [h]
    · intro calls
      exact hparsers.map_eq fun p p' h => Likeness.stages_eq h calls

end

section

open scoped Iri.Standard

/-- Two groups of bytes cut in their middle, an empty chunk, and a reader that gives a byte at a
time, interrupted before each: the same document, whatever the buffers. -/
theorem delivery_transparent_cut_groups :
    (Source.chunks [[0x5F, 0x3A, 0x61, 0xC3], [], [0xA9, 0x20, 0xF0, 0x9F], [0x98, 0x80]]).Delivers
        [0x5F, 0x3A, 0x61, 0xC3, 0xA9, 0x20, 0xF0, 0x9F, 0x98, 0x80] .closed ∧
      (Source.reader (.ofBytes [0x5F, 0x3A, 0x61, 0xC3, 0xA9, 0x20, 0xF0, 0x9F, 0x98, 0x80] .closed
          fun _ => ⟨1, some 1⟩)).Delivers
        [0x5F, 0x3A, 0x61, 0xC3, 0xA9, 0x20, 0xF0, 0x9F, 0x98, 0x80] .closed ∧
      parse (.chunks [[0x5F, 0x3A, 0x61, 0xC3], [], [0xA9, 0x20, 0xF0, 0x9F], [0x98, 0x80]])
          ⟨none, true, { ({} : Options) with bufferSize := 3 }⟩ =
        parse (.reader (.ofBytes [0x5F, 0x3A, 0x61, 0xC3, 0xA9, 0x20, 0xF0, 0x9F, 0x98, 0x80]
            .closed fun _ => ⟨1, some 1⟩))
          ⟨none, true, { ({} : Options) with bufferSize := 0 }⟩ := by
  have hchunks := Source.Delivers.chunks
    [[0x5F, 0x3A, 0x61, 0xC3], [], [0xA9, 0x20, 0xF0, 0x9F], [0x98, 0x80]]
  have hreader := Source.Delivers.reader
    [0x5F, 0x3A, 0x61, 0xC3, 0xA9, 0x20, 0xF0, 0x9F, 0x98, 0x80] .closed (fun _ => ⟨1, some 1⟩)
    fun _ h => by nomatch h
  exact ⟨hchunks, hreader, ((delivery_transparent hchunks hreader {} 3 0).2 none true).1⟩

end

end Same

end RdfTurtle
