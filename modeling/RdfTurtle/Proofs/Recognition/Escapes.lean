import RdfTurtle.Proofs.Lossy
import RdfTurtle.Proofs.Reading
import RdfTurtle.Proofs.Recognition.Composites
import RdfTurtle.Proofs.Recognition.LocalNames
import RdfTurtle.Proofs.Recognition.References
import RdfTurtle.Proofs.Segments
import RdfTurtle.Iri.Standard

/-! # Escapes are decoded as they are recognized

A token is recognized code point by code point, and decoded from the characters that its code points
come to. Both read the same escapes: what is lost among the code points that stand for themselves
stays between the escapes, which are written in ASCII.

* **`Quoted.part`** — what bodies of strings and references are made of.
* **`Quoted.exists_segments`** — the characters of a body, segmented as its code points are.
* **`State.mem_strings_of_words`**, **`State.mem_iriRef_of_words`** — strings and references that
  any recognizer reads.
* **`Scanner.exists_segments_of_string`**, **`Scanner.exists_segments_of_iriRef`**,
  **`Scanner.exists_pieces_of_localName`** — what the characters of an accepted token are made of.
* **`escapes_agree`** — the tokens with escapes and what is made of them. -/

namespace RdfTurtle

open Computability
open Escape (Segment)
open Quoted (one mark)

/-! ## Bodies -/

namespace Quoted

variable {letters : Char → Option Char} {e : TextEncoding} {c : CodePoint}
  {text more : List CodePoint}

/-- A code point other than a backslash, a backslash and a letter that denotes a character, or a
numeric escape. -/
def part (letters : Char → Option Char) : Language CodePoint :=
  one (· ≠ '\\') + mark '\\' * one (fun c => ∃ x y, c = CodePoint.ofChar x ∧ letters x = some y) +
    numericEscape

/-- The digits of an escape, as characters. -/
theorem exists_digits {n : Nat} (h : text ∈ hexDigit ^ n) :
    ∃ digits : List Char, text = codes digits ∧ digits.length = n ∧
      ∀ x ∈ digits, x ∈ Escape.hexDigits := by
  have hdigit : ∀ n < 0x67, (⟨n⟩ : CodePoint) ∈ CharClass.hexDigit →
      (⟨n⟩ : CodePoint) ∈ Escape.hexDigits.map CodePoint.ofChar := by decide_cbv
  induction n generalizing text with
  | zero => exact ⟨[], h, rfl, by simp⟩
  | succ n ih =>
    rw [pow_succ', hexDigit_eq] at h
    obtain ⟨_, ⟨c, hc, rfl⟩, more, hmore, rfl⟩ := Language.mem_mul.1 h
    rw [← hexDigit_eq] at hmore
    obtain ⟨digits, rfl, rfl, hdigits⟩ := ih hmore
    have hlt : c.value < 0x67 := by
      obtain ⟨r, hr, -, hlast⟩ := hc
      simp [CharClass.hexDigit] at hr
      rcases hr with rfl | rfl | rfl <;> exact Nat.lt_of_le_of_lt hlast (by decide)
    obtain ⟨x, hx, heq⟩ := List.mem_map.1 (hdigit c.value hlt hc)
    obtain rfl : c = CodePoint.ofChar x := heq.symm
    exact ⟨x :: digits, rfl, rfl, List.forall_mem_cons.2 ⟨hx, hdigits⟩⟩

/-- The letters of escapes are below the surrogates. -/
theorem toNat_of_letterOf {x y : Char} (h : Escape.letterOf x = some y) : x.toNat < 0xD800 := by
  have hall : Escape.letterTable.all (fun pair => pair.1.toNat < 0xD800) = true := by decide
  exact of_decide_eq_true (List.all_eq_true.1 hall _ (Escape.mem_letterTable h))

/-- So are the hexadecimal digits. -/
theorem toNat_of_hexDigits {x : Char} (hx : x ∈ Escape.hexDigits) : x.toNat < 0xD800 := by
  have hall : Escape.hexDigits.all (fun x => x.toNat < 0xD800) = true := by decide_cbv
  exact of_decide_eq_true (List.all_eq_true.1 hall x hx)

/-- An escape of a body is a segment of its characters, all of them ASCII. -/
theorem exists_segment (hletters : ∀ x y, letters x = some y → x.toNat < 0xD800)
    (h : text ∈ part letters) :
    (∃ c, c ≠ CodePoint.ofChar '\\' ∧ text = [c]) ∨
      ∃ g : Segment letters, text = codes g.text ∧ ∀ x ∈ g.text, x.toNat < 0xD800 := by
  rcases h with (hraw | hletter) | hnumeric
  · exact Or.inl hraw
  · obtain ⟨_, rfl, _, ⟨x, y, rfl, hy⟩, rfl⟩ := mem_mark_mul.1 hletter
    refine Or.inr ⟨.letter x y hy, rfl, ?_⟩
    simpa [Segment.text] using hletters x y hy
  · obtain ⟨_, rfl, hbehind⟩ := mem_mark_mul.1 hnumeric
    rcases hbehind with hshort | hlong
    · obtain ⟨_, rfl, hdigits⟩ := mem_mark_mul.1 hshort
      obtain ⟨digits, rfl, hlength, hhex⟩ := exists_digits hdigits
      refine Or.inr ⟨.numeric false digits hlength hhex, rfl, ?_⟩
      simpa [Segment.text] using fun x hx => toNat_of_hexDigits (hhex x hx)
    · obtain ⟨_, rfl, hdigits⟩ := mem_mark_mul.1 hlong
      obtain ⟨digits, rfl, hlength, hhex⟩ := exists_digits hdigits
      refine Or.inr ⟨.numeric true digits hlength hhex, rfl, ?_⟩
      simpa [Segment.text] using fun x hx => toNat_of_hexDigits (hhex x hx)

/-- Characters other than a backslash stand for themselves. -/
theorem exists_plain {chars : List Char} (h : '\\' ∉ chars) :
    ∃ segments : List (Segment letters), chars = segments.flatMap Segment.text := by
  induction chars with
  | nil => exact ⟨[], rfl⟩
  | cons x chars ih =>
    rw [List.mem_cons, not_or] at h
    obtain ⟨segments, rfl⟩ := ih h.2
    exact ⟨.plain x (Ne.symm h.1) :: segments, rfl⟩

/-- **The characters of a body are segmented as its code points are.** -/
theorem exists_segments (hletters : ∀ x y, letters x = some y → x.toNat < 0xD800)
    (h : text ∈ (part letters)∗) :
    ∃ segments : List (Segment letters), Text.lossy e text = segments.flatMap Segment.text := by
  obtain ⟨parts, rfl, hparts⟩ := Language.mem_kstar.1 h
  -- The code points since the last escape are read together, as some of them may come to one
  -- character.
  suffices hrun : ∀ run : List CodePoint, (∀ c ∈ run, c ≠ CodePoint.ofChar '\\') →
      ∃ segments : List (Segment letters),
        Text.lossy e (run ++ parts.flatten) = segments.flatMap Segment.text from
    hrun [] (List.forall_mem_nil _)
  clear h
  have hplain {run : List CodePoint} (hrun : ∀ c ∈ run, c ≠ CodePoint.ofChar '\\') :
      '\\' ∉ Text.lossy e run :=
    fun hmem => hrun _ (Text.mem_of_mem_lossy (by decide) hmem) rfl
  induction parts with
  | nil =>
    intro run hrun
    rw [List.flatten_nil, List.append_nil]
    exact exists_plain (hplain hrun)
  | cons part parts ih =>
    intro run hrun
    obtain ⟨hpart, hmore⟩ := List.forall_mem_cons.1 hparts
    rcases exists_segment hletters hpart with ⟨c, hc, rfl⟩ | ⟨g, rfl, hascii⟩
    · have hlonger : ∀ d ∈ run ++ [c], d ≠ CodePoint.ofChar '\\' := by
        intro d hd
        rcases List.mem_append.1 hd with hd | hd
        · exact hrun d hd
        · exact List.mem_singleton.1 hd ▸ hc
      obtain ⟨segments, hsegments⟩ := ih hmore _ hlonger
      refine ⟨segments, ?_⟩
      rw [← hsegments, List.flatten_cons, List.append_assoc]
    · have hne : g.text ≠ [] := by cases g <;> exact List.cons_ne_nil _ _
      obtain ⟨before, hbefore⟩ := @exists_plain letters _ (hplain hrun)
      obtain ⟨behind, hbehind⟩ := ih hmore [] (List.forall_mem_nil _)
      rw [List.nil_append] at hbehind
      refine ⟨before ++ g :: behind, ?_⟩
      rw [List.flatten_cons, Text.lossy_append_codes hne hascii, hbehind, hbefore,
        List.flatMap_append, List.flatMap_cons]

/-! ### The bodies of strings and references -/

/-- What denotes a character behind a backslash in strings. -/
theorem mem_part_of_letterEscape (h : text ∈ letterEscape) : text ∈ part Escape.letterOf := by
  obtain ⟨_, rfl, c, hc, rfl⟩ := mem_mark_mul.1 h
  refine Or.inl (Or.inr (cons_mem_mark_mul.2 ⟨c, ?_, rfl⟩))
  simp only [codes_cons, codes_nil, List.mem_cons, List.not_mem_nil, or_false] at hc
  rcases hc with rfl | rfl | rfl | rfl | rfl | rfl | rfl | rfl <;> exact ⟨_, _, rfl, rfl⟩

/-- A piece of a string is a part that may be segmented. -/
theorem mem_part_of_piece {Raw : CodePoint → Prop} (hraw : ∀ c, Raw c → c ≠ '\\')
    (h : text ∈ piece Raw) : text ∈ part Escape.letterOf := by
  rcases h with (⟨c, hc, rfl⟩ | hletter) | hnumeric
  · exact Or.inl (Or.inl ⟨c, hraw c hc, rfl⟩)
  · exact mem_part_of_letterEscape hletter
  · exact Or.inr hnumeric

/-- Between triple marks a mark stands for itself. -/
theorem mem_parts_of_marked {q : Quote}
    (h : text ∈ (1 + mark q.char + mark q.char ^ 2) * longPiece q) :
    text ∈ (part Escape.letterOf)∗ := by
  have hmark : mark q.char ≤ (part Escape.letterOf)∗ := by
    refine le_trans ?_ le_kstar
    rintro text ⟨c, rfl, rfl⟩
    exact Or.inl (Or.inl ⟨_, quote_ne_backslash q, rfl⟩)
  have hpiece : longPiece q ≤ (part Escape.letterOf)∗ :=
    le_trans (fun _ h => mem_part_of_piece (fun _ hc => hc.2) h) le_kstar
  have hmarks : 1 + mark q.char + mark q.char ^ 2 ≤ (part Escape.letterOf)∗ := by
    refine add_le (add_le one_le_kstar hmark) ?_
    rw [pow_two, ← kstar_mul_kstar]
    exact mul_le_mul' hmark hmark
  rw [← kstar_mul_kstar]
  exact mul_le_mul' hmarks hpiece h

/-- **A string is a body between marks**, one or three on each side. -/
theorem exists_body {p : Production} (h : text ∈ p.strings) :
    ∃ (q : Quote) (n : Nat) (body : List CodePoint),
      (p = .shortString q ∧ n = 1 ∨ p = .longString q ∧ n = 3) ∧
      body ∈ (part Escape.letterOf)∗ ∧
      text = codes (List.replicate n q.char) ++ (body ++ codes (List.replicate n q.char)) := by
  cases p with
  | shortString q =>
    obtain ⟨rest, rfl, hrest⟩ := mem_mark_mul.1 h
    obtain ⟨body, hbody, close, ⟨c, rfl, rfl⟩, rfl⟩ := Language.mem_mul.1 hrest
    have hle : (shortPiece q)∗ ≤ (part Escape.letterOf)∗ :=
      kstar_mono fun _ h => mem_part_of_piece (fun _ hc => hc.2.1) h
    exact ⟨q, 1, body, Or.inl ⟨rfl, rfl⟩, hle hbody, rfl⟩
  | longString q =>
    obtain ⟨rest, rfl, hrest⟩ := mem_long.1 h
    obtain ⟨body, hbody, close, hclose, rfl⟩ := Language.mem_mul.1 hrest
    have hle : ((1 + mark q.char + mark q.char ^ 2) * longPiece q)∗ ≤ (part Escape.letterOf)∗ := by
      rw [← kstar_idem (part Escape.letterOf)]
      exact kstar_mono fun _ h => mem_parts_of_marked h
    refine ⟨q, 3, body, Or.inr ⟨rfl, rfl⟩, hle hbody, ?_⟩
    rw [pow_succ', pow_two, mem_mark_mul] at hclose
    obtain ⟨_, rfl, hclose⟩ := hclose
    obtain ⟨_, rfl, c, rfl, rfl⟩ := mem_mark_mul.1 hclose
    rfl
  | _ => exact absurd h id

/-- A reference is a body between angle brackets, in which no letters are known. -/
theorem exists_body_of_iriRef {iri : Strictness} (h : text ∈ Bracketed.iriRef iri) :
    ∃ body ∈ (part fun _ => none)∗, text = codes ['<'] ++ (body ++ codes ['>']) := by
  have hpiece : Bracketed.piece iri ≤ part fun _ => none := by
    rintro text (⟨c, hc, rfl⟩ | hnumeric)
    · exact Or.inl (Or.inl ⟨c, hc.2.1, rfl⟩)
    · exact Or.inr hnumeric
  obtain ⟨rest, rfl, hrest⟩ := mem_mark_mul.1 h
  obtain ⟨body, hbody, close, ⟨c, rfl, rfl⟩, rfl⟩ := Language.mem_mul.1 hrest
  exact ⟨body, kstar_mono hpiece hbody, rfl⟩

/-- The characters of a body between marks are those of the body, between the marks. -/
theorem lossy_between {before behind : List Char} {body : List CodePoint}
    (hbefore : before ≠ []) (hbehind : behind ≠ []) (hascii : ∀ x ∈ before, x.toNat < 0xD800)
    (hascii' : ∀ x ∈ behind, x.toNat < 0xD800) :
    Text.lossy e (codes before ++ (body ++ codes behind)) =
      before ++ Text.lossy e body ++ behind := by
  have hfront := @Text.lossy_append_codes e before hbefore hascii [] (body ++ codes behind)
  have hback := @Text.lossy_append_codes e behind hbehind hascii' body []
  rw [List.append_nil, Text.lossy_nil, List.append_nil] at hback
  rw [List.nil_append, Text.lossy_nil, List.nil_append] at hfront
  rw [hfront, hback, List.append_assoc]

end Quoted

/-! ## Tokens of any recognizer -/

namespace State

variable {iri : Strictness} {p : Production} {r d : Recognizer} {text : List CodePoint}

/-- What a recognizer reads another one takes, if the first moves say so: those for a code point
with which such a token begins are the same, or there is none. -/
theorem takes_of_words (h : text ∈ (start r).words iri p) (hlocal : p.family ≠ .localName)
    (hblank : p.family ≠ .blank) (hd : d.nullable = false)
    (hnext : ∀ c, p.family.Begins c →
      (start r).next iri c = (start d).next iri c ∨ (start r).next iri c = none) :
    ((start d).scan iri [] text).Takes p text := by
  have hr : r.nullable = false := by
    cases r with
    | localName => exact absurd (family_of_path h rfl) hlocal
    | blank => exact absurd (family_of_path h rfl) hblank
    | _ => rfl
  have hfamily : (start r).family ≠ some .blank := fun hst => hblank (family_of_path h hst)
  have hnone (r : Recognizer) (hr : r.nullable = false) : (start r).accepting = none :=
    accepting_of_untaken (Or.inl ⟨r, rfl, hr⟩)
  have htakes := (mem_words_iff_takes hfamily).1 h
  cases text with
  | nil => exact absurd h (nil_notMem_words hfamily (hnone r hr))
  | cons c text =>
    rcases hnext c (begins_of_takes hr htakes) with hsame | hstuck
    · exact (takes_congr hsame (by rw [hnone r hr, hnone d hd])).1 htakes
    · rw [takes_of_stuck hstuck, hnone r hr] at htakes
      cases htakes.1

/-- Strings, whichever recognizer reads them, are those of the grammar. -/
theorem mem_strings_of_words (h : text ∈ (start r).words iri p) (hp : p.family = .string) :
    text ∈ p.strings := by
  have htakes : ((start .string).scan iri [] (text ++ [])).Takes p text := by
    rw [List.append_nil]
    refine takes_of_words h (by rw [hp]; decide) (by rw [hp]; decide) rfl fun c hc => ?_
    rw [hp] at hc
    obtain ⟨q, rfl⟩ := hc
    cases iri <;> cases r <;> cases q <;> decide +kernel
  exact (takes_string.1 htakes).1

/-- References, whichever recognizer reads them, are those of the grammar. -/
theorem mem_iriRef_of_words (h : text ∈ (start r).words iri .iriRef) :
    text ∈ Bracketed.iriRef iri := by
  rw [← words_iriRef, mem_words_iff_takes (by decide)]
  refine takes_of_words h (by decide) (by decide) rfl ?_
  rintro c rfl
  cases iri <;> cases r <;> decide +kernel

/-- The recognizer of strings reads nothing else. -/
theorem family_of_string (h : text ∈ (start .string).words iri p) : p.family = .string := by
  refine family_of_only h rfl fun c => ?_
  exact .ite (fun _ => .some rfl) fun _ => .ite (fun _ => .some rfl) fun _ => .none

end State

/-! ## Local names -/

namespace Naming

variable {text : List CodePoint}

/-- A part of a local name is a piece of it. -/
theorem exists_localPiece (h : text ∈ localFurther + mark '.') :
    ∃ piece : Syntax.LocalPiece, text = codes piece.text := by
  have hdigit {c : CodePoint} (hc : c ∈ CharClass.hexDigit) : ∃ x : Char, c = x :=
    State.exists_char (by simp [CharClass.hexDigit]) hc
  rcases h with (⟨c, hc, rfl⟩ | hpercent | hescape) | ⟨c, rfl, rfl⟩
  · have hclass := mem_localChar.2 hc
    obtain ⟨x, rfl⟩ := State.exists_char (by simp [CharClass.localChar]) hclass
    exact ⟨.plain x hclass, rfl⟩
  · obtain ⟨_, rfl, hdigits⟩ := Quoted.mem_mark_mul.1 hpercent
    rw [pow_two, Quoted.hexDigit_eq] at hdigits
    obtain ⟨_, ⟨c, hc, rfl⟩, _, ⟨d, hd, rfl⟩, rfl⟩ := Language.mem_mul.1 hdigits
    obtain ⟨x, rfl⟩ := hdigit hc
    obtain ⟨y, rfl⟩ := hdigit hd
    exact ⟨.percent x y hc hd, rfl⟩
  · obtain ⟨_, rfl, c, hc, rfl⟩ := Quoted.mem_mark_mul.1 hescape
    have hclass := mem_localEscape.2 hc
    obtain ⟨x, rfl⟩ := State.exists_char (by simp [CharClass.localEscape]) hclass
    exact ⟨.escape x hclass, rfl⟩
  · exact ⟨.dot, rfl⟩

/-- **A local name is made of pieces.** -/
theorem exists_localPieces (h : text ∈ 1 + localName) :
    ∃ pieces : List Syntax.LocalPiece, text = codes (pieces.flatMap Syntax.LocalPiece.text) := by
  -- Where a dot may stand does not matter here: every name is among the repetitions of what
  -- may go on a name and of dots.
  have hfirst : localFirst ≤ localFurther + mark '.' := by
    rintro word (⟨c, hc, rfl⟩ | hescape)
    · refine Or.inl (Or.inl ⟨c, ?_, rfl⟩)
      rcases hc with hc | hc | hc
      · exact Or.inl (Or.inl hc)
      · exact Or.inr hc
      · exact Or.inl (Or.inr (Or.inr (Or.inl hc)))
    · exact Or.inl (Or.inr hescape)
  have hfurther : localFurther ≤ (localFurther + mark '.')∗ :=
    le_trans (fun _ hword => Or.inl hword) le_kstar
  have htail : tail localFurther ≤ (localFurther + mark '.')∗ := by
    refine add_le one_le_kstar ?_
    conv_rhs => rw [← kstar_mul_kstar]
    exact mul_le_mul' le_rfl hfurther
  have hname : 1 + localName ≤ (localFurther + mark '.')∗ := by
    refine add_le one_le_kstar ?_
    rw [← kstar_mul_kstar]
    exact mul_le_mul' (hfirst.trans le_kstar) htail
  obtain ⟨parts, rfl, hparts⟩ := Language.mem_kstar.1 (hname h)
  clear h
  induction parts with
  | nil => exact ⟨[], rfl⟩
  | cons part parts ih =>
    obtain ⟨hpart, hmore⟩ := List.forall_mem_cons.1 hparts
    obtain ⟨piece, rfl⟩ := exists_localPiece hpart
    obtain ⟨pieces, hpieces⟩ := ih hmore
    exact ⟨piece :: pieces, by rw [List.flatten_cons, hpieces, List.flatMap_cons, codes_append]⟩

end Naming

/-! ## What is made of the tokens -/

namespace Parser

variable {t : Token}

variable [IriLibrary]

/-- What becomes of a string with a segmented body. -/
theorem readObject_of_segments {q : Quote} {n : Nat} {segments : List (Segment Escape.letterOf)}
    (hp : t.production = .shortString q ∧ n = 1 ∨ t.production = .longString q ∧ n = 3)
    (hinner : t.inner n = segments.flatMap Segment.text) :
    ((∀ g ∈ segments, g.Named) →
      Escape.string? (t.inner n) = some (segments.map Segment.value) ∧
      readObject t = readSuffix (String.ofList (segments.map Segment.value))) ∧
    (¬ (∀ g ∈ segments, g.Named) →
      Escape.string? (t.inner n) = none ∧
      ∀ p, readObject t p = .error (.invalidEscape t.position) p) := by
  have hread : readObject t = readString n t := by
    rcases hp with ⟨hp, rfl⟩ | ⟨hp, rfl⟩ <;> rw [readObject, hp]
  have hdecode : Escape.string? (t.inner n) =
      Escape.decode? Escape.letterOf (segments.flatMap Segment.text) := by
    rw [hinner, Escape.string?_eq]
  rw [hread, readString, hdecode]
  constructor
  · intro h
    rw [Escape.decode?_of_named rfl rfl h]
    exact ⟨rfl, rfl⟩
  · intro h
    rw [Escape.decode?_of_unnamed rfl rfl h]
    exact ⟨rfl, fun _ => rfl⟩

/-- What becomes of a reference with a segmented body. -/
theorem resource_of_segments {segments : List (Segment fun _ => none)}
    (hp : t.production = .iriRef) (hinner : t.inner 1 = segments.flatMap Segment.text) :
    ((∀ g ∈ segments, g.Named) →
      Escape.iri? (t.inner 1) = some (segments.map Segment.value) ∧
      resource t = resolve (segments.map Segment.value) t.position) ∧
    (¬ (∀ g ∈ segments, g.Named) →
      Escape.iri? (t.inner 1) = none ∧
      ∀ p, resource t p = .error (.invalidEscape t.position) p) := by
  rw [resource, hp, hinner, Escape.iri?]
  constructor
  · intro h
    rw [Escape.decode?_of_named rfl rfl h]
    exact ⟨rfl, rfl⟩
  · intro h
    rw [Escape.decode?_of_unnamed rfl rfl h]
    exact ⟨rfl, fun _ => rfl⟩

end Parser

namespace Scanner

variable {r : Recognizer} {s s' : Scanner} {l : Lexeme}

/-- The characters of a string are those of its segments, between marks. -/
theorem exists_segments_of_string (hl : recognize r s = .ok l s')
    (hstring : r = .string ∨ l.production.family = .string) :
    ∃ (q : Quote) (n : Nat) (segments : List (Segment Escape.letterOf)),
      (l.production = .shortString q ∧ n = 1 ∨ l.production = .longString q ∧ n = 3) ∧
      l.text.chars = List.replicate n q.char ++ segments.flatMap Segment.text ++
        List.replicate n q.char := by
  obtain ⟨text, htext, hword⟩ := path_of_recognize hl
  have hfamily : l.production.family = .string :=
    hstring.elim (fun hr => State.family_of_string (hr ▸ hword)) id
  obtain ⟨q, n, body, hp, hbody, rfl⟩ :=
    Quoted.exists_body (State.mem_strings_of_words hword hfamily)
  obtain ⟨segments, hsegments⟩ := @Quoted.exists_segments _ s.options.encoding _
    (fun _ _ => Quoted.toNat_of_letterOf) hbody
  have hn : n ≠ 0 := by rcases hp with ⟨-, rfl⟩ | ⟨-, rfl⟩ <;> decide
  have hmarks : ∀ x ∈ List.replicate n q.char, x.toNat < 0xD800 := by
    intro x hx
    rw [List.eq_of_mem_replicate hx]
    cases q <;> decide
  have hne : List.replicate n q.char ≠ [] := by simpa using hn
  refine ⟨q, n, segments, hp, ?_⟩
  rw [htext, ← hsegments]
  exact Quoted.lossy_between hne hne hmarks hmarks

/-- The characters of a reference are those of its segments, between angle brackets. -/
theorem exists_segments_of_iriRef (hl : recognize r s = .ok l s')
    (hiri : r = .iriRef ∨ l.production = .iriRef) :
    ∃ segments : List (Segment fun _ => none), l.production = .iriRef ∧
      l.text.chars = ['<'] ++ segments.flatMap Segment.text ++ ['>'] := by
  obtain ⟨text, htext, hword⟩ := path_of_recognize hl
  have hp : l.production = .iriRef :=
    hiri.elim (fun hr => State.eq_iriRef_of_words (hr ▸ hword)) id
  rw [hp] at hword
  obtain ⟨body, hbody, rfl⟩ := Quoted.exists_body_of_iriRef (State.mem_iriRef_of_words hword)
  obtain ⟨segments, hsegments⟩ := @Quoted.exists_segments _ s.options.encoding _
    (fun _ _ h => by cases h) hbody
  refine ⟨segments, hp, ?_⟩
  rw [htext, ← hsegments]
  exact Quoted.lossy_between (by simp) (by simp) (by simp) (by simp)

/-- The characters of a local name are those of its pieces. -/
theorem exists_pieces_of_localName (hl : recognize .localName s = .ok l s') :
    ∃ pieces : List Syntax.LocalPiece,
      l.text.chars = pieces.flatMap Syntax.LocalPiece.text := by
  obtain ⟨text, htext, hword⟩ := path_of_recognize hl
  rw [Recognizer.Names.production_eq .localName hword] at hword
  have hname : text ∈ 1 + Naming.localName := by
    rw [← State.words_localName]
    exact hword
  obtain ⟨pieces, rfl⟩ := Naming.exists_localPieces hname
  refine ⟨pieces, ?_⟩
  rw [htext]
  exact Text.lossy_codes _

end Scanner

/-- **Escapes are decoded as they are recognized.** A string that any recognizer accepts, whatever
the options and the input are, is a body between marks, and a reference one between angle brackets.
The characters of the body are segmented in one way. If all its numbers are those of characters, the
body is decoded to what its segments denote, and reading goes on with that; otherwise the only error
is that of an escape, at the position of the token. A local name is made of pieces in one way, and
of these only the backslashes that begin an escape are dropped. -/
theorem escapes_agree [IriLibrary] :
    (∀ (r : Recognizer) (s : Scanner) (l : Lexeme) (s' : Scanner), s.recognize r = .ok l s' →
      r = .string ∨ l.production.family = .string →
      ∃ (q : Quote) (n : Nat) (segments : List (Segment Escape.letterOf)),
        (l.production = .shortString q ∧ n = 1 ∨ l.production = .longString q ∧ n = 3) ∧
        l.text.chars = List.replicate n q.char ++ segments.flatMap Segment.text ++
          List.replicate n q.char ∧
        (Token.ofLexeme l).inner n = segments.flatMap Segment.text ∧
        (∀ segments' : List (Segment Escape.letterOf),
          segments'.flatMap Segment.text = segments.flatMap Segment.text → segments' = segments) ∧
        ((∀ g ∈ segments, g.Named) →
          Escape.string? ((Token.ofLexeme l).inner n) = some (segments.map Segment.value) ∧
          Parser.readObject (.ofLexeme l) =
            Parser.readSuffix (String.ofList (segments.map Segment.value))) ∧
        (¬ (∀ g ∈ segments, g.Named) →
          Escape.string? ((Token.ofLexeme l).inner n) = none ∧
          ∀ p, Parser.readObject (.ofLexeme l) p = .error (.invalidEscape l.position) p)) ∧
    (∀ (r : Recognizer) (s : Scanner) (l : Lexeme) (s' : Scanner), s.recognize r = .ok l s' →
      r = .iriRef ∨ l.production = .iriRef →
      ∃ segments : List (Segment fun _ => none),
        l.production = .iriRef ∧
        l.text.chars = ['<'] ++ segments.flatMap Segment.text ++ ['>'] ∧
        (Token.ofLexeme l).inner 1 = segments.flatMap Segment.text ∧
        (∀ segments' : List (Segment fun _ => none),
          segments'.flatMap Segment.text = segments.flatMap Segment.text → segments' = segments) ∧
        ((∀ g ∈ segments, g.Named) →
          Escape.iri? ((Token.ofLexeme l).inner 1) = some (segments.map Segment.value) ∧
          Parser.resource (.ofLexeme l) =
            Parser.resolve (segments.map Segment.value) l.position) ∧
        (¬ (∀ g ∈ segments, g.Named) →
          Escape.iri? ((Token.ofLexeme l).inner 1) = none ∧
          ∀ p, Parser.resource (.ofLexeme l) p = .error (.invalidEscape l.position) p)) ∧
    ∀ (s : Scanner) (l : Lexeme) (s' : Scanner), s.recognize .localName = .ok l s' →
      ∃ pieces : List Syntax.LocalPiece,
        l.text.chars = pieces.flatMap Syntax.LocalPiece.text ∧
        (∀ pieces' : List Syntax.LocalPiece,
          pieces'.flatMap Syntax.LocalPiece.text = pieces.flatMap Syntax.LocalPiece.text →
          pieces' = pieces) ∧
        Escape.localName l.text.chars = pieces.flatMap Syntax.LocalPiece.value := by
  refine ⟨fun r s l s' hl hstring => ?_, fun r s l s' hl hiri => ?_, fun s l s' hl => ?_⟩
  · obtain ⟨q, n, segments, hp, hchars⟩ := Scanner.exists_segments_of_string hl hstring
    have hinner : (Token.ofLexeme l).inner n = segments.flatMap Segment.text :=
      Parser.inner_of_is ⟨rfl, hchars⟩
    exact ⟨q, n, segments, hp, hchars, hinner, fun _ h => Segment.flatMap_text_inj rfl rfl h,
      Parser.readObject_of_segments hp hinner⟩
  · obtain ⟨segments, hp, hchars⟩ := Scanner.exists_segments_of_iriRef hl hiri
    have hinner : (Token.ofLexeme l).inner 1 = segments.flatMap Segment.text :=
      Parser.inner_of_is (n := 1) ⟨rfl, hchars⟩
    exact ⟨segments, hp, hchars, hinner, fun _ h => Segment.flatMap_text_inj rfl rfl h,
      Parser.resource_of_segments hp hinner⟩
  · obtain ⟨pieces, hchars⟩ := Scanner.exists_pieces_of_localName hl
    refine ⟨pieces, hchars, fun _ h => Syntax.LocalPiece.flatMap_text_inj h, ?_⟩
    rw [hchars]
    exact Syntax.LocalPiece.decode_pieces pieces

section

open scoped Iri.Standard

/-- A doubled backslash before a letter that begins a number elsewhere, a number of a surrogate, and
a local name with both kinds of escape. -/
theorem escapes_agree_doubled :
    (∃ s l s', Scanner.recognize .string s = .ok l s' ∧
      l.text.chars = "\"\\\\u0041\\u0042\"".toList ∧
      Parser.readObject (.ofLexeme l) = Parser.readSuffix "\\u0041B") ∧
    (∃ s l s', Scanner.recognize .iriRef s = .ok l s' ∧ l.text.chars = "<\\uD800>".toList ∧
      ∀ p, Parser.resource (.ofLexeme l) p = .error (.invalidEscape l.position) p) ∧
    ∃ s l s', Scanner.recognize .localName s = .ok l s' ∧ l.text.chars = "a\\-%41".toList ∧
      Escape.localName l.text.chars = "a-%41".toList := by
  have hrecognize (r : Recognizer) (hr : r ≠ .blank) (p : Production) (text : List Char)
      (htakes : ((State.start r).scan .permissive [] (codes text)).Takes p (codes text)) :
      ∃ s l s', Scanner.recognize r s = .ok l s' ∧ l.text.chars = text ∧ l.production = p := by
    obtain ⟨s, -, -, s', hs', -⟩ :=
      Scanner.exists_takes_of_scan hr (List.append_nil _).symm htakes
    exact ⟨s, _, s', hs', Text.lossy_codes text, rfl⟩
  refine ⟨?_, ?_, ?_⟩
  · obtain ⟨s, l, s', hl, hchars, hp⟩ := hrecognize .string (by decide) (.shortString .double)
      "\"\\\\u0041\\u0042\"".toList ⟨by decide_cbv, by decide_cbv⟩
    obtain ⟨q, n, segments, hq, hbody, -, hunique, hnamed, -⟩ :=
      escapes_agree.1 .string s l s' hl (Or.inl rfl)
    obtain ⟨rfl, rfl⟩ : q = .double ∧ n = 1 := by
      rcases hq with ⟨hq, hn⟩ | ⟨hq, -⟩
      · exact ⟨(Production.shortString.inj (hp.symm.trans hq)).symm, hn⟩
      · cases hp.symm.trans hq
    let expected : List (Segment Escape.letterOf) :=
      [.letter '\\' '\\' rfl, .plain 'u' (by decide), .plain '0' (by decide),
        .plain '0' (by decide), .plain '4' (by decide), .plain '1' (by decide),
        .numeric false ['0', '0', '4', '2'] rfl (Escape.hex_of_all (by decide))]
    have hexpected : expected = segments := by
      have heq : ['"'] ++ expected.flatMap Segment.text ++ ['"'] =
          ['"'] ++ segments.flatMap Segment.text ++ ['"'] := hchars.symm.trans hbody
      exact hunique expected (List.append_cancel_left (List.append_cancel_right heq))
    subst hexpected
    exact ⟨s, l, s', hl, hchars, (hnamed (by decide)).2⟩
  · obtain ⟨s, l, s', hl, hchars, -⟩ := hrecognize .iriRef (by decide) .iriRef
      "<\\uD800>".toList ⟨by decide_cbv, by decide_cbv⟩
    obtain ⟨segments, -, hbody, -, hunique, -, hunnamed⟩ :=
      escapes_agree.2.1 .iriRef s l s' hl (Or.inl rfl)
    let expected : List (Segment fun _ => none) :=
      [.numeric false ['D', '8', '0', '0'] rfl (Escape.hex_of_all (by decide))]
    have hexpected : expected = segments := by
      have heq : ['<'] ++ expected.flatMap Segment.text ++ ['>'] =
          ['<'] ++ segments.flatMap Segment.text ++ ['>'] := hchars.symm.trans hbody
      exact hunique expected (List.append_cancel_left (List.append_cancel_right heq))
    subst hexpected
    exact ⟨s, l, s', hl, hchars, (hunnamed (by decide)).2⟩
  · obtain ⟨s, l, s', hl, hchars, -⟩ := hrecognize .localName (by decide) .localName
      "a\\-%41".toList ⟨by decide_cbv, by decide_cbv⟩
    obtain ⟨pieces, hpieces, hunique, hvalue⟩ := escapes_agree.2.2 s l s' hl
    let expected : List Syntax.LocalPiece :=
      [.plain 'a' (by decide_cbv), .escape '-' (by decide_cbv),
        .percent '4' '1' (by decide_cbv) (by decide_cbv)]
    have hexpected : expected = pieces := hunique expected (hchars.symm.trans hpieces)
    subst hexpected
    exact ⟨s, l, s', hl, hchars, hvalue⟩

end

end RdfTurtle
