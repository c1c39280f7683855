import RdfTurtle.Proofs.Recognition.Munch

/-! # The grammar of names

Namespaces, blank node labels and local names as languages of code points, written as the grammar
writes them, with its classes of characters spelled out. All three go on alike: with characters and
dots, the last of which is no dot.

* **`Naming.namespaceName`**, **`Naming.label`**, **`Naming.localName`** — the grammar.
* **`Naming.mem_nameChar`** and so on — the tables hold the characters of its classes;
  **`Naming.tables_agree`** looks them up.
* **`Naming.cons_mem_tail`** — how a name goes on.
* **`State.words_namespaceName`**, **`State.words_label`** — the automaton has the same namespaces
  and labels. -/

namespace RdfTurtle

open Computability
open Quoted (one mark)

namespace Naming

/-! ## The classes of characters -/

/-- `[0-9]` -/
def Digit (c : CodePoint) : Prop := 0x30 ≤ c.value ∧ c.value ≤ 0x39

/-- `PN_CHARS_BASE` -/
def Base (c : CodePoint) : Prop :=
  0x41 ≤ c.value ∧ c.value ≤ 0x5A ∨ 0x61 ≤ c.value ∧ c.value ≤ 0x7A ∨
    0xC0 ≤ c.value ∧ c.value ≤ 0xD6 ∨ 0xD8 ≤ c.value ∧ c.value ≤ 0xF6 ∨
    0xF8 ≤ c.value ∧ c.value ≤ 0x2FF ∨ 0x370 ≤ c.value ∧ c.value ≤ 0x37D ∨
    0x37F ≤ c.value ∧ c.value ≤ 0x1FFF ∨ 0x200C ≤ c.value ∧ c.value ≤ 0x200D ∨
    0x2070 ≤ c.value ∧ c.value ≤ 0x218F ∨ 0x2C00 ≤ c.value ∧ c.value ≤ 0x2FEF ∨
    0x3001 ≤ c.value ∧ c.value ≤ 0xD7FF ∨ 0xF900 ≤ c.value ∧ c.value ≤ 0xFDCF ∨
    0xFDF0 ≤ c.value ∧ c.value ≤ 0xFFFD ∨ 0x10000 ≤ c.value ∧ c.value ≤ 0xEFFFF

/-- `PN_CHARS_U` -/
def BaseOrLine (c : CodePoint) : Prop := Base c ∨ c = '_'

/-- `PN_CHARS` -/
def Further (c : CodePoint) : Prop :=
  BaseOrLine c ∨ c = '-' ∨ Digit c ∨ c.value = 0xB7 ∨ 0x300 ≤ c.value ∧ c.value ≤ 0x36F ∨
    0x203F ≤ c.value ∧ c.value ≤ 0x2040

/-- The characters that a backslash escapes in a local name. -/
def Escapable (c : CodePoint) : Prop :=
  c ∈ codes ['_', '~', '.', '-', '!', '$', '&', '\'', '(', ')', '*', '+', ',', ';', '=', '/', '?',
    '#', '@', '%']

/-! ## Names -/

/-- What may follow the first part of a name that goes on with the words of `K`:
`((K | '.')* K)?`. -/
def tail (K : Language CodePoint) : Language CodePoint := 1 + (K + mark '.')∗ * K

/-- `PNAME_NS` -/
def namespaceName : Language CodePoint := (1 + one Base * tail (one Further)) * mark ':'

/-- `BLANK_NODE_LABEL` -/
def label : Language CodePoint :=
  mark '_' * mark ':' * one (fun c => BaseOrLine c ∨ Digit c) * tail (one Further)

/-- `PLX` -/
def escape : Language CodePoint := mark '%' * Quoted.hexDigit ^ 2 + mark '\\' * one Escapable

/-- What a local name may begin with. -/
def localFirst : Language CodePoint := one (fun c => BaseOrLine c ∨ c = ':' ∨ Digit c) + escape

/-- What a local name may go on with, dots apart. -/
def localFurther : Language CodePoint := one (fun c => Further c ∨ c = ':') + escape

/-- `PN_LOCAL` -/
def localName : Language CodePoint := localFirst * tail localFurther

/-! ## The tables hold these classes -/

variable {c : CodePoint} {text : List CodePoint}

/-- The table of first characters of namespaces is `PN_CHARS_BASE`. -/
theorem mem_nameStart : c ∈ CharClass.nameStart ↔ Base c := by
  simp [CharClass.nameStart, CharClass.mem_iff, Base]

/-! The tables hold ranges in their order, and adjoining ones as one. -/

/-- A range of one. -/
theorem within_one {n : Nat} : n ≤ c.value ∧ c.value ≤ n ↔ c.value = n :=
  and_comm.trans Nat.le_antisymm_iff.symm

/-- The colon adjoins the digits. -/
theorem within_digits_colon : 0x30 ≤ c.value ∧ c.value ≤ 0x3A ↔
    0x30 ≤ c.value ∧ c.value ≤ 0x39 ∨ c.value = 0x3A := by omega

/-- The combining marks lie between two ranges of `PN_CHARS_BASE`. -/
theorem within_base_marks : 0xF8 ≤ c.value ∧ c.value ≤ 0x37D ↔
    0xF8 ≤ c.value ∧ c.value ≤ 0x2FF ∨ 0x300 ≤ c.value ∧ c.value ≤ 0x36F ∨
      0x370 ≤ c.value ∧ c.value ≤ 0x37D := by omega

/-- The table of first characters of labels is `PN_CHARS_U` and the digits. -/
theorem mem_labelStart : c ∈ CharClass.labelStart ↔ BaseOrLine c ∨ Digit c := by
  simp [CharClass.labelStart, CharClass.mem_iff, BaseOrLine, Base, Digit, CodePoint.ext_iff,
    within_one]
  exact iff_of_eq (by ac_rfl)

/-- That of first characters of local names has the colon as well. -/
theorem mem_localStart : c ∈ CharClass.localStart ↔ BaseOrLine c ∨ c = ':' ∨ Digit c := by
  simp [CharClass.localStart, CharClass.mem_iff, BaseOrLine, Base, Digit, CodePoint.ext_iff,
    within_one, within_digits_colon]
  exact iff_of_eq (by ac_rfl)

/-- The table of further characters is `PN_CHARS`. -/
theorem mem_nameChar : c ∈ CharClass.nameChar ↔ Further c := by
  simp [CharClass.nameChar, CharClass.mem_iff, Further, BaseOrLine, Base, Digit, CodePoint.ext_iff,
    within_one, within_base_marks]
  exact iff_of_eq (by ac_rfl)

/-- That of further characters of local names has the colon as well. -/
theorem mem_localChar : c ∈ CharClass.localChar ↔ Further c ∨ c = ':' := by
  simp [CharClass.localChar, CharClass.mem_iff, Further, BaseOrLine, Base, Digit,
    CodePoint.ext_iff, within_one, within_digits_colon, within_base_marks]
  exact iff_of_eq (by ac_rfl)

/-- The table of escaped characters is the list of the grammar. -/
theorem mem_localEscape : c ∈ CharClass.localEscape ↔ Escapable c := by
  simp [CharClass.localEscape, CharClass.mem_iff, Escapable, CodePoint.ext_iff]
  omega

/-- **The tables are the classes of the grammar.** Looking a code point up in a table, whatever its
ranges, answers whether one of them holds it. So the first characters of namespaces are those of
`PN_CHARS_BASE`, the tables of the other names, though each is written out, hold these and what the
grammar joins to them, and the escapes of local names are the characters that it lists. -/
theorem tables_agree (c : CodePoint) :
    (∀ k : CharClass, k.contains c ↔ ∃ r ∈ k.ranges, r.first ≤ c.value ∧ c.value ≤ r.last) ∧
      (CharClass.nameStart.contains c ↔ Base c) ∧
      (CharClass.labelStart.contains c ↔
        CharClass.nameStart.contains c ∨ c = '_' ∨ Digit c) ∧
      (CharClass.localStart.contains c ↔ CharClass.labelStart.contains c ∨ c = ':') ∧
      (CharClass.nameChar.contains c ↔
        CharClass.nameStart.contains c ∨ c = '_' ∨ c = '-' ∨ Digit c ∨ c.value = 0xB7 ∨
          0x300 ≤ c.value ∧ c.value ≤ 0x36F ∨ 0x203F ≤ c.value ∧ c.value ≤ 0x2040) ∧
      (CharClass.localChar.contains c ↔ CharClass.nameChar.contains c ∨ c = ':') ∧
      (CharClass.localEscape.contains c ↔ Escapable c) := by
  refine ⟨fun k => CharClass.contains_iff, ?_⟩
  simp only [CharClass.contains_iff]
  rw [mem_nameStart, mem_labelStart, mem_localStart, mem_nameChar, mem_localChar]
  refine ⟨Iff.rfl, or_assoc, ?_, or_assoc, Iff.rfl, mem_localEscape⟩
  rw [or_assoc, or_comm (b := Digit c)]

/-! ## How names go on -/

variable {K L : Language CodePoint} {P : CodePoint → Prop}

/-- What may follow behind a dot: the name goes on to a word of `K`. -/
def behindDot (K : Language CodePoint) : Language CodePoint := (K + mark '.')∗ * K

/-- A name ends, or it goes on as behind a dot. -/
theorem tail_eq (K : Language CodePoint) : tail K = 1 + behindDot K := rfl

/-- Behind a dot comes a part of the name, or another dot. -/
theorem behindDot_eq (K : Language CodePoint) :
    behindDot K = K * tail K + mark '.' * behindDot K := by
  conv_lhs => rw [behindDot, ← Language.one_add_self_mul_kstar_eq_kstar]
  rw [add_mul, one_mul, mul_assoc, ← behindDot, add_mul, ← add_assoc, tail_eq, mul_add, mul_one]

/-- A name may end. -/
@[simp] theorem nil_mem_tail : [] ∈ tail K := Or.inl rfl

/-- Behind a dot the name goes on. -/
theorem mem_behindDot (hK : [] ∉ K) : text ∈ behindDot K ↔ text ≠ [] ∧ text ∈ tail K := by
  rw [tail_eq, Language.mem_add, Language.mem_one]
  constructor
  · refine fun h => ⟨?_, Or.inr h⟩
    rintro rfl
    obtain ⟨front, -, back, hback, heq⟩ := Language.mem_mul.1 h
    exact hK ((List.append_eq_nil_iff.1 heq).2 ▸ hback)
  · exact fun ⟨hne, h⟩ => h.resolve_left hne

/-- **A name goes on with a word of `K`, or with a dot if something follows it.** -/
theorem cons_mem_tail (hK : [] ∉ K) :
    c :: text ∈ tail K ↔
      c :: text ∈ K * tail K ∨ c = '.' ∧ text ≠ [] ∧ text ∈ tail K := by
  conv_lhs => rw [tail_eq, behindDot_eq]
  rw [Language.mem_add, Language.mem_one, Language.mem_add, mark, Quoted.cons_mem_one_mul,
    mem_behindDot hK]
  simp

/-- A name goes on with a character, or with a dot that something follows. -/
theorem cons_mem_tail_one :
    c :: text ∈ tail (one P) ↔
      P c ∧ text ∈ tail (one P) ∨ c = '.' ∧ text ≠ [] ∧ text ∈ tail (one P) := by
  rw [cons_mem_tail Quoted.nil_notMem_one, Quoted.cons_mem_one_mul]

/-- A language that goes on like this is no other. -/
theorem eq_tail (hK : [] ∉ K) (hnil : [] ∈ L)
    (hcons : ∀ c text, c :: text ∈ L ↔ c :: text ∈ K * L ∨ c = '.' ∧ text ≠ [] ∧ text ∈ L) :
    L = tail K := by
  ext text
  induction hn : text.length using Nat.strongRecOn generalizing text with
  | ind n ih =>
    subst hn
    cases text with
    | nil => exact iff_of_true hnil nil_mem_tail
    | cons c text =>
      -- What follows a word of `K` is shorter, as the word is not empty.
      have hmul : c :: text ∈ K * L ↔ c :: text ∈ K * tail K := by
        simp only [Language.mem_mul]
        refine exists_congr fun word => and_congr_right fun hword => exists_congr fun more => ?_
        refine and_congr_left fun heq => ih more.length ?_ more rfl
        have hlength : 0 < word.length := List.length_pos_iff.2 fun h => hK (h ▸ hword)
        rw [← heq, List.length_append]
        omega
      rw [hcons, cons_mem_tail hK, hmul, ih text.length (by simp) text rfl]

/-- What may follow within a namespace, up to its colon. -/
theorem cons_mem_tail_one_colon :
    c :: text ∈ tail (one P) * mark ':' ↔
      c = ':' ∧ text = [] ∨ P c ∧ text ∈ tail (one P) * mark ':' ∨
        c = '.' ∧ text ∈ behindDot (one P) * mark ':' := by
  conv_lhs => rw [tail_eq, behindDot_eq]
  simp only [add_mul, one_mul, Language.mem_add, mul_assoc, mark, Quoted.cons_mem_one_mul,
    Quoted.cons_mem_one]

/-- Behind a dot a namespace goes on with a character or another dot, but not with its colon. -/
theorem cons_mem_behindDot_one_colon :
    c :: text ∈ behindDot (one P) * mark ':' ↔
      P c ∧ text ∈ tail (one P) * mark ':' ∨ c = '.' ∧ text ∈ behindDot (one P) * mark ':' := by
  conv_lhs => rw [behindDot_eq]
  simp only [add_mul, Language.mem_add, mul_assoc, mark, Quoted.cons_mem_one_mul]

end Naming

namespace State

open Naming Syntax

variable {iri : Strictness} {p : Production} {text : List CodePoint}

/-! ## Namespaces and labels -/

/-- Within a namespace the automaton has the words of the grammar, from behind a character and from
behind dots. -/
theorem words_inNamespace :
    namespaceBody.words iri .namespaceName = tail (one Further) * mark ':' ∧
      namespaceDots.words iri .namespaceName = behindDot (one Further) * mark ':' := by
  -- The two states lead to each other, so one induction is on the text for both.
  suffices h : ∀ text, (text ∈ namespaceBody.words iri .namespaceName ↔
      text ∈ tail (one Further) * mark ':') ∧
      (text ∈ namespaceDots.words iri .namespaceName ↔
        text ∈ behindDot (one Further) * mark ':') from
    ⟨Language.ext fun text => (h text).1, Language.ext fun text => (h text).2⟩
  intro text
  induction text with
  | nil =>
    have hnil (L : Language CodePoint) : [] ∉ L * mark ':' := by
      rintro ⟨front, -, _, ⟨c, -, rfl⟩, heq⟩
      simp at heq
    exact ⟨iff_of_false (nil_notMem_words (by decide) rfl) (hnil _),
      iff_of_false (nil_notMem_words (by decide) rfl) (hnil _)⟩
  | cons c text ih =>
    obtain ⟨hbody, hdots⟩ := ih
    rw [cons_mem_words (by decide), cons_mem_words (by decide), cons_mem_tail_one_colon,
      cons_mem_behindDot_one_colon, next, next, Move.ofNamespace, ← mem_nameChar]
    by_cases hcolon : c = ':'
    · subst hcolon
      simp [GoesOn, colon_notMem_nameChar]
    · by_cases hchar : c ∈ CharClass.nameChar
      · have hdot : c ≠ '.' := fun h => dot_notMem_nameChar (h ▸ hchar)
        simp [GoesOn, hcolon, hchar, hdot, hbody]
      · by_cases hdot : c = '.'
        · simp [GoesOn, hdot, hdots, dot_notMem_nameChar]
        · simp [GoesOn, hcolon, hchar, hdot]

/-- **The namespaces that the automaton reads are those of the grammar.** -/
theorem words_namespaceName :
    (start .namespaceName).words iri .namespaceName = Naming.namespaceName := by
  rw [Naming.namespaceName, add_mul, one_mul, mul_assoc]
  ext text
  cases text with
  | nil =>
    refine iff_of_false (nil_notMem_words (by decide) rfl) ?_
    exact not_or.2 ⟨Quoted.nil_notMem_one, Quoted.nil_notMem_one_mul⟩
  | cons c text =>
    rw [cons_mem_words (by decide), Language.mem_add, mark, Quoted.cons_mem_one,
      Quoted.cons_mem_one_mul, ← mark, next, ← mem_nameStart]
    by_cases hcolon : c = ':'
    · subst hcolon
      have hstart : CodePoint.ofChar ':' ∉ CharClass.nameStart := by decide_cbv
      simp [GoesOn, hstart]
    · split_ifs with hstart <;> simp [GoesOn, hcolon, hstart, words_inNamespace.1]

/-- A label goes on as the grammar says. -/
theorem words_inLabel : State.label.words iri .blankNodeLabel = tail (one Further) := by
  ext text
  induction text with
  | nil => exact iff_of_true ((nil_mem_words (by decide)).2 rfl) nil_mem_tail
  | cons c text ih =>
    rw [cons_mem_words (by decide), cons_mem_tail_one, next, ← mem_nameChar]
    by_cases hchar : c ∈ CharClass.nameChar
    · have hdot : c ≠ '.' := fun h => dot_notMem_nameChar (h ▸ hchar)
      simp [GoesOn, hchar, hdot, ih]
    · by_cases hdot : c = '.'
      · simp [GoesOn, hdot, ih, dot_notMem_nameChar]
      · simp [GoesOn, hchar, hdot]

/-- A label begins with a `_`. -/
theorem words_line :
    (start .blankNodeLabel).words iri p = mark '_' * labelColon.words iri p :=
  words_of_only (by decide) rfl (fun _ hc => if_pos hc) fun _ hc => if_neg hc

/-- A colon follows. -/
theorem words_labelColon : labelColon.words iri p = mark ':' * labelFirst.words iri p :=
  words_of_only (by decide) rfl (fun _ hc => if_pos hc) fun _ hc => if_neg hc

/-- Then a first character follows, and the label goes on. -/
theorem words_labelFirst :
    labelFirst.words iri p = one (fun c => BaseOrLine c ∨ Digit c) * State.label.words iri p :=
  words_of_only (by decide) rfl (fun _ hc => if_pos (mem_labelStart.2 hc))
    fun _ hc => if_neg (mt mem_labelStart.1 hc)

/-- **The labels that the automaton reads are those of the grammar.** -/
theorem words_label : (start .blankNodeLabel).words iri .blankNodeLabel = Naming.label := by
  rw [words_line, words_labelColon, words_labelFirst, words_inLabel, Naming.label, mul_assoc,
    mul_assoc]

end State

end RdfTurtle
