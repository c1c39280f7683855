import Mathlib.Data.List.Basic
import RdfTurtle.Proofs.Encodings

/-! # Accumulated text is the text

What a token's code points leave behind can be read back, written and compared. What units of UTF-16
decode to is described by a relation, which does not compute with sixteen bits.

* **`Utf16.Decodes`** — well-formed units and their text; `Utf16.decodes_iff` they are the units of
  that text.
* **`Utf16.Unpaired`** — a surrogate stands without its partner; `Utf16.exists_decodes_iff` that is
  the only way of being ill-formed.
* **`Text.accumulates`** — accumulated characters are the text in every respect, and units equal a
  text exactly if they decode to it. -/

namespace RdfTurtle

namespace Utf16

/-! ## Well-formed units -/

/-- Units that are well formed, and the characters they stand for. -/
inductive Decodes : List UInt16 → List Char → Prop
  | nil : Decodes [] []
  | unit {unit : UInt16} {x : Char} {units : List UInt16} {text : List Char}
      (value : x.toNat = unit.toNat) (rest : Decodes units text) :
      Decodes (unit :: units) (x :: text)
  | pair {high low : UInt16} {x : Char} {units : List UInt16} {text : List Char}
      (first : isHigh high) (second : isLow low)
      (value : x.toNat = 0x10000 + (high.toNat - 0xD800) * 0x400 + (low.toNat - 0xDC00))
      (rest : Decodes units text) : Decodes (high :: low :: units) (x :: text)

/-- A unit is determined by its number. -/
theorem unitsOf_eq_of_toNat {c : CodePoint} {units : List UInt16}
    (h : units.map UInt16.toNat = numbers c) : unitsOf c = units := by
  rw [← toNat_unitsOf] at h
  exact ((List.map_inj_right fun _ _ => UInt16.toNat.inj).1 h).symm

/-- The units of a character, of which there are one or two, decode to it. -/
theorem Decodes.cons (x : Char) {units : List UInt16} {text : List Char}
    (h : Decodes units text) : Decodes (unitsOf x ++ units) (x :: text) := by
  have hx := char_range x
  have hnumbers := toNat_unitsOf x
  rw [numbers_ofChar, standard] at hnumbers
  split at hnumbers
  · obtain ⟨unit, hunit, hvalue⟩ := List.map_eq_singleton_iff.1 hnumbers
    rw [hunit]
    exact .unit hvalue.symm h
  · obtain ⟨high, further, hunits, hhigh, hfurther⟩ := List.map_eq_cons_iff.1 hnumbers
    obtain ⟨low, rfl, hlow⟩ := List.map_eq_singleton_iff.1 hfurther
    rw [hunits]
    exact .pair (isHigh_iff.2 (by omega)) (isLow_iff.2 (by omega)) (by omega) h

/-- **Units decode to a text exactly if they are the units of that text.** -/
theorem decodes_iff {units : List UInt16} {text : List Char} :
    Decodes units text ↔ units = text.flatMap fun (x : Char) => unitsOf x := by
  -- A decoding is taken apart unit by unit, a text character by character.
  constructor
  · intro h
    induction h with
    | nil => rfl
    | @unit unit x units text value _ ih =>
      have hunits : unitsOf x = [unit] := unitsOf_eq_of_toNat <| by
        have hlt : x.toNat < 0x10000 := value ▸ unit.toNat_lt
        rw [numbers_ofChar, standard, if_pos hlt, value, List.map_singleton]
      rw [List.flatMap_cons, hunits, ← ih]
      rfl
    | @pair high low x units text first second value _ ih =>
      have hhigh := isHigh_iff.1 first
      have hlow := isLow_iff.1 second
      have hunits : unitsOf x = [high, low] := unitsOf_eq_of_toNat <| by
        have hfirst : high.toNat = 0xD800 + (x.toNat - 0x10000) / 0x400 := by omega
        have hsecond : low.toNat = 0xDC00 + (x.toNat - 0x10000) % 0x400 := by omega
        rw [numbers_ofChar, standard, if_neg (by omega), List.map_cons, List.map_singleton, hfirst,
          hsecond]
      rw [List.flatMap_cons, hunits, ← ih]
      rfl
  · rintro rfl
    induction text with
    | nil => exact .nil
    | cons x text ih => exact ih.cons x

/-! ## Surrogates without a partner -/

/-- Somewhere in the units the first of a pair has not the second behind it, or the second has not
the first before it. -/
def Unpaired (units : List UInt16) : Prop :=
  ∃ before unit after, units = before ++ unit :: after ∧
    (isHigh unit ∧ (∀ next ∈ after.head?, ¬ isLow next) ∨
      isLow unit ∧ ∀ previous ∈ before.getLast?, ¬ isHigh previous)

/-- No unit both begins and ends a pair. -/
theorem not_isLow_of_isHigh {unit : UInt16} (h : isHigh unit) : ¬ isLow unit := by
  rw [isLow_iff]
  have hhigh := isHigh_iff.1 h
  omega

/-- What stands before a unit matters only if the unit ends a pair. -/
theorem Unpaired.append {units : List UInt16} (h : Unpaired units) (before : List UInt16)
    (hbefore : ∀ previous ∈ before.getLast?, ¬ isHigh previous) : Unpaired (before ++ units) := by
  obtain ⟨front, unit, after, rfl, hhigh | ⟨hlow, hprevious⟩⟩ := h
  · exact ⟨before ++ front, unit, after, by simp, .inl hhigh⟩
  · refine ⟨before ++ front, unit, after, by simp, .inr ⟨hlow, ?_⟩⟩
    cases front with
    | nil => simpa using hbefore
    | cons u front => simpa using hprevious

/-- Well-formed units have no surrogate without its partner. -/
theorem Decodes.not_unpaired {units : List UInt16} {text : List Char} (h : Decodes units text) :
    ¬ Unpaired units := by
  induction h with
  | nil =>
    rintro ⟨before, unit, after, hsplit, -⟩
    simp at hsplit
  | @unit unit x units text value _ ih =>
    have hx := char_range x
    rintro ⟨_ | ⟨u, before⟩, v, after, hsplit, hv⟩
    -- The unit itself is that of a character.
    · injection hsplit with hunit hrest
      subst hunit
      rw [isHigh_iff, isLow_iff] at hv
      omega
    · injection hsplit with hunit hrest
      subst hunit
      refine ih ⟨before, v, after, hrest, hv.imp_right (And.imp_right fun hprevious p hp => ?_)⟩
      exact hprevious p (List.mem_getLast?_cons hp)
  | @pair high low x units text first second value _ ih =>
    rintro ⟨_ | ⟨u, _ | ⟨w, before⟩⟩, v, after, hsplit, hv⟩
    · injection hsplit with hunit hrest
      subst hunit hrest
      rcases hv with ⟨-, hnext⟩ | ⟨hlow, -⟩
      · exact hnext low rfl second
      · exact not_isLow_of_isHigh first hlow
    · injection hsplit with hunit hrest
      injection hrest with hunit' hrest
      subst hunit hunit'
      rcases hv with ⟨hhigh, -⟩ | ⟨-, hprevious⟩
      · exact not_isLow_of_isHigh hhigh second
      · exact hprevious high rfl first
    · injection hsplit with hunit hrest
      injection hrest with hunit' hrest
      subst hunit hunit'
      refine ih ⟨before, v, after, hrest, hv.imp_right (And.imp_right fun hprevious p hp => ?_)⟩
      exact hprevious p (List.mem_getLast?_cons (List.mem_getLast?_cons hp))

/-- A unit that is no surrogate is the number of a character. -/
theorem exists_char_unit {unit : UInt16} (hhigh : ¬ isHigh unit) (hlow : ¬ isLow unit) :
    ∃ x : Char, x.toNat = unit.toNat := by
  rw [isHigh_iff] at hhigh
  rw [isLow_iff] at hlow
  have hlt := unit.toNat_lt
  have hvalid : unit.toNat.isValidChar := by
    rw [Nat.isValidChar]
    omega
  exact ⟨Char.ofNat unit.toNat, CodePoint.toNat_charOfNat hvalid⟩

/-- Two surrogates that are partners are the numbers of a character. -/
theorem exists_char_pair {high low : UInt16} (hhigh : isHigh high) (hlow : isLow low) :
    ∃ x : Char, x.toNat = 0x10000 + (high.toNat - 0xD800) * 0x400 + (low.toNat - 0xDC00) := by
  rw [isHigh_iff] at hhigh
  rw [isLow_iff] at hlow
  have hvalid : (0x10000 + (high.toNat - 0xD800) * 0x400 + (low.toNat - 0xDC00)).isValidChar := by
    rw [Nat.isValidChar]
    omega
  exact ⟨Char.ofNat _, CodePoint.toNat_charOfNat hvalid⟩

/-- **Units are well formed exactly if every surrogate has its partner.** -/
theorem exists_decodes_iff {units : List UInt16} :
    (∃ text, Decodes units text) ↔ ¬ Unpaired units := by
  refine ⟨fun ⟨_, h⟩ => h.not_unpaired, fun h => ?_⟩
  -- The cases are those of decoding: a pair, or a unit that begins none.
  fun_induction decodeLossy units with
  | case1 => exact ⟨[], .nil⟩
  | case2 unit =>
    have hhigh : ¬ isHigh unit := fun hhigh => h ⟨[], unit, [], rfl, .inl ⟨hhigh, by simp⟩⟩
    have hlow : ¬ isLow unit := fun hlow => h ⟨[], unit, [], rfl, .inr ⟨hlow, by simp⟩⟩
    obtain ⟨x, hx⟩ := exists_char_unit hhigh hlow
    exact ⟨[x], .unit hx .nil⟩
  | case3 first second rest hpair ih =>
    obtain ⟨hfirst, hsecond⟩ := Bool.and_eq_true_iff.1 hpair
    obtain ⟨x, hx⟩ := exists_char_pair hfirst hsecond
    have hrest : ¬ Unpaired rest := fun hrest => h <| hrest.append [first, second] <| by
      rintro previous ⟨⟩ hhigh
      exact not_isLow_of_isHigh hhigh hsecond
    obtain ⟨text, htext⟩ := ih hrest
    exact ⟨x :: text, .pair hfirst hsecond hx htext⟩
  | case4 first second rest hpair ih =>
    have hhigh : ¬ isHigh first := fun hhigh =>
      h ⟨[], first, second :: rest, rfl, .inl ⟨hhigh, by rintro next ⟨⟩ hlow; simp_all⟩⟩
    have hlow : ¬ isLow first := fun hlow =>
      h ⟨[], first, second :: rest, rfl, .inr ⟨hlow, by simp⟩⟩
    obtain ⟨x, hx⟩ := exists_char_unit hhigh hlow
    have hrest : ¬ Unpaired (second :: rest) := fun hrest => h <| hrest.append [first] <| by
      rintro previous ⟨⟩
      exact hhigh
    obtain ⟨text, htext⟩ := ih hrest
    exact ⟨x :: text, .unit hx htext⟩

end Utf16

/-! ## Accumulated text -/

namespace Text

/-- What is written is the text as a string. -/
theorem writeTo_eq (t : Text) (out : String) : t.writeTo out = out ++ t.render := by
  cases t with
  | utf16 units =>
    rw [writeTo, render, chars]
    generalize Utf16.decodeLossy units.toList = xs
    induction xs generalizing out with
    | nil => simp
    | cons x xs ih =>
      rw [List.foldl_cons, ih]
      apply String.ext
      simp
  | utf8 content => rw [writeTo, render, chars, String.ofList_toList]

/-- Units equal a text exactly if they decode to it. -/
theorem spells_utf16_iff {units : Array UInt16} {s : String} :
    (utf16 units).Spells s ↔ Utf16.Decodes units.toList s.toList :=
  Utf16.decodes_iff.symm

/-- Units equal no text exactly if a surrogate stands without its partner. -/
theorem not_spells_iff {units : Array UInt16} :
    (∀ s, ¬ (utf16 units).Spells s) ↔ Utf16.Unpaired units.toList := by
  have hsome : (∃ s, (utf16 units).Spells s) ↔ ∃ text, Utf16.Decodes units.toList text :=
    ⟨fun ⟨s, hs⟩ => ⟨s.toList, spells_utf16_iff.1 hs⟩, fun ⟨text, htext⟩ =>
      ⟨String.ofList text, spells_utf16_iff.2 (by rwa [String.toList_ofList])⟩⟩
  rw [← not_exists, hsome, Utf16.exists_decodes_iff, Classical.not_not]

/-- From nothing, code points leave their units. -/
theorem exists_units (cs : List CodePoint) : ∃ units, (empty .utf16).append cs = .utf16 units ∧
    units.toList = cs.flatMap Utf16.unitsOf :=
  ⟨_, append_utf16 #[] cs, by simp⟩

/-- Accumulated characters equal the text they are, and no other. -/
theorem spells_append_iff (e : TextEncoding) (text : List Char) (s : String) :
    ((empty e).append (text.map CodePoint.ofChar)).Spells s ↔ s = String.ofList text := by
  cases e with
  | utf16 =>
    obtain ⟨units, happend, hunits⟩ := exists_units (text.map CodePoint.ofChar)
    rw [happend, spells_utf16_iff, Utf16.decodes_iff, hunits, List.flatMap_map]
    constructor
    · intro h
      have hread := congrArg Utf16.decodeLossy h
      rw [Utf16.decodeLossy_flatMap_unitsOf, Utf16.decodeLossy_flatMap_unitsOf] at hread
      rw [hread, String.ofList_toList]
    · rintro rfl
      rw [String.toList_ofList]
  | utf8 =>
    rw [empty, append_utf8, Spells]
    simp [Function.comp_def, eq_comm]

/-- **Accumulated text is the text.** From nothing, characters leave the standard units of UTF-16,
and in either form the text reads back as those characters, is written as them, and equals them and
no other. Code points of any value leave units that are numbers of sixteen bits; these equal a text
exactly if they are well formed and decode to it, and they equal none exactly if a surrogate stands
without its partner. -/
theorem accumulates :
    (∀ text : List Char,
      (∃ units, (empty .utf16).append (text.map CodePoint.ofChar) = .utf16 units ∧
        units.toList.map UInt16.toNat = text.flatMap Utf16.standard) ∧
      ∀ e, ((empty e).append (text.map CodePoint.ofChar)).render = String.ofList text ∧
        (∀ out, ((empty e).append (text.map CodePoint.ofChar)).writeTo out =
          out ++ String.ofList text) ∧
        ∀ s, ((empty e).append (text.map CodePoint.ofChar)).Spells s ↔ s = String.ofList text) ∧
    ∀ cs : List CodePoint, ∃ units, (empty .utf16).append cs = .utf16 units ∧
      units.toList.map UInt16.toNat = cs.flatMap Utf16.numbers ∧
      (∀ n ∈ cs.flatMap Utf16.numbers, n < 0x10000) ∧
      (∀ s, (utf16 units).Spells s ↔ Utf16.Decodes units.toList s.toList) ∧
      ((∀ s, ¬ (utf16 units).Spells s) ↔ Utf16.Unpaired units.toList) := by
  refine ⟨fun text => ⟨?_, fun e => ?_⟩, fun cs => ?_⟩
  · obtain ⟨units, happend, hunits⟩ := exists_units (text.map CodePoint.ofChar)
    refine ⟨units, happend, ?_⟩
    rw [hunits, Utf16.toNat_flatMap_unitsOf, List.flatMap_map]
    simp only [Utf16.numbers_ofChar]
  · have hread : ((empty e).append (text.map CodePoint.ofChar)).render = String.ofList text := by
      rw [render, chars_append]
    exact ⟨hread, fun out => by rw [writeTo_eq, hread], spells_append_iff e text⟩
  · obtain ⟨units, happend, hunits⟩ := exists_units cs
    refine ⟨units, happend, ?_, fun n hn => ?_, fun s => spells_utf16_iff, not_spells_iff⟩
    · rw [hunits, Utf16.toNat_flatMap_unitsOf]
    · obtain ⟨c, -, hc⟩ := List.mem_flatMap.1 hn
      exact Utf16.numbers_lt hc

-- A surrogate without its partner is read as U+FFFD and yet equals no text that has it; two
-- surrogates that came separately are a pair.
example : ((empty .utf16).append [⟨0xD83D⟩]).render = "\uFFFD" ∧
    ¬ ((empty .utf16).append [⟨0xD83D⟩]).Spells "\uFFFD" ∧
    ((empty .utf16).append [⟨0xD83D⟩, ⟨0xDE00⟩]).Spells "😀" := by decide +kernel

end Text

end RdfTurtle
