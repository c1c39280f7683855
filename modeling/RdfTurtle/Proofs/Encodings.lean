import RdfTurtle.Encoding.Utf8
import RdfTurtle.Text

/-! # Encodings keep text

A text goes through two encodings on its way through a scanner: it is read from UTF-8, and the
characters of a token are accumulated again. Neither loses or changes a character.

* **`Utf8.Encodes`** — a lead byte and its further bytes that encode a character, and
  **`Utf8.encodes_utf8EncodeChar`** the bytes of a character are such a group.
* **`Utf8.toList_toUTF8`** — the bytes of a string, character by character.
* **`Utf16.decodeLossy_flatMap_unitsOf`** — the units of characters spell them.
* **`Utf16.numbers`** — the numbers that stand for a code point; **`Utf16.toNat_unitsOf`** the units
  of a code point are these numbers, so none of them wraps around.
* **`Text.encode`** — the encoding of code points; **`Text.append_empty`** that is what is
  accumulated.
* **`Text.chars_append`** — accumulated characters are read back. -/

namespace RdfTurtle

/-! ## UTF-8 -/

namespace Utf8

/-- The bytes `further` after `lead` are as many as `lead` announces, and all of them together spell
`x`, also under strict checking. -/
structure Encodes (lead : UInt8) (further : List UInt8) (x : Char) : Prop where
  announces : isLead lead = true
  length : furtherBytes lead = further.length
  value : spell lead further = x
  wellFormed : scalar? lead further = some x

/-- A byte made from a number below 256 has that value. -/
theorem toNat_ofNat {n : Nat} (h : n < 256) : (UInt8.ofNat n).toNat = n := by
  rw [UInt8.toNat_ofNat']
  exact Nat.mod_eq_of_lt h

/-- A byte made from a number compares with others as the number does. -/
theorem ofNat_lt_iff {n : Nat} (h : n < 256) (b : UInt8) : UInt8.ofNat n < b ↔ n < b.toNat := by
  rw [UInt8.lt_iff_toNat_lt, toNat_ofNat h]

/-- How many bytes a lead announces, by its value. -/
theorem furtherBytes_ofNat {n : Nat} (h : n < 256) :
    furtherBytes (.ofNat n) = if n < 0xC0 then 0 else if n < 0xE0 then 1 else if n < 0xF0 then 2
      else 3 := by
  simp only [furtherBytes, ofNat_lt_iff h, UInt8.reduceToNat]

/-- The payload of a lead, by its value. -/
theorem payload_ofNat {n : Nat} (h : n < 256) :
    payload (.ofNat n) = if n < 0xC0 then n else if n < 0xE0 then n % 32 else
      if n < 0xF0 then n % 16 else n % 8 := by
  simp only [payload, ofNat_lt_iff h, UInt8.reduceToNat, toNat_ofNat h]

/-- Whether a byte announces a group, by its value. -/
theorem isLead_ofNat {n : Nat} (h : n < 256) :
    isLead (.ofNat n) = true ↔ n < 0x80 ∨ 0xC0 ≤ n ∧ n < 0xF8 := by
  simp only [isLead, Bool.or_eq_true, Bool.and_eq_true, decide_eq_true_eq, ← UInt8.not_lt,
    ofNat_lt_iff h, UInt8.reduceToNat]
  omega

/-- A further byte has the form of one. -/
theorem isContinuation_ofNat (n : Nat) : isContinuation (.ofNat (n % 0x40 + 0x80)) = true := by
  have hlt : n % 0x40 + 0x80 < 256 := by omega
  simp only [isContinuation, Bool.and_eq_true, decide_eq_true_eq, ← UInt8.not_lt,
    ofNat_lt_iff hlt, UInt8.reduceToNat]
  omega

/-- The low six bits of a further byte. -/
theorem toNat_further (n : Nat) : (UInt8.ofNat (n % 0x40 + 0x80)).toNat % 64 = n % 0x40 := by
  rw [toNat_ofNat (by omega)]
  omega

/-- A number is the one of a lead that announces `k` further bytes and carries `bits`. -/
def Announces (n k bits : Nat) : Prop :=
  n < 0x80 ∧ k = 0 ∧ bits = n ∨ n = 0xC0 + bits ∧ k = 1 ∧ bits < 32 ∨
    n = 0xE0 + bits ∧ k = 2 ∧ bits < 16 ∨ n = 0xF0 + bits ∧ k = 3 ∧ bits < 8

/-- A byte that announces a sequence is its lead, with the payload that it carries. -/
theorem lead_of_announces {n k bits : Nat} (h : Announces n k bits) :
    isLead (.ofNat n) = true ∧ furtherBytes (.ofNat n) = k ∧ payload (.ofNat n) = bits := by
  unfold Announces at h
  have hn : n < 256 := by omega
  refine ⟨(isLead_ofNat hn).2 (by omega), ?_, ?_⟩
  · rw [furtherBytes_ofNat hn]
    repeat' split
    all_goals omega
  · rw [payload_ofNat hn]
    repeat' split
    all_goals omega

/-- A group of the right length and value encodes its character, by the numbers that its bytes are
made of. -/
theorem encodes_of {n : Nat} (bits : Nat) (ms : List Nat) {x : Char}
    (hlead : Announces n ms.length bits)
    (hvalue : ms.foldl (fun value m => value * 64 + m % 64) bits = x.toNat)
    (hleast : leastValue ms.length ≤ x.toNat) :
    Encodes (.ofNat n) (ms.map fun m => .ofNat (m % 0x40 + 0x80)) x := by
  obtain ⟨hannounces, hlength, hpayload⟩ := lead_of_announces hlead
  have hfurther : (ms.map fun m => UInt8.ofNat (m % 0x40 + 0x80)).all isContinuation := by
    rw [List.all_map]
    exact List.all_eq_true.2 fun m _ => isContinuation_ofNat m
  have hspell : (spell (.ofNat n) (ms.map fun m => .ofNat (m % 0x40 + 0x80))).value =
      x.toNat := by
    rw [spell, List.foldl_map]
    simp only [toNat_further, hpayload, hvalue]
  have hvalid : x.toNat.isValidChar := x.valid
  refine ⟨hannounces, by rw [hlength, List.length_map], CodePoint.ext hspell, ?_⟩
  rw [scalar?, hspell, List.length_map, if_pos ⟨hannounces, hfurther, hleast, hvalid⟩,
    Char.ofNat_toNat]

/-- The bytes of a character are one group that encodes it. -/
theorem encodes_utf8EncodeChar (x : Char) :
    ∃ lead further, String.utf8EncodeChar x = lead :: further ∧ Encodes lead further x := by
  have hvalid : x.toNat < 0x110000 := by
    have hx := x.valid
    rcases hx with hx | hx
    · exact Nat.lt_trans hx (by decide)
    · exact hx.2
  have hval : x.val.toNat = x.toNat := rfl
  rw [String.utf8EncodeChar]
  simp only [hval]
  -- One case for each length of a group, with the bits of its lead and the numbers whose low bits
  -- stand in the other bytes.
  split
  · exact ⟨_, _, rfl, encodes_of x.toNat [] (Or.inl ⟨by omega, rfl, rfl⟩) rfl (Nat.zero_le _)⟩
  · split
    · refine ⟨_, _, rfl, encodes_of (x.toNat / 64) [x.toNat] ?_ ?_ ?_⟩
      · exact Or.inr (Or.inl ⟨by omega, rfl, by omega⟩)
      · simp only [List.foldl_cons, List.foldl_nil]
        omega
      · simp only [List.length_cons, List.length_nil, leastValue]
        omega
    · split
      · refine ⟨_, _, rfl, encodes_of (x.toNat / 4096) [x.toNat / 64, x.toNat] ?_ ?_ ?_⟩
        · exact Or.inr (Or.inr (Or.inl ⟨by omega, rfl, by omega⟩))
        · simp only [List.foldl_cons, List.foldl_nil]
          omega
        · simp only [List.length_cons, List.length_nil, leastValue]
          omega
      · refine ⟨_, _, rfl,
          encodes_of (x.toNat / 262144) [x.toNat / 4096, x.toNat / 64, x.toNat] ?_ ?_ ?_⟩
        · exact Or.inr (Or.inr (Or.inr ⟨by omega, rfl, by omega⟩))
        · simp only [List.foldl_cons, List.foldl_nil]
          omega
        · simp only [List.length_cons, List.length_nil, leastValue]
          omega

/-- Listing the bytes of an array from an index on. -/
theorem loop_toList (bytes : ByteArray) (i : Nat) (seen : List UInt8) :
    ByteArray.toList.loop bytes i seen = seen.reverse ++ bytes.data.toList.drop i := by
  fun_induction ByteArray.toList.loop bytes i seen with
  | case1 i seen h ih =>
    have hi : i < bytes.data.toList.length := by simpa using h
    have hget : bytes.get! i = bytes.data.toList[i] := by
      rw [ByteArray.get!, getElem!_pos bytes.data i hi, Array.getElem_toList]
    rw [ih, hget, List.reverse_cons, List.append_assoc, List.singleton_append,
      List.getElem_cons_drop]
  | case2 i seen h =>
    have hi : bytes.data.toList.length ≤ i := by simpa using Nat.le_of_not_lt h
    rw [List.drop_eq_nil_of_le hi, List.append_nil]

/-- The bytes of a text, character by character. -/
theorem toList_toUTF8 (text : List Char) :
    (String.ofList text).toUTF8.toList = text.flatMap String.utf8EncodeChar := by
  rw [String.toUTF8_eq_toByteArray, ByteArray.toList, loop_toList, List.reverse_nil,
    List.nil_append, List.drop_zero]
  exact List.toList_data_toByteArray

end Utf8

/-! ## UTF-16 -/

namespace Utf16

/-- Whether a unit begins a pair, by its value. -/
theorem isHigh_iff {unit : UInt16} :
    isHigh unit = true ↔ 0xD800 ≤ unit.toNat ∧ unit.toNat < 0xDC00 := by
  rw [isHigh, Bool.and_eq_true, decide_eq_true_eq, decide_eq_true_eq, UInt16.le_iff_toNat_le,
    UInt16.lt_iff_toNat_lt]
  rfl

/-- Whether a unit ends a pair, by its value. -/
theorem isLow_iff {unit : UInt16} :
    isLow unit = true ↔ 0xDC00 ≤ unit.toNat ∧ unit.toNat < 0xE000 := by
  rw [isLow, Bool.and_eq_true, decide_eq_true_eq, decide_eq_true_eq, UInt16.le_iff_toNat_le,
    UInt16.lt_iff_toNat_lt]
  rfl

/-- A character is no surrogate. -/
theorem char_range (x : Char) :
    x.toNat < 0xD800 ∨ 0xE000 ≤ x.toNat ∧ x.toNat < 0x110000 := by
  rcases x.valid with hx | hx
  · exact Or.inl hx
  · exact Or.inr ⟨hx.1, hx.2⟩

/-- The unit of a character that has only one begins no pair and spells the character. -/
theorem decodeLossy_unit {x : Char} (h : x.toNat < 0x10000) (rest : List UInt16) :
    decodeLossy (x.toNat.toUInt16 :: rest) = x :: decodeLossy rest := by
  have hnat : x.toNat.toUInt16.toNat = x.toNat := by
    rw [Nat.toUInt16, UInt16.toNat_ofNat']
    exact Nat.mod_eq_of_lt h
  have hsingle : isHigh x.toNat.toUInt16 = false := by
    have hx := char_range x
    rw [Bool.eq_false_iff, Ne, isHigh_iff, hnat]
    omega
  rw [decodeLossy_single hsingle, hnat]
  rw [show (⟨x.toNat⟩ : CodePoint) = x from rfl, CodePoint.toCharLossy_ofChar]

/-- The value of a pair, by the offsets of its surrogates. -/
theorem pairValue_of {high low : UInt16} {a b : Nat} (hhigh : high.toNat = 0xD800 + a)
    (hlow : low.toNat = 0xDC00 + b) : pairValue high low = ⟨0x10000 + a * 0x400 + b⟩ := by
  have ha : high.toNat - 0xD800 = a := Nat.sub_eq_of_eq_add' hhigh
  have hb : low.toNat - 0xDC00 = b := Nat.sub_eq_of_eq_add' hlow
  subst ha hb
  rfl

/-- The two units of a character beyond `U+FFFF` are a pair and spell the character. -/
theorem decodeLossy_units {x : Char} (h : ¬ x.toNat < 0x10000) (rest : List UInt16) :
    decodeLossy (unitsOf x ++ rest) = x :: decodeLossy rest := by
  have hx := char_range x
  have hhigh : (0xD800 + (x.toNat - 0x10000) / 0x400 % 0x400).toUInt16.toNat =
      0xD800 + (x.toNat - 0x10000) / 0x400 := by
    rw [Nat.toUInt16, UInt16.toNat_ofNat']
    omega
  have hlow : (0xDC00 + (x.toNat - 0x10000) % 0x400).toUInt16.toNat =
      0xDC00 + (x.toNat - 0x10000) % 0x400 := by
    rw [Nat.toUInt16, UInt16.toNat_ofNat']
    omega
  rw [unitsOf, if_neg (by simpa using h), CodePoint.value_ofChar, List.cons_append,
    List.cons_append, List.nil_append, decodeLossy_pair]
  · rw [pairValue_of hhigh hlow, Nat.add_assoc, Nat.div_add_mod',
      Nat.add_sub_cancel' (Nat.le_of_not_lt h)]
    exact congrArg (· :: decodeLossy rest) (CodePoint.toCharLossy_ofChar x)
  · rw [isHigh_iff, hhigh]
    omega
  · rw [isLow_iff, hlow]
    omega

/-- The units of characters spell them. -/
theorem decodeLossy_flatMap_unitsOf (text : List Char) :
    decodeLossy (text.flatMap fun (x : Char) => unitsOf x) = text := by
  induction text with
  | nil => rfl
  | cons x text ih =>
    rw [List.flatMap_cons]
    by_cases h : x.toNat < 0x10000
    · rw [unitsOf, if_pos (by simpa using h), List.singleton_append, CodePoint.value_ofChar,
        decodeLossy_unit h, ih]
    · rw [decodeLossy_units h, ih]

/-! The units of UTF-16 are described by their numbers, which do not wrap around. -/

/-- The numbers that UTF-16 has for a character: its own, or those of two surrogates. -/
def standard (x : Char) : List Nat :=
  if x.toNat < 0x10000 then [x.toNat]
  else [0xD800 + (x.toNat - 0x10000) / 0x400, 0xDC00 + (x.toNat - 0x10000) % 0x400]

/-- The numbers that stand for a code point. Beyond `U+10FFFF`, where UTF-16 has none, the low
twenty bits of the offset make two surrogates. -/
def numbers (c : CodePoint) : List Nat :=
  if c.value < 0x10000 then [c.value]
  else [0xD800 + (c.value - 0x10000) / 0x400 % 0x400, 0xDC00 + (c.value - 0x10000) % 0x400]

/-- For a character the numbers are the standard ones. -/
theorem numbers_ofChar (x : Char) : numbers x = standard x := by
  have hx := char_range x
  rw [numbers, standard, CodePoint.value_ofChar, Nat.mod_eq_of_lt (a := (x.toNat - 0x10000) / 0x400)
    (by omega)]

/-- Every number fits sixteen bits. -/
theorem numbers_lt {c : CodePoint} {n : Nat} (h : n ∈ numbers c) : n < 0x10000 := by
  rw [numbers] at h
  split at h <;> simp only [List.mem_cons, List.not_mem_nil, or_false] at h <;> omega

/-- The units of a code point are its numbers. -/
theorem toNat_unitsOf (c : CodePoint) : (unitsOf c).map UInt16.toNat = numbers c := by
  have hfits (n : Nat) (h : n < 0x10000) : n.toUInt16.toNat = n := by
    rw [Nat.toUInt16, UInt16.toNat_ofNat']
    exact Nat.mod_eq_of_lt h
  rw [unitsOf, numbers]
  split
  · next h => rw [List.map_singleton, hfits _ h]
  · simp only [List.map_cons, List.map_nil]
    rw [hfits _ (by omega), hfits _ (by omega)]

/-- The units of code points are their numbers. -/
theorem toNat_flatMap_unitsOf (cs : List CodePoint) :
    (cs.flatMap unitsOf).map UInt16.toNat = cs.flatMap numbers := by
  simp only [List.map_flatMap, toNat_unitsOf]

end Utf16

/-! ## Accumulated text -/

namespace Text

/-- **The encoding of code points**, whatever a scanner does to accumulate it: the numbers that
UTF-16 has for them, or their characters, U+FFFD for each that is none. -/
def encode : TextEncoding → List CodePoint → Text
  | .utf16, cs => .utf16 ((cs.flatMap Utf16.numbers).map UInt16.ofNat).toArray
  | .utf8, cs => .utf8 <| String.ofList <| cs.map fun c =>
      if c.value.isValidChar then Char.ofNat c.value else '\uFFFD'

example : encode .utf16 ['a', '😀'] = .utf16 #[0x61, 0xD83D, 0xDE00] := by decide +kernel

/-- Units are accumulated in order. -/
theorem append_utf16 (units : Array UInt16) (cs : List CodePoint) :
    (utf16 units).append cs = .utf16 (units ++ cs.flatMap Utf16.unitsOf) := by
  induction cs generalizing units with
  | nil => simp [append]
  | cons c cs ih =>
    rw [append, List.foldl_cons, push, ← append, ih]
    congr 1
    apply Array.toList_inj.1
    simp

/-- Characters are accumulated in order, with U+FFFD for what is none. -/
theorem append_utf8 (content : String) (cs : List CodePoint) :
    (utf8 content).append cs = .utf8 (content ++ String.ofList (cs.map CodePoint.toCharLossy)) := by
  induction cs generalizing content with
  | nil => simp [append]
  | cons c cs ih =>
    rw [append, List.foldl_cons, push, ← append, ih]
    congr 1
    apply String.ext
    simp

/-- **What is accumulated from nothing is the encoding of the code points.** -/
theorem append_empty (e : TextEncoding) (cs : List CodePoint) :
    (empty e).append cs = encode e cs := by
  cases e with
  | utf16 =>
    have hunits : (cs.flatMap Utf16.numbers).map UInt16.ofNat = cs.flatMap Utf16.unitsOf := by
      rw [← Utf16.toNat_flatMap_unitsOf, List.map_map]
      simp [Function.comp_def]
    rw [empty, append_utf16, encode, hunits]
    simp
  | utf8 =>
    rw [empty, append_utf8, String.empty_append]
    rfl

/-- Accumulated characters are read back, in either form of the text. -/
theorem chars_append (e : TextEncoding) (text : List Char) :
    ((empty e).append (text.map CodePoint.ofChar)).chars = text := by
  -- UTF-16 pairs surrogates only when the text is read; a character adds whole pairs.
  cases e with
  | utf16 =>
    rw [empty, append_utf16, chars]
    simpa [List.flatMap_map] using Utf16.decodeLossy_flatMap_unitsOf text
  | utf8 =>
    rw [empty, append_utf8, chars]
    simp [Function.comp_def]

/-- The encoding of characters is read back. -/
theorem chars_encode (e : TextEncoding) (text : List Char) :
    (encode e (text.map CodePoint.ofChar)).chars = text :=
  append_empty e _ ▸ chars_append e text

/-- What is appended in two steps is appended in one. -/
theorem append_append (t : Text) (cs ds : List CodePoint) :
    t.append (cs ++ ds) = (t.append cs).append ds := List.foldl_append

end Text

end RdfTurtle
