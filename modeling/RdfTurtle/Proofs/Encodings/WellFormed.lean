import Mathlib.Algebra.Group.Nat.Defs
import RdfTurtle.Proofs.Encodings

/-! # Well-formed UTF-8

The groups that strict checking accepts are exactly the encodings of characters. A lead byte settles
how long its group is, so that no encoding is the beginning of another, and bytes fall into
characters in one way only.

* **`Utf8.encode`** — the bytes of a text, and **`Utf8.WellFormed`** being the bytes of one.
* **`Utf8.eq_utf8EncodeChar`** — an accepted group is the encoding of the character it spells.
* **`Utf8.encode_prefix`** — the texts at the front of the same bytes are the beginnings of one. -/

namespace RdfTurtle.Utf8

/-- The bytes of a text, character by character. -/
def encode (text : List Char) : List UInt8 := text.flatMap String.utf8EncodeChar

@[simp] theorem encode_nil : encode [] = [] := rfl

/-- The bytes of the first character come first. -/
@[simp] theorem encode_cons (x : Char) (text : List Char) :
    encode (x :: text) = String.utf8EncodeChar x ++ encode text := rfl

/-- Well-formed UTF-8: the encoding of some scalar values, without overlong forms, surrogates or
values beyond `U+10FFFF`. -/
def WellFormed (bytes : List UInt8) : Prop := bytes.toByteArray.IsValidUTF8

/-- Bytes are well-formed exactly when they encode a text. -/
theorem wellFormed_iff {bytes : List UInt8} : WellFormed bytes ↔ ∃ text, bytes = encode text := by
  constructor
  · rintro ⟨text, htext⟩
    refine ⟨text, ?_⟩
    have hlist := congrArg (·.data.toList) htext
    simpa only [List.utf8Encode, encode, List.toList_data_toByteArray] using hlist
  · rintro ⟨text, rfl⟩
    exact ⟨text, rfl⟩

/-! ## Groups -/

/-- Six bits for each byte are put behind a value. -/
def extend (value : Nat) (further : List UInt8) : Nat :=
  further.foldl (fun value byte => value * 64 + byte.toNat % 64) value

/-- What bytes spell is the payload of the first, extended by those of the others. -/
theorem value_spell (lead : UInt8) (further : List UInt8) :
    (spell lead further).value = extend (payload lead) further := rfl

/-- A byte with the form of a further byte is known by its low six bits. -/
theorem further_inj {byte byte' : UInt8} (h : isContinuation byte) (h' : isContinuation byte')
    (hlow : byte.toNat % 64 = byte'.toNat % 64) : byte = byte' := by
  have hrange {b : UInt8} (hb : isContinuation b) : 0x80 ≤ b.toNat ∧ b.toNat < 0xC0 := by
    simpa [isContinuation, UInt8.le_iff_toNat_le, UInt8.lt_iff_toNat_lt] using hb
  have := hrange h
  have := hrange h'
  exact UInt8.toNat_inj.1 (by omega)

/-- As many further bytes with the same value come from the same value, and are the same. -/
theorem extend_inj {value value' : Nat} {further further' : List UInt8}
    (hlength : further.length = further'.length) (h : further.all isContinuation)
    (h' : further'.all isContinuation) (hvalue : extend value further = extend value' further') :
    value = value' ∧ further = further' := by
  induction further generalizing value value' further' with
  | nil =>
    obtain rfl := List.length_eq_zero_iff.1 hlength.symm
    exact ⟨hvalue, rfl⟩
  | cons byte further ih =>
    obtain ⟨byte', further', rfl⟩ := List.exists_cons_of_length_eq_add_one hlength.symm
    rw [List.all_cons, Bool.and_eq_true] at h h'
    obtain ⟨hfront, rfl⟩ := ih (Nat.succ.inj hlength) h.2 h'.2 hvalue
    dsimp only at hfront
    have hlow : byte.toNat % 64 = byte'.toNat % 64 := by omega
    exact ⟨by omega, by rw [further_inj h.1 h'.1 hlow]⟩

/-- Each further byte makes the value at most 64 times as large. -/
theorem extend_lt {value bound : Nat} (h : value < bound) (further : List UInt8) :
    extend value further < bound * 64 ^ further.length := by
  induction further generalizing value bound with
  | nil => simpa [extend] using h
  | cons byte further ih =>
    have hbyte : value * 64 + byte.toNat % 64 < bound * 64 := by omega
    have hrest := ih hbyte
    rwa [Nat.mul_assoc, ← Nat.pow_succ'] at hrest

/-- What the bit pattern of a lead says: how many bytes follow, and which bits are payload. -/
theorem lead_cases {lead : UInt8} (h : isLead lead) :
    (furtherBytes lead = 0 ∧ payload lead = lead.toNat ∧ lead.toNat < 0x80) ∨
    (furtherBytes lead = 1 ∧ payload lead = lead.toNat - 0xC0 ∧
      0xC0 ≤ lead.toNat ∧ lead.toNat < 0xE0) ∨
    (furtherBytes lead = 2 ∧ payload lead = lead.toNat - 0xE0 ∧
      0xE0 ≤ lead.toNat ∧ lead.toNat < 0xF0) ∨
    (furtherBytes lead = 3 ∧ payload lead = lead.toNat - 0xF0 ∧
      0xF0 ≤ lead.toNat ∧ lead.toNat < 0xF8) := by
  have hlt : lead.toNat < 256 := lead.toNat_lt
  have hfurther := furtherBytes_ofNat hlt
  have hpayload := payload_ofNat hlt
  have hlead := isLead_ofNat hlt
  rw [UInt8.ofNat_toNat] at hfurther hpayload hlead
  rw [hfurther, hpayload]
  have hlead := hlead.1 h
  split
  · omega
  · split
    · omega
    · split <;> omega

/-- The value of a group of the announced length needs no more bytes. -/
theorem value_lt {lead : UInt8} {further : List UInt8} (h : isLead lead)
    (hlength : furtherBytes lead = further.length) :
    (spell lead further).value < leastValue (further.length + 1) ∨ further.length = 3 := by
  rw [value_spell]
  rcases lead_cases h with hlead | hlead | hlead | hlead
  · have hlt := extend_lt (show payload lead < 0x80 by omega) further
    rw [show further.length = 0 by omega] at hlt ⊢
    exact Or.inl hlt
  · have hlt := extend_lt (show payload lead < 0x20 by omega) further
    rw [show further.length = 1 by omega] at hlt ⊢
    exact Or.inl hlt
  · have hlt := extend_lt (show payload lead < 0x10 by omega) further
    rw [show further.length = 2 by omega] at hlt ⊢
    exact Or.inl hlt
  · exact Or.inr (by omega)

/-- Longer groups are for greater values. -/
theorem leastValue_mono {n m : Nat} (h : n ≤ m) (hm : m ≤ 3) : leastValue n ≤ leastValue m := by
  match m, n, hm with
  | 0, 0, _ | 1, 0, _ | 1, 1, _ | 2, 0, _ | 2, 1, _ | 2, 2, _ | 3, 0, _ | 3, 1, _ | 3, 2, _
  | 3, 3, _ => decide

/-- What the acceptance of a group says. -/
theorem of_scalar? {lead : UInt8} {further : List UInt8} {x : Char}
    (h : scalar? lead further = some x) :
    isLead lead ∧ further.all isContinuation ∧
      leastValue further.length ≤ (spell lead further).value ∧ spell lead further = x := by
  unfold scalar? at h
  dsimp only at h
  split at h
  · next hgroup =>
    obtain ⟨hlead, hfurther, hleast, hvalid⟩ := hgroup
    injection h with hx
    refine ⟨hlead, hfurther, hleast, CodePoint.ext ?_⟩
    rw [← hx, CodePoint.value_ofChar, CodePoint.toNat_charOfNat hvalid]
  · cases h

/-- A group of the announced length that is accepted encodes its character. -/
theorem encodes_of_scalar? {lead : UInt8} {further : List UInt8} {x : Char}
    (h : scalar? lead further = some x) (hlength : furtherBytes lead = further.length) :
    Encodes lead further x := by
  obtain ⟨hlead, -, -, hvalue⟩ := of_scalar? h
  exact ⟨hlead, hlength, hvalue, h⟩

/-- No value is encoded by groups of two lengths. -/
theorem Encodes.length_le {lead lead' : UInt8} {further further' : List UInt8} {x : Char}
    (h : Encodes lead further x) (h' : Encodes lead' further' x) :
    further.length ≤ further'.length := by
  obtain ⟨-, -, hleast, -⟩ := of_scalar? h.wellFormed
  have hle : further.length ≤ 3 := h.length ▸ furtherBytes_le lead
  rcases value_lt h'.announces h'.length with hlt | hlast
  · refine Nat.le_of_not_lt fun hlonger => ?_
    have hmono := leastValue_mono hlonger hle
    rw [h.value] at hleast
    rw [h'.value] at hlt
    exact absurd (Nat.le_trans hmono hleast) (Nat.not_le.2 hlt)
  · omega

/-- A character is encoded in one way only. -/
theorem Encodes.unique {lead lead' : UInt8} {further further' : List UInt8} {x : Char}
    (h : Encodes lead further x) (h' : Encodes lead' further' x) :
    lead :: further = lead' :: further' := by
  obtain ⟨-, hall, -, -⟩ := of_scalar? h.wellFormed
  obtain ⟨-, hall', -, -⟩ := of_scalar? h'.wellFormed
  have hlength : further.length = further'.length :=
    Nat.le_antisymm (h.length_le h') (h'.length_le h)
  have hvalue : (spell lead further).value = (spell lead' further').value := by
    rw [h.value, h'.value]
  obtain ⟨hpayload, rfl⟩ := extend_inj hlength hall hall' hvalue
  -- Leads that announce the same number of bytes differ in their payload only.
  have hannounced : furtherBytes lead = furtherBytes lead' := h.length.trans h'.length.symm
  have hlead : lead.toNat = lead'.toNat := by
    have := lead_cases h.announces
    have := lead_cases h'.announces
    omega
  rw [UInt8.toNat_inj.1 hlead]

/-- **A group that is accepted is the encoding of the character it spells.** -/
theorem eq_utf8EncodeChar {lead : UInt8} {further : List UInt8} {x : Char}
    (h : scalar? lead further = some x) (hlength : furtherBytes lead = further.length) :
    lead :: further = String.utf8EncodeChar x := by
  obtain ⟨lead', further', hbytes, hx⟩ := encodes_utf8EncodeChar x
  rw [hbytes]
  exact (encodes_of_scalar? h hlength).unique hx

/-! ## Characters at the front of bytes -/

/-- Bytes begin with the encoding of one character at most. -/
theorem utf8EncodeChar_append_inj {x y : Char} {rest rest' : List UInt8}
    (h : String.utf8EncodeChar x ++ rest = String.utf8EncodeChar y ++ rest') :
    x = y ∧ rest = rest' := by
  obtain ⟨lead, further, hbytes, hx⟩ := encodes_utf8EncodeChar x
  obtain ⟨lead', further', hbytes', hy⟩ := encodes_utf8EncodeChar y
  rw [hbytes, hbytes', List.cons_append, List.cons_append, List.cons.injEq] at h
  obtain ⟨rfl, h⟩ := h
  obtain ⟨rfl, hrest⟩ := List.append_inj h (hx.length.symm.trans hy.length)
  have hvalue : (x : CodePoint) = y := hx.value.symm.trans hy.value
  exact ⟨CodePoint.ofChar_inj.1 hvalue, hrest⟩

/-- The bytes begin with the encoding of a character. -/
def Begins (bytes : List UInt8) : Prop := ∃ x rest, bytes = String.utf8EncodeChar x ++ rest

/-- **The texts at the front of the same bytes are the beginnings of one**: of the text up to where
no character begins. -/
theorem encode_prefix {text front : List Char} {rest behind : List UInt8} (hrest : ¬ Begins rest)
    (h : encode front ++ behind = encode text ++ rest) : encode front <+: encode text := by
  induction text generalizing front with
  | nil =>
    cases front with
    | nil => exact List.prefix_rfl
    | cons x front =>
      rw [encode_cons, List.append_assoc, encode_nil, List.nil_append] at h
      exact absurd ⟨x, _, h.symm⟩ hrest
  | cons y text ih =>
    cases front with
    | nil => exact List.nil_prefix
    | cons x front =>
      rw [encode_cons, encode_cons, List.append_assoc, List.append_assoc] at h
      obtain ⟨rfl, hbehind⟩ := utf8EncodeChar_append_inj h
      rw [encode_cons, encode_cons, List.prefix_append_right_inj]
      exact ih hbehind

/-- All characters at the front of bytes, up to where none begins. -/
theorem exists_encode (bytes : List UInt8) :
    ∃ text rest, bytes = encode text ++ rest ∧ ¬ Begins rest := by
  induction hn : bytes.length using Nat.strongRecOn generalizing bytes with
  | ind n ih =>
    subst hn
    by_cases h : Begins bytes
    · obtain ⟨x, behind, rfl⟩ := h
      obtain ⟨lead, further, hbytes, -⟩ := encodes_utf8EncodeChar x
      have hshorter : behind.length < (String.utf8EncodeChar x ++ behind).length := by
        rw [hbytes, List.length_append, List.length_cons]
        omega
      obtain ⟨text, rest, hsplit, hrest⟩ := ih _ hshorter behind rfl
      exact ⟨x :: text, rest, by rw [hsplit, encode_cons, List.append_assoc], hrest⟩
    · exact ⟨[], bytes, rfl, h⟩

end RdfTurtle.Utf8
