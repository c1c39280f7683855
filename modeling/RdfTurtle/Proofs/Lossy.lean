import RdfTurtle.Proofs.Awaiting

/-! # Characters of code points

Code points are accumulated in either form and read back as characters. What is no character is
replaced, and two surrogates in a row may come to one character; characters below the surrogates
are never touched by that, and what stands on one side of them never meets what stands on the
other.

* **`Text.lossy`** — the characters that code points come to.
* **`Text.lossy_append_cons`** — a character below the surrogates parts what is around it.
* **`Text.mem_of_mem_lossy`** — nothing else comes to such a character. -/

namespace RdfTurtle

/-! ## Units -/

namespace Utf16

variable {x : Char} {unit : UInt16} {units : List UInt16}

/-- The unit of a character below the surrogates. -/
theorem toNat_unit (hx : x.toNat < 0xD800) : x.toNat.toUInt16.toNat = x.toNat := by
  rw [Nat.toUInt16, UInt16.toNat_ofNat']
  exact Nat.mod_eq_of_lt (Nat.lt_trans hx (by decide))

/-- It is no low surrogate. -/
theorem isLow_unit (hx : x.toNat < 0xD800) : isLow x.toNat.toUInt16 = false := by
  have hlow : (0xDC00 : UInt16).toNat = 0xDC00 := rfl
  rw [isLow, Bool.and_eq_false_iff, decide_eq_false_iff_not, UInt16.le_iff_toNat_le,
    toNat_unit hx, hlow]
  omega

/-- A character below the surrogates parts the units around it. -/
theorem decodeLossy_append_cons (hx : x.toNat < 0xD800) (units more : List UInt16) :
    decodeLossy (units ++ x.toNat.toUInt16 :: more) =
      decodeLossy units ++ x :: decodeLossy more := by
  have hcons := decodeLossy_unit (Nat.lt_trans hx (by decide)) more
  fun_induction decodeLossy units with
  | case1 => exact hcons
  | case2 unit =>
    -- The unit before it finds no partner.
    rw [List.singleton_append, decodeLossy, isLow_unit hx, Bool.and_false, if_neg (by decide),
      hcons]
    rfl
  | case3 first second rest hpair ih =>
    rw [List.cons_append, List.cons_append, decodeLossy, if_pos hpair, ih]
    rfl
  | case4 first second rest hpair ih =>
    rw [List.cons_append, List.cons_append, decodeLossy, if_neg hpair, ← List.cons_append, ih]
    rfl

/-- A character below the surrogates is that of its number. -/
theorem eq_of_toCharLossy {c : CodePoint} (hx : x.toNat < 0xD800) (h : c.toCharLossy = x) :
    c = x := by
  unfold CodePoint.toCharLossy at h
  split at h
  · next hvalid =>
    rw [CodePoint.ext_iff, CodePoint.value_ofChar, ← h, CodePoint.toNat_charOfNat hvalid]
  · rw [← h] at hx
    exact absurd hx (by decide)

/-- A character below the surrogates is read from its unit only. -/
theorem mem_of_mem_decodeLossy (hx : x.toNat < 0xD800) (h : x ∈ decodeLossy units) :
    x.toNat.toUInt16 ∈ units := by
  have hunit {unit : UInt16} (heq : CodePoint.toCharLossy ⟨unit.toNat⟩ = x) :
      x.toNat.toUInt16 = unit := by
    rw [← UInt16.toNat_inj, toNat_unit hx]
    exact (congrArg CodePoint.value (eq_of_toCharLossy hx heq)).symm
  fun_induction decodeLossy units with
  | case1 => cases h
  | case2 unit => exact List.mem_singleton.2 (hunit (List.mem_singleton.1 h).symm)
  | case3 first second rest hpair ih =>
    rcases List.mem_cons.1 h with h | h
    · -- A pair comes to a character beyond all units.
      have hvalue : 0x10000 + (first.toNat - 0xD800) * 0x400 + (second.toNat - 0xDC00) = x.toNat :=
        congrArg CodePoint.value (eq_of_toCharLossy hx h.symm)
      omega
    · exact List.mem_cons_of_mem _ (List.mem_cons_of_mem _ (ih h))
  | case4 first second rest hpair ih =>
    rcases List.mem_cons.1 h with h | h
    · exact List.mem_cons.2 (Or.inl (hunit h.symm))
    · exact List.mem_cons_of_mem _ (ih h)

/-- A character below the surrogates has its unit to itself. -/
theorem eq_of_mem_unitsOf {c : CodePoint} (hx : x.toNat < 0xD800)
    (h : x.toNat.toUInt16 ∈ unitsOf c) : c = x := by
  have hnat := toNat_unit hx
  rw [CodePoint.ext_iff, CodePoint.value_ofChar]
  unfold unitsOf at h
  split at h
  · rw [List.mem_singleton, ← UInt16.toNat_inj, hnat] at h
    simp only [Nat.toUInt16, UInt16.toNat_ofNat'] at h
    omega
  · simp only [List.mem_cons, List.not_mem_nil, or_false, ← UInt16.toNat_inj, hnat] at h
    simp only [Nat.toUInt16, UInt16.toNat_ofNat'] at h
    omega

end Utf16

/-! ## Accumulated text -/

namespace Text

variable {e : TextEncoding} {cs ds : List CodePoint} {x : Char} {text : List Char}

/-- The characters that code points come to. -/
def lossy (e : TextEncoding) (cs : List CodePoint) : List Char := (encode e cs).chars

/-- In UTF-16 the units are read back. -/
theorem lossy_utf16 (cs : List CodePoint) :
    lossy .utf16 cs = Utf16.decodeLossy (cs.flatMap Utf16.unitsOf) := by
  rw [lossy, ← append_empty, empty, append_utf16, chars]
  simp

/-- In UTF-8 each code point is read back by itself. -/
theorem lossy_utf8 (cs : List CodePoint) : lossy .utf8 cs = cs.map CodePoint.toCharLossy := by
  rw [lossy, ← append_empty, empty, append_utf8, chars]
  simp

@[simp] theorem lossy_nil : lossy e [] = [] := by cases e <;> simp [lossy_utf16, lossy_utf8]

/-- Characters come to themselves. -/
theorem lossy_codes (text : List Char) : lossy e (codes text) = text := chars_encode e text

/-- **A character below the surrogates parts what is around it.** -/
theorem lossy_append_cons (hx : x.toNat < 0xD800) (cs ds : List CodePoint) :
    lossy e (cs ++ (x : CodePoint) :: ds) = lossy e cs ++ x :: lossy e ds := by
  cases e with
  | utf16 =>
    have hunit : Utf16.unitsOf x = [x.toNat.toUInt16] :=
      if_pos (Nat.lt_trans hx (by decide))
    rw [lossy_utf16, lossy_utf16, lossy_utf16, List.flatMap_append, List.flatMap_cons, hunit,
      List.singleton_append, Utf16.decodeLossy_append_cons hx]
  | utf8 => simp [lossy_utf8]

/-- A character below the surrogates is read back in front of the others. -/
theorem lossy_cons (hx : x.toNat < 0xD800) (cs : List CodePoint) :
    lossy e ((x : CodePoint) :: cs) = x :: lossy e cs := by
  have h := @lossy_append_cons e x hx [] cs
  rwa [lossy_nil] at h

/-- So does a text of such characters. -/
theorem lossy_append_codes (hne : text ≠ []) (htext : ∀ x ∈ text, x.toNat < 0xD800)
    (cs ds : List CodePoint) :
    lossy e (cs ++ (codes text ++ ds)) = lossy e cs ++ (text ++ lossy e ds) := by
  have hbehind (more : List Char) (hmore : ∀ x ∈ more, x.toNat < 0xD800) :
      lossy e (codes more ++ ds) = more ++ lossy e ds := by
    induction more with
    | nil => rfl
    | cons y more ih =>
      obtain ⟨hy, hmore⟩ := List.forall_mem_cons.1 hmore
      rw [codes_cons, List.cons_append, lossy_cons hy, ih hmore, List.cons_append]
  cases text with
  | nil => exact absurd rfl hne
  | cons x text =>
    obtain ⟨hx, hmore⟩ := List.forall_mem_cons.1 htext
    rw [codes_cons, List.cons_append, lossy_append_cons hx, hbehind text hmore, List.cons_append]

/-- **Nothing else comes to such a character.** -/
theorem mem_of_mem_lossy (hx : x.toNat < 0xD800) (h : x ∈ lossy e cs) : (x : CodePoint) ∈ cs := by
  cases e with
  | utf16 =>
    rw [lossy_utf16] at h
    obtain ⟨c, hc, hunit⟩ := List.mem_flatMap.1 (Utf16.mem_of_mem_decodeLossy hx h)
    rwa [← Utf16.eq_of_mem_unitsOf hx hunit]
  | utf8 =>
    rw [lossy_utf8] at h
    obtain ⟨c, hc, heq⟩ := List.mem_map.1 h
    rwa [← Utf16.eq_of_toCharLossy hx heq]

end Text

end RdfTurtle
