import RdfTurtle.Proofs.Decoding
import RdfTurtle.Proofs.Encodings.WellFormed

/-! # Modes of decoding

Checking makes a difference only where there is something to refuse. Before well-formed bytes a
decoder has the same to come whether it checks them or not, and what is decoded with checks are
characters.

* **`Decoder.checking`** — a decoder with its mode changed.
* **`Decoder.Textual`** — a decoder that has characters only before it:
  **`Decoder.textual_of_strict`** one that checks, **`Decoder.textual_of_wellFormed`** one before
  well-formed bytes.
* **`Decoder.prospect_checking`** — checks do not show before well-formed bytes. -/

namespace RdfTurtle.Decoder

variable {d d' : Decoder}

/-- The decoder with its mode changed. -/
def checking (mode : Strictness) (d : Decoder) : Decoder := { d with mode }

/-- A byte is read in the same way in each mode. -/
theorem simulates_nextByte_checking (mode : Strictness) :
    Simulates Eq (fun d d' => d' = d.checking mode) Eq nextByte nextByte := by
  rintro d _ rfl
  unfold nextByte checking
  dsimp only
  split
  · exact .ok rfl rfl
  · split
    · exact .ok rfl rfl
    · exact .ok rfl rfl
    · exact .error rfl rfl

/-! ## Characters -/

/-- What comes is characters. -/
def Textual (d : Decoder) : Prop :=
  ∀ l ∈ d.prospect.lookaheads, ∀ c, l.codePoint? = some c → ∃ x : Char, c = x

/-- What is decoded with checks is a character. -/
theorem exists_char_of_group {lead : UInt8} {c : CodePoint} (h : group .strict lead d = .ok c d') :
    ∃ x : Char, c = x := by
  simp only [group] at h
  split at h
  · obtain ⟨bytes, d₁, -, h⟩ := ok_of_bind h
    cases hx : Utf8.scalar? lead bytes with
    | some x =>
      rw [hx] at h
      injection h with hc
      exact ⟨x, hc.symm⟩
    | none =>
      rw [hx] at h
      cases h
  · cases h

/-- Every code point that comes is decoded from a group, in the mode of the decoder. -/
theorem exists_group_of_mem_prospect {l : Lookahead} (hl : l ∈ d.prospect.lookaheads)
    {c : CodePoint} (hc : l.codePoint? = some c) :
    ∃ lead e e', group d.mode lead e = .ok c e' := by
  induction hn : d.size using Nat.strongRecOn generalizing d with
  | ind n ih =>
    subst hn
    cases hnext : d.next with
    | error fault e =>
      rw [prospect_of_error hnext] at hl
      cases hl
    | ok first e =>
      rcases first with ⟨_ | first, position⟩
      · rw [prospect_of_none hnext] at hl
        cases hl
      rw [prospect_of_some hnext] at hl
      rcases List.mem_cons.1 hl with rfl | hl
      · -- The first was decoded from a group behind the next byte.
        obtain rfl : first = c := Option.some.inj hc
        have hstanding := d.standing_nextByte
        obtain ⟨byte?, e₁, hbyte, hrest⟩ := ok_of_bind hnext
        rw [hbyte, finalState_ok] at hstanding
        cases byte? with
        | none => cases hrest
        | some lead =>
          rw [next_of_lead hbyte, show e₁.mode = d.mode from congrArg Prod.snd hstanding] at hnext
          split at hnext
          · next hgroup =>
            injection hnext with hfirst
            injection hfirst with hfirst
            injection hfirst with hfirst
            exact ⟨lead, e₁, _, hfirst ▸ hgroup⟩
          · cases hnext
      -- The others come of the decoder behind it, which has kept the mode.
      · have hlocates := d.locates_next
        rw [hnext] at hlocates
        have hmode : e.mode = d.mode := congrArg Prod.snd hlocates.passed
        rw [← hmode]
        exact ih _ (size_of_next hnext) hl rfl

/-- A decoder that checks has characters only before it. -/
theorem textual_of_strict (hmode : d.mode = .strict) : d.Textual := by
  intro l hl c hc
  obtain ⟨lead, e, e', hgroup⟩ := exists_group_of_mem_prospect hl hc
  rw [hmode] at hgroup
  exact exists_char_of_group hgroup

/-! ## Well-formed bytes -/

/-- Behind the next of well-formed bytes comes the rest of a group, and then well-formed bytes. -/
theorem group_of_wellFormed {lead : UInt8} (h : Utf8.WellFormed d.contents)
    (hbyte : nextByte d = .ok (some lead) d') :
    ∃ x bytes text, Utf8.Encodes lead bytes x ∧ d'.contents = bytes ++ Utf8.encode text := by
  obtain ⟨text, htext⟩ := Utf8.wellFormed_iff.1 h
  rw [contents_of_nextByte hbyte] at htext
  cases text with
  | nil => cases htext
  | cons x text =>
    obtain ⟨first, bytes, hbytes, hx⟩ := Utf8.encodes_utf8EncodeChar x
    rw [Utf8.encode_cons, hbytes, List.cons_append] at htext
    injection htext with hlead hrest
    exact ⟨x, bytes, text, hlead ▸ hx, hrest⟩

/-- The group of a character is read alike in each mode. -/
theorem alike_group_checking {lead : UInt8} {bytes rest : List UInt8} {x : Char}
    (hx : Utf8.Encodes lead bytes x) (h : d.contents = bytes ++ rest) (mode : Strictness) :
    Alike Eq (fun e e' => e' = e.checking mode) Eq (group d.mode lead d)
      (group mode lead (d.checking mode)) := by
  have hfurther := simulates_further_of (simulates_nextByte_checking mode)
    (Utf8.furtherBytes lead) (rfl : d.checking mode = d.checking mode)
  rw [group_of_text hx h, group_of_text hx (d := d.checking mode) h]
  generalize further (Utf8.furtherBytes lead) d = r,
    further (Utf8.furtherBytes lead) (d.checking mode) = r' at hfurther
  cases hfurther with
  | ok _ hstate => exact .ok rfl hstate
  | error hfault hstate => exact .error hfault hstate

/-- What comes next of well-formed bytes is decoded alike in each mode. -/
theorem alike_next_checking (h : Utf8.WellFormed d.contents) (mode : Strictness) :
    Alike Eq (fun e e' => e' = e.checking mode) Eq d.next (d.checking mode).next := by
  apply Alike.bind (simulates_nextByte_checking mode rfl)
  rintro byte? _ e _ hbyte rfl rfl
  cases byte? with
  | none => exact .ok rfl rfl
  | some lead =>
    obtain ⟨x, bytes, text, hx, he⟩ := group_of_wellFormed h hbyte
    show Alike _ _ _ ((group e.mode lead >>= pass) e)
      ((group mode lead >>= pass) (e.checking mode))
    apply (alike_group_checking hx he mode).bind
    rintro c _ t _ - rfl rfl
    exact .ok rfl rfl

/-- Behind a character that is decoded well-formed bytes are well-formed. -/
theorem wellFormed_of_next {c : CodePoint} {position : Position} (h : Utf8.WellFormed d.contents)
    (hnext : d.next = .ok ⟨some c, position⟩ d') : Utf8.WellFormed d'.contents := by
  obtain ⟨byte?, e, hbyte, hrest⟩ := ok_of_bind hnext
  cases byte? with
  | none => cases hrest
  | some lead =>
    obtain ⟨x, bytes, text, hx, he⟩ := group_of_wellFormed h hbyte
    rw [next_of_lead hbyte, group_of_text hx he] at hnext
    cases hfurther : further (Utf8.furtherBytes lead) e with
    | error fault t =>
      rw [hfurther] at hnext
      cases hnext
    | ok read t =>
      rw [hfurther] at hnext
      injection hnext with _ hd
      obtain ⟨hsplit, hlength⟩ := contents_of_further hfurther
      obtain ⟨-, hcontents⟩ := List.append_inj (hsplit.symm.trans he) (hlength.trans hx.length)
      exact Utf8.wellFormed_iff.2 ⟨text, hd ▸ hcontents⟩

/-- **Checks do not show before well-formed bytes**, wherever the source ends them. -/
theorem prospect_checking (h : Utf8.WellFormed d.contents) (mode : Strictness) :
    (d.checking mode).prospect = d.prospect := by
  induction hn : d.size using Nat.strongRecOn generalizing d with
  | ind n ih =>
    subst hn
    have halike := alike_next_checking h mode
    cases hnext : d.next with
    | error fault e =>
      rw [hnext] at halike
      obtain ⟨_, _, hnext', rfl, rfl⟩ := halike.of_error
      rw [prospect_of_error hnext, prospect_of_error hnext']
      rfl
    | ok l e =>
      rw [hnext] at halike
      obtain ⟨_, _, hnext', rfl, rfl⟩ := halike.of_ok
      rcases l with ⟨_ | c, position⟩
      · rw [prospect_of_none hnext, prospect_of_none hnext']
      · rw [prospect_of_some hnext, prospect_of_some hnext',
          ih _ (size_of_next hnext) (wellFormed_of_next h hnext) rfl]

/-- A decoder before well-formed bytes has characters only before it. -/
theorem textual_of_wellFormed (h : Utf8.WellFormed d.contents) : d.Textual := by
  have hstrict : (d.checking .strict).Textual := textual_of_strict rfl
  rwa [Textual, prospect_checking h] at hstrict

end RdfTurtle.Decoder
