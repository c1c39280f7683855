import RdfTurtle.Proofs.Exhaustion
import RdfTurtle.Proofs.Ordering

/-! # Positions are counted

Where a lookahead stands is decided by the code points before it: by the line ends among them, and
by how many come behind the last of these. It does not matter how the lookahead was reached, nor
whether it was deferred and given back on the way.

* **`Prospect.Within`** — what is still to come of a prospect; **`Scanner.within_perform`**,
  **`Scanner.within_after`** every operation leaves some of it.
* **`Scanner.position_counted`** — the place of the lookahead of a scanner. -/

namespace RdfTurtle

/-! ## Prospects -/

namespace Prospect

variable {p q r : Prospect}

/-- What is still to come of `p`: the last of its lookaheads, up to its end. Where decoding fails at
the end the failure may have been met. -/
structure Within (p q : Prospect) : Prop where
  lookaheads : q.lookaheads <:+ p.lookaheads
  ending : q.endPosition = p.endPosition

/-- An end of what was to come is still to come of it. -/
theorem EndOf.within (h : q.EndOf p) : p.Within q :=
  ⟨h.lookaheads, by rw [endPosition, endPosition, h.ending]⟩

/-- What is still to come of that is still to come of the whole. -/
theorem Within.trans (hq : p.Within q) (hr : q.Within r) : p.Within r :=
  ⟨hr.lookaheads.trans hq.lookaheads, hr.ending.trans hq.ending⟩

end Prospect

namespace Scanner

variable {s s' : Scanner}

/-! ## Operations -/

/-- What is made of a result leaves the same. -/
theorem Leaves.bind_pure {α β : Type} {before : Prospect} {x : EStateM LexError Scanner α}
    {f : α → β} (h : Leaves before (x s)) : Leaves before ((do return f (← x)) s) := by
  simp only [bind, EStateM.bind]
  cases hx : x s with
  | ok a s' =>
    rw [hx] at h
    cases h with
    | accepted rest => exact .accepted rest
  | error e s' =>
    rw [hx] at h
    cases h with
    | rejected rest fault => exact .rejected rest fault
    | failed ending hend => exact .failed ending hend

/-- At the end of input nothing is done. -/
theorem leaves_unlessEnd {α : Type} {x : EStateM LexError Scanner α}
    (hx : ¬ s.atEnd → Leaves s.prospect (x s)) :
    Leaves s.prospect
      (if s.atEnd then .error ⟨.prematureEnd, s.current.position⟩ s else x s) := by
  split
  · next hend =>
    exact .rejected (.refl _) fun failure hfailure => absurd hend (not_atEnd_of_ending hfailure)
  · next hend => exact hx hend

/-- Whatever is done leaves an end of what was to come, unless the failure at its end is met. -/
theorem leaves_perform (operation : Operation) (s : Scanner) :
    Leaves s.prospect (operation.perform s) := by
  cases operation with
  | recognize r => exact (leaves_recognize r s).bind_pure
  | advance =>
    refine (leaves_unlessEnd fun hend => ?_).bind_pure (f := fun _ => none)
    cases hs : step s with
    | ok u s' => exact .accepted (endOf_of_step hend hs)
    | error e s' => exact .failed (ending_of_step_error hend hs) (atEnd_of_step_error hs)
  | accumulate =>
    refine (leaves_unlessEnd fun hend => ?_).bind_pure (f := fun _ => none)
    cases hs : take [] s with
    | ok u s' => exact .accepted (endOf_of_take hend hs)
    | error e s' => exact .failed (ending_of_take_error hend hs) (atEnd_of_step_error hs)
  | clear =>
    refine .accepted ?_
    rw [prospect_clear]
    exact .refl _

/-- Whatever is done leaves some of what was to come. -/
theorem within_perform (operation : Operation) (s : Scanner) :
    s.prospect.Within (finalState (operation.perform s)).prospect := by
  have hleaves := leaves_perform operation s
  cases hs : operation.perform s with
  | ok l? s' =>
    rw [hs] at hleaves
    cases hleaves with
    | accepted rest => exact rest.within
  | error e s' =>
    rw [hs] at hleaves
    cases hleaves with
    | rejected rest => exact rest.within
    | failed ending =>
      -- The scanner is at the end then, which is where decoding failed.
      have hend := exhausted_of_perform_error hs (Or.inl ending)
      rw [finalState_error, prospect_of_atEnd hend.atEnd, hend.current]
      exact ⟨List.nil_suffix, by rw [Prospect.endPosition, Prospect.endPosition, ending]⟩

/-- Operations leave what is still to come. -/
theorem within_after (s : Scanner) (operations : List Operation) :
    s.prospect.Within (s.after operations).prospect := by
  induction operations generalizing s with
  | nil => exact ⟨List.suffix_refl _, rfl⟩
  | cons operation operations ih => exact (within_perform operation s).trans (ih _)

/-- **Positions are counted from the code points before them.** Take a scanner over any source, and
any operations on it. What its decoder decodes falls into what the scanner has passed and what is
still to come. The lookahead is the first code point to come, or the end: of the input, or of what
can be decoded of it. It stands behind what was passed, a line down for each line end among that and
a column on for each code point behind the last of these. Where the input has fewer than
`2 ^ 32 - 1` code points the counters of 32 bits show these numbers, and further on in the input
positions never decrease. If the first code point cannot be decoded, the error stands where a text
begins. -/
theorem position_counted (source : Source) (options : Options) :
    (∀ s, ofSource source options = .ok s → ∀ operations, ∃ passed pending,
      Lookahead.codes (Decoder.ofSource source options).prospect.lookaheads = passed ++ pending ∧
      Lookahead.codes (s.after operations).prospect.lookaheads = pending ∧
      (s.after operations).current = ⟨pending.head?, .behind passed⟩ ∧
      (passed.length + pending.length < 2 ^ 32 - 1 →
        (s.after operations).current.position.line.toNat = 1 + lineEnds passed ∧
        (s.after operations).current.position.column.toNat = 1 + (lastLine passed).length)) ∧
    (∀ e, ofSource source options = .error e → e.position = .behind []) ∧
    ((Decoder.ofSource source options).prospect.lookaheads.length < 2 ^ 32 - 1 →
      (Decoder.ofSource source options).prospect.Ordered) := by
  refine ⟨fun s hs operations => ?_, fun e he => ?_, Decoder.ordered_prospect⟩
  · have hwithin := s.within_after operations
    rw [prospect_ofSource hs] at hwithin
    obtain ⟨⟨before, hbefore⟩, hending⟩ := hwithin
    have hbehind := Decoder.position_behind hbefore.symm hending
    rw [position_prospect] at hbehind
    refine ⟨Lookahead.codes before, _, by rw [← hbefore, Lookahead.codes_append], rfl,
      Lookahead.ext (codePoint_current _) hbehind, fun hshort => ?_⟩
    have hfits := ExactPosition.fits_behind (Nat.lt_of_le_of_lt (Nat.le_add_right _ _) hshort)
    rw [hbehind]
    exact ⟨hfits.line, hfits.column⟩
  -- Where there is no scanner nothing has been decoded.
  · have hlocates := (Decoder.ofSource source options).locates_next
    unfold ofSource at he
    split at he
    · cases he
    · next hnext =>
      rw [hnext] at hlocates
      cases hlocates with
      | fails stays =>
        injection he with he
        rw [← he]
        exact congrArg (·.1.position) stays

/-- Behind a label two dots were deferred and given back: the first of them is on the second line,
in the column behind the label. -/
theorem position_counted_given_back :
    ∃ s passed pending, ofSource (.memory "\r\n_:a.. b".toUTF8.toList) {} = .ok s ∧
      Lookahead.codes (s.after [.recognize .blank, .recognize .statement]).prospect.lookaheads =
        pending ∧
      (s.after [.recognize .blank, .recognize .statement]).current =
        ⟨pending.head?, .behind passed⟩ ∧
      (s.after [.recognize .blank, .recognize .statement]).current =
        ⟨some ('.' : CodePoint), ⟨2, 4⟩⟩ ∧
      passed.length + pending.length < 2 ^ 32 - 1 ∧
      (s.after [.recognize .blank, .recognize .statement]).current.position.line.toNat =
        1 + lineEnds passed := by
  have hcurrent : (ofSource (.memory "\r\n_:a.. b".toUTF8.toList) {}).map
      (fun s => (s.after [.recognize .blank, .recognize .statement]).current) =
        .ok ⟨some ('.' : CodePoint), ⟨2, 4⟩⟩ := by
    decide +kernel
  have hshort : (Lookahead.codes (Decoder.ofSource
      (.memory "\r\n_:a.. b".toUTF8.toList) {}).prospect.lookaheads).length < 2 ^ 32 - 1 := by
    decide +kernel
  obtain ⟨s, hs, hcurrent⟩ := ok_of_map hcurrent
  obtain ⟨passed, pending, hall, hpending, hbehind, hbounds⟩ :=
    (position_counted _ _).1 s hs [.recognize .blank, .recognize .statement]
  rw [hall, List.length_append] at hshort
  exact ⟨s, passed, pending, hs, hpending, hbehind, hcurrent, hshort, (hbounds hshort).1⟩

end Scanner

end RdfTurtle
