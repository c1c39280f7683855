import RdfTurtle.Proofs.Comparison.Leading
import RdfTurtle.Proofs.Prospect

/-! # Comparing prospects of which one is longer

Two scanners have the same before them, and the second has more behind that, which is known.

* **`Scanner.Extended`** — the one scanner has more to come than the other.
* **`Comparison.extending`** — such scanners correspond, and part at the end of the first.
* **`Scanner.exists_extended`** — from a longer input more is to come. -/

namespace RdfTurtle

namespace Scanner

variable {s s' : Scanner} {more : List Lookahead} {ending : Except LexError Position}

/-- The first scanner has not seen the end, which it comes to without a failure. The second has the
same before it, then `more`, and then `ending`. -/
structure Extended (more : List Lookahead) (ending : Except LexError Position) (s s' : Scanner) :
    Prop where
  metEnd : s.metEnd = false
  closed : ∃ position, s.prospect.ending = .ok position
  prospect : s'.prospect = ⟨s.prospect.lookaheads ++ more, ending⟩

/-- A scanner that has not seen the end steps on to where it has not, or to the end. -/
theorem step_of_metEnd (hmet : s.metEnd = false)
    (hclosed : ∃ position, s.prospect.ending = .ok position) :
    ∃ t, s.step = .ok () t ∧
      s.prospect = ⟨s.current :: t.prospect.lookaheads, t.prospect.ending⟩ ∧
      (t.metEnd = false ∨ t.atEnd ∧ t.Spent) := by
  obtain ⟨position, hposition⟩ := hclosed
  cases s.coming with
  | ended hend => exact absurd hend (not_atEnd_of_metEnd hmet)
  | more _ t hs hprospect => exact ⟨t, hs, hprospect, metEnd_of_step hmet hs⟩
  | failing _ _ _ _ hprospect =>
    rw [hprospect] at hposition
    cases hposition

/-- A scanner that gets dots back has seen the end only if it had before. -/
theorem metEnd_giveBack {ls : List Lookahead} (h : s.metEnd = false) (hls : ∀ l ∈ ls, IsDot l) :
    (s.giveBack ls).metEnd = false := by
  rw [metEnd, queue_giveBack, List.any_append, Bool.or_eq_false_iff]
  refine ⟨List.any_eq_false.2 fun l hl => ?_, h⟩
  rw [hls l hl]
  exact Bool.false_ne_true

/-- Both scanners stand before the same. -/
theorem Extended.current (h : Extended more ending s s') : s'.current = s.current := by
  obtain ⟨t, -, hprospect, -⟩ := step_of_metEnd h.metEnd h.closed
  have hprospect' := h.prospect
  rw [hprospect, List.cons_append] at hprospect'
  exact (current_of_prospect hprospect').1

/-- More is to come of the second when both get the same dots back. -/
theorem Extended.giveBack {ls : List Lookahead} (h : Extended more ending s s')
    (hls : ∀ l ∈ ls, IsDot l) : Extended more ending (s.giveBack ls) (s'.giveBack ls) where
  metEnd := metEnd_giveBack h.metEnd hls
  closed := by
    rw [prospect_giveBack s hls]
    exact h.closed
  prospect := by
    rw [prospect_giveBack s hls, prospect_giveBack s' hls, h.prospect, List.append_assoc]

/-- Both step on, unless the first comes to the end. -/
theorem Extended.step (h : Extended more ending s s') :
    (∃ t t', s.step = .ok () t ∧ s'.step = .ok () t' ∧ Extended more ending t t') ∨
      (finalState s.step).Spent := by
  obtain ⟨t, hs, hprospect, hmet | ⟨-, hspent⟩⟩ := step_of_metEnd h.metEnd h.closed
  · have hprospect' := h.prospect
    rw [hprospect, List.cons_append] at hprospect'
    obtain ⟨ls, hls⟩ := lookaheads_of_not_atEnd (not_atEnd_of_metEnd hmet)
    obtain ⟨t', hs', ht'⟩ := step_of_prospect hprospect' fun hnil => by
      rw [hls] at hnil
      cases hnil
    have hclosed := h.closed
    rw [hprospect] at hclosed
    exact Or.inl ⟨t, t', hs, hs', hmet, hclosed, ht'⟩
  · rw [hs]
    exact Or.inr hspent

end Scanner

/-- **Scanners of which the second has more to come correspond, and part at the end of the first.**
-/
def Comparison.extending (more : List Lookahead) (ending : Except LexError Position) :
    Comparison where
  toLikeness := Likeness.sameBytes
  Inputs := Scanner.Extended more ending
  Parts := fun _ => True
  Recoveries := Eq
  total := Likeness.lawful_sameBytes.total
  push _ _ c h _ := congrArg (Text.push · c) h
  chars _ _ h := congrArg Text.chars h
  onward _ _ := trivial
  current _ _ h := by
    rw [h.current]
    exact ⟨rfl, rfl, fun _ _ => trivial⟩
  retext s s' h text start text' start' := {
    metEnd := h.metEnd
    closed := by
      rw [Scanner.prospect_retext s]
      exact h.closed
    prospect := by
      rw [Scanner.prospect_retext s, Scanner.prospect_retext s']
      exact h.prospect }
  giveBack s s' ls ls' h hls hdots := by
    obtain rfl : ls = ls' :=
      List.forall₂_eq_eq_eq ▸ hls.imp fun _ _ => Likeness.eq_of_lookaheads
    exact h.giveBack hdots
  step s s' h _ := by
    rcases h.step with ⟨t, t', hs, hs', ht⟩ | hspent
    · rw [hs, hs']
      exact Or.inl (.ok rfl ht)
    · exact Or.inr ⟨hspent, trivial⟩

namespace Scanner

/-- **From a longer input more is to come.** The induction is on the input of the first scanner. -/
theorem exists_extended {rest : List UInt8} {s s' : Scanner}
    (h : (Likeness.leads rest .closed).Inputs s s') (hmet : s.metEnd = false)
    (hclosed : ∃ position, s.prospect.ending = .ok position) :
    ∃ more, Extended more s'.prospect.ending s s' := by
  suffices hmore : ∃ more, s'.prospect.lookaheads = s.prospect.lookaheads ++ more by
    obtain ⟨more, hmore⟩ := hmore
    exact ⟨more, hmet, hclosed, by rw [← hmore]⟩
  induction hn : s.size using Nat.strongRecOn generalizing s s' with
  | ind n ih =>
    subst hn
    have hend := not_atEnd_of_metEnd hmet
    have hcurrent : s'.current = s.current :=
      (Lookahead.ext h.current.codePoint h.current.position).symm
    have hend' : ¬ s'.atEnd := by
      rw [atEnd, hcurrent]
      exact hend
    obtain ⟨t, hs, hprospect, hmet' | ⟨hatEnd, -⟩⟩ := step_of_metEnd hmet hclosed
    · have hstep := (Comparison.leading rest .closed).step h hend
      rw [hs] at hstep
      rcases hstep with halike | ⟨hspent, -⟩
      · obtain ⟨_, t', hs', -, ht⟩ := halike.of_ok
        have hlt := size_step_lt (codePoint_of_not_atEnd hend).choose_spec
        rw [hs] at hlt
        rw [hprospect] at hclosed
        obtain ⟨more, hmore⟩ := ih _ hlt ht hmet' hclosed rfl
        exact ⟨more, by rw [hprospect, prospect_of_step hend' hs', hmore, hcurrent]; rfl⟩
      · have hspent : t.Spent := hspent
        rw [metEnd_of_spent hspent] at hmet'
        cases hmet'
    -- The current lookahead is the last of the first scanner.
    · obtain ⟨ls, hls⟩ := lookaheads_of_not_atEnd hend'
      exact ⟨ls, by rw [hls, hprospect, prospect_of_atEnd hatEnd, hcurrent]; rfl⟩

end Scanner

end RdfTurtle
