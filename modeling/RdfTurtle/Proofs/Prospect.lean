import RdfTurtle.Proofs.Awaiting
import RdfTurtle.Proofs.Comparison.Scanner

/-! # What a scanner has before it

Whatever a scanner holds and whatever its decoder still has to decode, all that matters of it is
which lookaheads are to come, and whether the input ends behind them or fails to decode.

* **`Prospect`** — the lookaheads to come and their ending, and **`Scanner.prospect`** that of a
  scanner.
* **`Scanner.Coming`** — the three ways on from a scanner, with **`Scanner.induction_coming`**.
* **`Scanner.leaves_recognize`** — reading a token leaves an end of what was to come, unless the
  failure at its end is met.
* **`Scanner.passes_skipPast`** — what is to come behind a code point.
* **`Comparison.ofAlikeProspects`**, **`Comparison.ofProspects`** — scanners with alike prospects
  correspond, and cannot part. -/

namespace RdfTurtle

/-- The lookaheads before the end, with the position of the end, or with the failure to decode what
is behind them. -/
structure Prospect where
  lookaheads : List Lookahead
  ending : Except LexError Position

namespace Prospect

/-- The prospect behind the first `stop`, or at the end if there is none. -/
def past (stop : CodePoint) (p : Prospect) : Prospect :=
  { p with lookaheads := (p.lookaheads.dropWhile (·.codePoint? ≠ some stop)).tail }

/-- `p` is an end of `q`. -/
structure EndOf (p q : Prospect) : Prop where
  lookaheads : p.lookaheads <:+ q.lookaheads
  ending : p.ending = q.ending

/-- The whole is an end of itself. -/
theorem EndOf.refl (p : Prospect) : p.EndOf p := ⟨List.suffix_refl _, rfl⟩

/-- An end of an end is an end of the whole. -/
theorem EndOf.trans {p q r : Prospect} (hpq : p.EndOf q) (hqr : q.EndOf r) : p.EndOf r :=
  ⟨hpq.lookaheads.trans hqr.lookaheads, hpq.ending.trans hqr.ending⟩

end Prospect

namespace Scanner

/-- What a scanner has before it. -/
def prospect (s : Scanner) : Prospect where
  lookaheads := s.drain.1
  ending :=
    match s.drain.2 with
    | .ok () s' => .ok s'.current.position
    | .error e _ => .error e

/-- The ways on from a scanner: it is at the end, it steps to the next lookahead, or the step fails
and leads to the end. -/
inductive Coming (s : Scanner) : Prop
  | ended (hend : s.atEnd) (prospect : s.prospect = ⟨[], .ok s.current.position⟩)
  | more (hend : ¬ s.atEnd) (s' : Scanner) (step : s.step = .ok () s')
    (prospect : s.prospect = ⟨s.current :: s'.prospect.lookaheads, s'.prospect.ending⟩)
  | failing (hend : ¬ s.atEnd) (e : LexError) (s' : Scanner) (step : s.step = .error e s')
    (prospect : s.prospect = ⟨[s.current], .error e⟩) (hend' : s'.atEnd)

/-- A step that fails leads to the end, where the failure is. -/
theorem current_of_step_error {s s' : Scanner} {e : LexError} (h : step s = .error e s') :
    s'.current = ⟨none, e.position⟩ := by
  obtain ⟨-, fault, decoder, -, rfl, rfl⟩ := of_step_error h
  rfl

/-- A scanner that cannot read on stands at the end. -/
theorem atEnd_of_step_error {s s' : Scanner} {e : LexError} (h : step s = .error e s') :
    s'.atEnd := by
  rw [atEnd, current_of_step_error h]
  rfl

/-- What is drained is the current code point and what a step leads to. -/
theorem drain_of_step {s s' : Scanner} (hend : ¬ s.atEnd) (h : step s = .ok () s') :
    s.drain = (s.current :: s'.drain.1, s'.drain.2) := by
  rw [drain, dif_neg hend]
  split <;> simp_all [advance]

/-- Where a step fails only the current code point is left. -/
theorem drain_of_step_error {s s' : Scanner} {e : LexError} (hend : ¬ s.atEnd)
    (h : step s = .error e s') : s.drain = ([s.current], .error e s') := by
  rw [drain, dif_neg hend]
  split <;> simp_all [advance]

/-- There is no other way on. -/
theorem coming (s : Scanner) : s.Coming := by
  by_cases hend : s.atEnd
  · refine .ended hend ?_
    rw [prospect, drain, dif_pos hend]
  · cases hs : step s with
    | ok u s' =>
      refine .more hend s' hs ?_
      rw [prospect, drain_of_step hend hs]
      rfl
    | error e s' =>
      refine .failing hend e s' hs ?_ (atEnd_of_step_error hs)
      rw [prospect, drain_of_step_error hend hs]

/-- **Induction over what is to come.** What holds at the end and where a step fails, and before a
step to where it holds, holds everywhere. -/
@[elab_as_elim]
theorem induction_coming {motive : Scanner → Prop} (s : Scanner)
    (ended : ∀ s : Scanner, s.atEnd → s.prospect = ⟨[], .ok s.current.position⟩ → motive s)
    (more : ∀ s s' : Scanner, ¬ s.atEnd → s.step = .ok () s' →
      s.prospect = ⟨s.current :: s'.prospect.lookaheads, s'.prospect.ending⟩ →
      motive s' → motive s)
    (failing : ∀ (s : Scanner) (e : LexError) (s' : Scanner), ¬ s.atEnd → s.step = .error e s' →
      s.prospect = ⟨[s.current], .error e⟩ → motive s) : motive s := by
  induction hn : s.size using Nat.strongRecOn generalizing s with
  | ind n ih =>
    subst hn
    cases s.coming with
    | ended hend hprospect => exact ended s hend hprospect
    | more hend s' hs hprospect =>
      have hlt := size_step_lt (codePoint_of_not_atEnd hend).choose_spec
      rw [hs] at hlt
      exact more s s' hend hs hprospect (ih _ hlt s' rfl)
    | failing hend e s' hs hprospect => exact failing s e s' hend hs hprospect

section Prospects

variable {s s' : Scanner} {l : Lookahead} {ls : List Lookahead} {ending : Except LexError Position}

/-- At the end nothing is to come. -/
theorem prospect_of_atEnd (h : s.atEnd) : s.prospect = ⟨[], .ok s.current.position⟩ := by
  cases s.coming with
  | ended _ hprospect => exact hprospect
  | more hend | failing hend => exact absurd h hend

/-- Before a failure the input is not at its end. -/
theorem not_atEnd_of_ending {e : LexError} (h : s.prospect.ending = .error e) : ¬ s.atEnd := by
  intro hend
  rw [prospect_of_atEnd hend] at h
  cases h

/-- What is to come is the current code point and what is to come after it. -/
theorem prospect_of_step (hend : ¬ s.atEnd) (h : step s = .ok () s') :
    s.prospect = ⟨s.current :: s'.prospect.lookaheads, s'.prospect.ending⟩ := by
  cases s.coming with
  | ended h => exact absurd h hend
  | more _ t ht hprospect =>
    rw [h] at ht
    injection ht with _ ht
    rw [ht]
    exact hprospect
  | failing _ e t ht =>
    rw [h] at ht
    cases ht

/-- Where a step fails only the current code point is to come, and then the failure. -/
theorem prospect_of_step_error {e : LexError} (hend : ¬ s.atEnd) (h : step s = .error e s') :
    s.prospect = ⟨[s.current], .error e⟩ := by
  cases s.coming with
  | ended h => exact absurd h hend
  | more _ t ht =>
    rw [h] at ht
    cases ht
  | failing _ e t ht hprospect =>
    rw [h] at ht
    injection ht with he _
    rw [he]
    exact hprospect

/-- Before the end the current lookahead is the first to come. -/
theorem lookaheads_of_not_atEnd (hend : ¬ s.atEnd) :
    ∃ ls, s.prospect.lookaheads = s.current :: ls := by
  cases s.coming with
  | ended h => exact absurd h hend
  | more _ _ _ hprospect | failing _ _ _ _ hprospect => exact ⟨_, by rw [hprospect]⟩

/-- A scanner with nothing before it is at the end. -/
theorem atEnd_of_prospect (h : s.prospect = ⟨[], ending⟩) :
    s.atEnd ∧ ending = .ok s.current.position := by
  cases s.coming with
  | ended hend hprospect =>
    rw [hprospect] at h
    injection h with _ h
    exact ⟨hend, h.symm⟩
  | more _ _ _ hprospect | failing _ _ _ _ hprospect =>
    rw [hprospect] at h
    injection h with h _
    cases h

/-- The first lookahead to come is current. -/
theorem current_of_prospect (h : s.prospect = ⟨l :: ls, ending⟩) :
    s.current = l ∧ ¬ s.atEnd := by
  cases s.coming with
  | ended _ hprospect =>
    rw [hprospect] at h
    injection h with h _
    cases h
  | more hend _ _ hprospect | failing hend _ _ _ hprospect =>
    rw [hprospect] at h
    injection h with h _
    injection h with h _
    exact ⟨h, hend⟩

/-- A step leads to the next lookahead, or to the end. -/
theorem step_of_prospect (h : s.prospect = ⟨l :: ls, ending⟩)
    (hmore : ls = [] → ∃ position, ending = .ok position) :
    ∃ s', step s = .ok () s' ∧ s'.prospect = ⟨ls, ending⟩ := by
  cases s.coming with
  | ended _ hprospect =>
    rw [hprospect] at h
    injection h with h _
    cases h
  | more _ s' hs hprospect =>
    rw [hprospect] at h
    injection h with h hending
    injection h with _ h
    exact ⟨s', hs, by rw [← h, ← hending]⟩
  | failing _ _ _ _ hprospect =>
    rw [hprospect] at h
    injection h with h hending
    injection h with _ h
    obtain ⟨position, hposition⟩ := hmore h.symm
    rw [hposition] at hending
    cases hending

end Prospects

/-- What is to come depends on neither the text nor the start of the token. -/
theorem prospect_retext (s : Scanner) (text : Text) (start : Position) :
    ({ s with text, start } : Scanner).prospect = s.prospect := by
  have hstep (s : Scanner) : step { s with text, start } =
      match step s with
      | .ok () s' => .ok () { s' with text, start }
      | .error e s' => .error e { s' with text, start } := by
    unfold step
    dsimp only
    split
    · rfl
    · split <;> rfl
  induction s using induction_coming with
  | ended s hend hprospect =>
    rw [hprospect]
    exact prospect_of_atEnd (s := { s with text, start }) hend
  | more s s' hend hs hprospect ih =>
    have hs' := hstep s
    rw [hs] at hs'
    rw [hprospect, prospect_of_step (s := { s with text, start }) hend hs', ih]
  | failing s e s' hend hs hprospect =>
    have hs' := hstep s
    rw [hs] at hs'
    rw [hprospect]
    exact prospect_of_step_error (s := { s with text, start }) hend hs'

/-- Keeping lookaheads in the text does not change what is to come. -/
@[simp] theorem prospect_keep (s : Scanner) (ls : List Lookahead) :
    (s.keep ls).prospect = s.prospect := prospect_retext s _ _

/-- Nor does clearing the text. -/
@[simp] theorem prospect_clear (s : Scanner) : s.clear.prospect = s.prospect :=
  prospect_retext s _ _

/-- What is given back comes first. -/
theorem prospect_giveBack (s : Scanner) {ls : List Lookahead} (hls : ∀ l ∈ ls, IsDot l) :
    (s.giveBack ls).prospect = ⟨ls ++ s.prospect.lookaheads, s.prospect.ending⟩ := by
  -- Stepping through what was given back takes it off the front, and ends at the scanner before.
  induction ls with
  | nil => rfl
  | cons l ls ih =>
    have hdot : IsDot l := hls l List.mem_cons_self
    have hend : ¬ (s.giveBack (l :: ls)).atEnd := by
      rw [giveBack, atEnd, hdot]
      exact Bool.false_ne_true
    rw [prospect_of_step hend (step_giveBack s l ls), ih fun l' hl' => hls l' (.tail l hl')]
    rfl

/-- Where a failure is ahead the end has not been seen. -/
theorem not_metEnd_of_ending {s : Scanner} {e : LexError} (h : s.prospect.ending = .error e) :
    s.metEnd = false := by
  -- What is put back comes first: were the end among it, no failure would be ahead.
  induction hn : s.putBack generalizing s with
  | nil =>
    cases s.coming with
    | ended _ hprospect =>
      rw [hprospect] at h
      cases h
    | more hend | failing hend => exact metEnd_of_putBack hn hend
  | cons first held ih =>
    have hs := step_of_putBack hn
    cases s.coming with
    | ended _ hprospect =>
      rw [hprospect] at h
      cases h
    | more hend s' hs' hprospect =>
      rw [hs] at hs'
      injection hs' with _ hs'
      rw [hprospect] at h
      have hheld : s'.metEnd = false := ih h (by rw [← hs'])
      rw [← hs'] at hheld
      rw [metEnd, queue, hn, List.any_cons, Bool.or_eq_false_iff]
      exact ⟨Bool.not_eq_true _ ▸ hend, hheld⟩
    | failing _ _ _ hs' =>
      rw [hs] at hs'
      cases hs'

/-- Only dots are to come to a spent scanner. -/
theorem Spent.isDot_of_mem_prospect {s : Scanner} (h : s.Spent) {l : Lookahead}
    (hl : l ∈ s.prospect.lookaheads) : IsDot l := by
  induction s using induction_coming with
  | ended s _ hprospect =>
    rw [hprospect] at hl
    cases hl
  | more s s' hend hs hprospect ih =>
    have hspent := h.step hend
    rw [hs] at hspent
    rw [hprospect] at hl
    rcases List.mem_cons.1 hl with rfl | hl
    · exact h.isDot hend
    · exact ih hspent hl
  | failing s _ _ hend _ hprospect =>
    rw [hprospect] at hl
    exact List.mem_singleton.1 hl ▸ h.isDot hend

/-- A scanner that awaits code points has them before it, and then the end. -/
theorem Awaits.prospect {s : Scanner} {cs : List CodePoint} (h : s.Awaits cs) :
    s.prospect.lookaheads.map Lookahead.codePoint? = cs.map some ∧
      ∃ position, s.prospect.ending = .ok position := by
  induction cs generalizing s with
  | nil =>
    have hend : s.atEnd := by
      rw [h.atEnd]
      rfl
    rw [prospect_of_atEnd hend]
    exact ⟨rfl, _, rfl⟩
  | cons c cs ih =>
    have hend : ¬ s.atEnd := by
      rw [h.atEnd]
      exact Bool.false_ne_true
    obtain ⟨hc, s', hs, hs'⟩ := h
    obtain ⟨hlookaheads, hending⟩ := ih hs'
    rw [prospect_of_step hend hs]
    exact ⟨by rw [List.map_cons, hc, hlookaheads]; rfl, hending⟩

/-! ## What is left -/

/-- An outcome of a scanner that had `before` to come. What it leaves is an end of that, unless the
failure behind it is met. A rejection before a failure is one of a code point. -/
inductive Leaves {α : Type} (before : Prospect) : EStateM.Result LexError Scanner α → Prop
  | accepted {a : α} {s' : Scanner} (rest : s'.prospect.EndOf before) : Leaves before (.ok a s')
  | rejected {e : LexError} {s' : Scanner} (rest : s'.prospect.EndOf before)
    (fault : ∀ failure, before.ending = .error failure → ∃ c, e.fault = .unexpectedCharacter c) :
    Leaves before (.error e s')
  | failed {e : LexError} {s' : Scanner} (ending : before.ending = .error e) (hend : s'.atEnd) :
    Leaves before (.error e s')

/-- What is left of an end is left of the whole. -/
theorem Leaves.mono {α : Type} {before before' : Prospect}
    {r : EStateM.Result LexError Scanner α} (h : Leaves before r) (hb : before.EndOf before') :
    Leaves before' r := by
  cases h with
  | accepted rest => exact .accepted (rest.trans hb)
  | rejected rest fault => exact .rejected (rest.trans hb) (hb.ending ▸ fault)
  | failed ending hend => exact .failed (hb.ending ▸ ending) hend

/-- An error at a lookahead before a failure is one of a code point. -/
theorem fault_of_unexpected {s : Scanner} {failure : LexError}
    (h : s.prospect.ending = .error failure) :
    ∃ c, s.unexpected.fault = .unexpectedCharacter c := by
  obtain ⟨c, hc⟩ := codePoint_of_not_atEnd (not_atEnd_of_ending h)
  exact ⟨c, by rw [unexpected, hc]⟩

/-- One step further, less is to come. -/
theorem endOf_of_step {s s' : Scanner} (hend : ¬ s.atEnd) (h : step s = .ok () s') :
    s'.prospect.EndOf s.prospect := by
  rw [prospect_of_step hend h]
  exact ⟨List.suffix_cons _ _, rfl⟩

/-- Taking a code point leaves an end of what was to come. -/
theorem endOf_of_take {s s' : Scanner} {deferred : List Lookahead} (hend : ¬ s.atEnd)
    (h : take deferred s = .ok () s') : s'.prospect.EndOf s.prospect := by
  have hstep := endOf_of_step (s := s.keep (deferred ++ [s.current])) hend h
  rwa [prospect_keep] at hstep

/-- A step fails as the input does at its end. -/
theorem ending_of_step_error {s s' : Scanner} {e : LexError} (hend : ¬ s.atEnd)
    (h : step s = .error e s') : s.prospect.ending = .error e := by
  rw [prospect_of_step_error hend h]

/-- So does taking a code point. -/
theorem ending_of_take_error {s s' : Scanner} {deferred : List Lookahead} {e : LexError}
    (hend : ¬ s.atEnd) (h : take deferred s = .error e s') : s.prospect.ending = .error e := by
  have hstep := ending_of_step_error (s := s.keep (deferred ++ [s.current])) hend h
  rwa [prospect_keep] at hstep

/-- A run leaves an end of what was deferred and what was to come. Nothing is deferred among
blanks, so that what is skipped does not stand behind what is given back. -/
theorem leaves_run (st : State) (deferred : List Lookahead) (s : Scanner)
    (hdots : ∀ l ∈ deferred, IsDot l) (hst : deferred ≠ [] → st.family ≠ some .blank) :
    Leaves ⟨deferred ++ s.prospect.lookaheads, s.prospect.ending⟩ (run st deferred s) := by
  have hbehind (s : Scanner) (deferred : List Lookahead) :
      s.prospect.EndOf ⟨deferred ++ s.prospect.lookaheads, s.prospect.ending⟩ :=
    ⟨List.suffix_append _ _, rfl⟩
  fun_induction run st deferred s with
  | case1 st deferred s hm =>
    -- The token ends, and what was deferred comes again.
    have hgiven := prospect_giveBack s hdots
    unfold conclude
    split
    · exact .accepted (hgiven ▸ .refl _)
    · exact .rejected (hgiven ▸ .refl _) fun _ => fault_of_unexpected
  | case2 st deferred s p hm s' hs =>
    exact .accepted ((endOf_of_take (not_atEnd_of_move hm) hs).trans (hbehind s deferred))
  | case4 st deferred s st' hm s' hs ih =>
    -- What is taken does not come again.
    have hrest := (endOf_of_take (not_atEnd_of_move hm) hs).trans (hbehind s deferred)
    exact (ih (List.forall_mem_nil _) (absurd rfl)).mono hrest
  | case6 st deferred s st' hm s' hs ih =>
    obtain ⟨c, hc, hnext⟩ := codePoint_of_move hm
    have hblank : st.family = some .blank := by
      cases State.shifts_of_next _ _ _ _ hnext with
      | skip _ hblank => exact hblank
    have hnone : deferred = [] := by
      by_contra hne
      exact hst hne hblank
    subst hnone
    exact (ih (List.forall_mem_nil _) (absurd rfl)).mono
      (endOf_of_step (not_atEnd_of_move hm) hs)
  | case8 st deferred s st' hm s' hs ih =>
    obtain ⟨c, hc, hnext⟩ := codePoint_of_move hm
    have hst' : st'.family ≠ some .blank := by
      cases State.shifts_of_next _ _ _ _ hnext with
      | defer _ hst' => exact hst'
    refine (ih (isDot_of_defer hdots hm) fun _ => hst').mono ?_
    rw [prospect_of_step (not_atEnd_of_move hm) hs, List.append_assoc]
    exact .refl _
  | case3 st deferred s p hm e s' hs | case5 st deferred s st' hm e s' hs =>
    have hend := not_atEnd_of_move hm
    exact .failed (ending_of_take_error hend hs) (atEnd_of_step_error hs)
  | case7 st deferred s st' hm e s' hs | case9 st deferred s st' hm e s' hs =>
    exact .failed (ending_of_step_error (not_atEnd_of_move hm) hs) (atEnd_of_step_error hs)

/-- **Reading a token leaves an end of what was to come.** -/
theorem leaves_recognize (r : Recognizer) (s : Scanner) : Leaves s.prospect (recognize r s) := by
  have hrun := leaves_run (.start r) [] s.clear (List.forall_mem_nil _) (absurd rfl)
  rwa [prospect_clear] at hrun

/-- A token that is accepted leaves an end of what was to come. -/
theorem endOf_of_recognize {r : Recognizer} {s s' : Scanner} {l : Lexeme}
    (h : recognize r s = .ok l s') : s'.prospect.EndOf s.prospect := by
  have hleaves := leaves_recognize r s
  rw [h] at hleaves
  cases hleaves with
  | accepted rest => exact rest

/-- Passing over blanks fails only where the input fails. -/
theorem atEnd_of_blank_error {s s' : Scanner} {e : LexError}
    (h : recognize .blank s = .error e s') : s'.atEnd := by
  obtain ⟨t, hstep, -⟩ := step_of_run_blank_error (Or.inl rfl) h
  exact atEnd_of_step_error hstep

/-- What moving past a code point comes to: the scanner has `behind` to come, unless that is a
failure to decode, which is met on the way. -/
inductive Passes (behind : Prospect) : EStateM.Result LexError Scanner Unit → Prop
  | passed {s' : Scanner} (rest : s'.prospect = behind) : Passes behind (.ok () s')
  | failed {e : LexError} {s' : Scanner} (rest : behind = ⟨[], .error e⟩) (hend : s'.atEnd) :
    Passes behind (.error e s')

/-- **Moving past a code point leaves what was to come behind it.** -/
theorem passes_skipPast (stop : CodePoint) (s : Scanner) :
    Passes (s.prospect.past stop) (skipPast stop s) := by
  have hadvance {s : Scanner} (hend : ¬ s.atEnd) : advance s = step s := by
    rw [advance, if_neg hend]
  fun_induction skipPast stop s with
  | case1 s hend =>
    refine .passed ?_
    rw [prospect_of_atEnd hend]
    rfl
  | case2 s hend e s' ha =>
    rw [hadvance hend] at ha
    refine .failed ?_ (atEnd_of_step_error ha)
    rw [prospect_of_step_error hend ha]
    simp only [Prospect.past, List.dropWhile_cons, List.dropWhile_nil]
    split <;> rfl
  | case3 s hend s' ha hstop =>
    rw [hadvance hend] at ha
    refine .passed ?_
    rw [prospect_of_step hend ha]
    simp [Prospect.past, hstop]
  | case4 s hend s' ha hstop ih =>
    rw [hadvance hend] at ha
    have hpast : s.prospect.past stop = s'.prospect.past stop := by
      rw [prospect_of_step hend ha]
      simp [Prospect.past, hstop]
    rw [hpast]
    exact ih

/-- Where the input does not fail a scanner comes behind the code point, or to the end. -/
theorem skipPast_of_closed (stop : CodePoint) {s : Scanner}
    (h : ∃ position, s.prospect.ending = .ok position) :
    ∃ s', skipPast stop s = .ok () s' ∧ s'.prospect = s.prospect.past stop := by
  have hpasses := passes_skipPast stop s
  cases hs : skipPast stop s with
  | ok u s' =>
    rw [hs] at hpasses
    cases hpasses with
    | passed rest => exact ⟨s', rfl, rest⟩
  | error e s' =>
    rw [hs] at hpasses
    cases hpasses with
    | failed rest =>
      obtain ⟨position, hposition⟩ := h
      have hending : (s.prospect.past stop).ending = .error e := by rw [rest]
      cases hposition.symm.trans hending

end Scanner

/-! ## Comparing prospects -/

/-- Alike prospects. -/
structure Prospect.Alike (k : Likeness) (p p' : Prospect) : Prop where
  lookaheads : List.Forall₂ k.Lookaheads p.lookaheads p'.lookaheads
  ending : Matching k.LexErrors k.Positions p.ending p'.ending

/-- Alike prospects are alike behind a code point. -/
theorem Prospect.Alike.past {k : Likeness} {p p' : Prospect} (h : p.Alike k p')
    (stop : CodePoint) : (p.past stop).Alike k (p'.past stop) where
  lookaheads := by
    obtain ⟨lookaheads, ending⟩ := p
    obtain ⟨lookaheads', ending'⟩ := p'
    have hlookaheads : List.Forall₂ k.Lookaheads lookaheads lookaheads' := h.lookaheads
    unfold Prospect.past
    dsimp only
    induction hlookaheads with
    | nil => exact .nil
    | @cons l l' rest rest' hl hrest ih =>
      rw [List.dropWhile_cons, List.dropWhile_cons, hl.codePoint]
      split
      · exact ih ⟨hrest, h.ending⟩
      · exact hrest
  ending := h.ending

namespace Likeness

variable {k : Likeness} {s s' : Scanner}

/-- Scanners with alike prospects are both at the end or both before it. -/
theorem atEnd_of_prospects (h : s.prospect.Alike k s'.prospect) : s.atEnd ↔ s'.atEnd := by
  have hlookaheads := h.lookaheads
  constructor
  · intro hend
    rw [Scanner.prospect_of_atEnd hend] at hlookaheads
    cases hp : s'.prospect with
    | mk ls ending =>
      rw [hp] at hlookaheads
      cases hlookaheads
      exact (Scanner.atEnd_of_prospect hp).1
  · intro hend
    rw [Scanner.prospect_of_atEnd hend] at hlookaheads
    cases hp : s.prospect with
    | mk ls ending =>
      rw [hp] at hlookaheads
      cases hlookaheads
      exact (Scanner.atEnd_of_prospect hp).1

/-- Scanners with alike prospects stand before alike lookaheads. -/
theorem lookaheads_current (h : s.prospect.Alike k s'.prospect) :
    k.Lookaheads s.current s'.current := by
  by_cases hend : s.atEnd
  · have hend' := (atEnd_of_prospects h).1 hend
    have hending := h.ending
    rw [Scanner.prospect_of_atEnd hend, Scanner.prospect_of_atEnd hend'] at hending
    have hcode := Option.isNone_iff_eq_none.1 hend
    cases hending with
    | ok hposition =>
      exact ⟨hcode.trans (Option.isNone_iff_eq_none.1 hend').symm, hposition, by simp [hcode]⟩
  · have hend' := mt (atEnd_of_prospects h).2 hend
    have hlookaheads := h.lookaheads
    obtain ⟨ls, hls⟩ := Scanner.lookaheads_of_not_atEnd hend
    obtain ⟨ls', hls'⟩ := Scanner.lookaheads_of_not_atEnd hend'
    rw [hls, hls'] at hlookaheads
    exact (List.forall₂_cons.1 hlookaheads).1

/-- Scanners with alike prospects take alike steps. -/
theorem alike_step_of_prospects (hend : ¬ s.atEnd) (h : s.prospect.Alike k s'.prospect) :
    Alike k.LexErrors (fun s s' => s.prospect.Alike k s'.prospect) Eq s.step s'.step := by
  have hend' := mt (atEnd_of_prospects h).2 hend
  obtain ⟨hlookaheads, hending⟩ := h
  -- Before the end one has a step to take where the other has: a failure is only met where nothing
  -- more is to come.
  cases s.coming with
  | ended h => exact absurd h hend
  | more _ t ht hprospect =>
    rw [hprospect] at hlookaheads hending
    cases s'.coming with
    | ended h => exact absurd h hend'
    | more _ t' ht' hprospect' =>
      rw [hprospect'] at hlookaheads hending
      rw [ht, ht']
      exact .ok rfl ⟨(List.forall₂_cons.1 hlookaheads).2, hending⟩
    | failing _ e' t' ht' hprospect' =>
      rw [hprospect'] at hlookaheads hending
      have hnil := List.forall₂_nil_right_iff.1 (List.forall₂_cons.1 hlookaheads).2
      have hmet := (Scanner.atEnd_of_prospect (s := t) (by rw [← hnil])).2
      rw [hmet] at hending
      cases hending
  | failing _ e t ht hprospect =>
    rw [hprospect] at hlookaheads hending
    cases s'.coming with
    | ended h => exact absurd h hend'
    | more _ t' ht' hprospect' =>
      rw [hprospect'] at hlookaheads hending
      have hnil := List.forall₂_nil_left_iff.1 (List.forall₂_cons.1 hlookaheads).2
      have hmet := (Scanner.atEnd_of_prospect (s := t') (by rw [← hnil])).2
      rw [hmet] at hending
      cases hending
    | failing _ e' t' ht' hprospect' =>
      rw [hprospect'] at hending
      rw [ht, ht']
      cases hending with
      | error he =>
        refine .error he ?_
        have hprospect {s t : Scanner} {e : LexError} (h : s.step = .error e t) :
            t.prospect = ⟨[], .ok e.position⟩ := by
          rw [Scanner.prospect_of_atEnd (Scanner.atEnd_of_step_error h),
            Scanner.current_of_step_error h]
        rw [hprospect ht, hprospect ht']
        exact ⟨.nil, .ok he.position⟩

/-- So they cannot part. -/
theorem alikeUnless_step_of_prospects (h : s.prospect.Alike k s'.prospect) (hend : ¬ s.atEnd) :
    AlikeUnless ⟨Scanner.Spent, fun _ => False, Parting.never⟩ k.LexErrors
      (fun s s' => s.prospect.Alike k s'.prospect) Eq s.step s'.step :=
  Or.inl (alike_step_of_prospects hend h)

/-- What is alike to dots are dots. -/
theorem isDot_of_alike {ls ls' : List Lookahead} (h : List.Forall₂ k.Lookaheads ls ls')
    (hdots : ∀ l ∈ ls, Scanner.IsDot l) : ∀ l ∈ ls', Scanner.IsDot l := by
  induction h with
  | nil => exact hdots
  | cons hl _ ih =>
    obtain ⟨hdot, hdots⟩ := List.forall_mem_cons.1 hdots
    exact List.forall_mem_cons.2 ⟨hl.codePoint.symm.trans hdot, ih hdots⟩

end Likeness

/-- **Scanners with alike prospects correspond, and cannot part**, whatever they hold and whatever
is still to be decoded, if alike texts stay alike and have the same characters. -/
def Comparison.ofAlikeProspects (k : Likeness) (Recoveries : Bool → Bool → Prop)
    (total : ∀ p, ∃ p', k.Positions p p')
    (push : ∀ ⦃t t' c⦄, k.Texts t t' → k.Admits c → k.Texts (t.push c) (t'.push c))
    (chars : ∀ ⦃t t'⦄, k.Texts t t' → t.chars = t'.chars) : Comparison where
  toLikeness := k
  Inputs s s' := s.prospect.Alike k s'.prospect
  Parts := fun _ => False
  Recoveries := Recoveries
  total := total
  push := push
  chars := chars
  onward := Parting.never
  current _ _ := Likeness.lookaheads_current
  retext s s' h text start text' start' := by
    rwa [Scanner.prospect_retext s, Scanner.prospect_retext s']
  giveBack s s' ls ls' h hls hdots := by
    rw [Scanner.prospect_giveBack s hdots,
      Scanner.prospect_giveBack s' (Likeness.isDot_of_alike hls hdots)]
    exact ⟨List.rel_append hls h.lookaheads, h.ending⟩
  step _ _ := Likeness.alikeUnless_step_of_prospects

/-- Scanners with alike prospects and the same texts. -/
def Comparison.ofProspects (k : Likeness) (Recoveries : Bool → Bool → Prop)
    (total : ∀ p, ∃ p', k.Positions p p') (texts : k.Texts = Eq) : Comparison :=
  .ofAlikeProspects k Recoveries total
    (fun t t' c h _ => by
      rw [texts] at h ⊢
      rw [h])
    (fun t t' h => by
      rw [texts] at h
      rw [h])

end RdfTurtle
