import RdfTurtle.Proofs.Failures
import RdfTurtle.Scanner.Operation

/-! # The end of input

At the end of input, with nothing held, there is nothing that an operation could bring back. The end
is where the input ended or where it could not be decoded; operations that fail there stay there.

* **`Scanner.Exhausted`** — being at the end with nothing held, and **`Scanner.Operation.ended`**
  what an operation does there.
* **`Scanner.exhausted_of_perform_error`** — an operation that cannot decode on leads there.
* **`Retaining`** — a scanner that keeps deferred lookaheads from one operation to the next. A
  failure leaves some behind.
* **`Retaining.observe_eq`** — they are never seen again.
* **`Scanner.end_absorbs`** — the end of input is absorbing. -/

namespace RdfTurtle

namespace Scanner

/-- The scanner is at the end, which is at the given position, and holds nothing. -/
structure Exhausted (position : Position) (s : Scanner) : Prop where
  current : s.current = ⟨none, position⟩
  putBack : s.putBack = []

section Exhausted

variable {s : Scanner} {position : Position}

/-- An exhausted scanner is at the end. -/
theorem Exhausted.atEnd (h : s.Exhausted position) : s.atEnd := by
  rw [Scanner.atEnd, h.current]
  rfl

/-- It stays exhausted when the text of a token is cleared. -/
theorem Exhausted.clear (h : s.Exhausted position) : s.clear.Exhausted position :=
  ⟨h.current, h.putBack⟩

/-- The automaton does not move. -/
theorem Exhausted.move (h : s.Exhausted position) (st : State) : s.move? st = none := by
  rw [move?, h.current]
  rfl

end Exhausted

namespace Operation

/-- What an operation does at the end of input. A token is accepted if it may be empty. -/
def ended (position : Position) : Operation → EStateM LexError Scanner (Option Lexeme)
  | .clear => fun s => .ok none s.clear
  | .advance | .accumulate => fun s => .error ⟨.prematureEnd, position⟩ s
  | .recognize .localName => fun s =>
    .ok (some ⟨.localName, .empty s.options.encoding, position⟩) s.clear
  | .recognize .blank => fun s => .ok (some ⟨.blank, .empty s.options.encoding, position⟩) s.clear
  | .recognize _ => fun s => .error ⟨.prematureEnd, position⟩ s.clear

end Operation

section Exhausted

variable {s : Scanner} {position : Position}

/-- Without a move a token is empty. -/
theorem Exhausted.recognize (h : s.Exhausted position) (r : Recognizer) :
    Scanner.recognize r s =
      match (State.start r).accepting with
      | some p => .ok ⟨p, .empty s.options.encoding, position⟩ s.clear
      | none => .error ⟨.prematureEnd, position⟩ s.clear := by
  rw [Scanner.recognize, run_of_none (h.clear.move _), conclude, unexpected, h.clear.current]
  have hposition : s.clear.start = position := by rw [Scanner.clear, h.current]
  cases (State.start r).accepting with
  | none => rfl
  | some p =>
    rw [← hposition]
    rfl

/-- **At the end of input every operation does the same, whatever the decoder could still do.** -/
theorem Exhausted.perform (h : s.Exhausted position) (operation : Operation) :
    operation.perform s = operation.ended position s := by
  cases operation with
  | recognize r =>
    have hrecognize := h.recognize r
    cases r <;> simp only [State.accepting] at hrecognize <;>
      simp only [Operation.perform, bind, EStateM.bind, hrecognize] <;> rfl
  | advance =>
    simp only [Operation.perform, Scanner.advance, bind, EStateM.bind, if_pos h.atEnd, h.current]
    rfl
  | accumulate =>
    simp only [Operation.perform, Scanner.accumulate, bind, EStateM.bind, if_pos h.atEnd, h.current]
    rfl
  | clear => rfl

/-- What is done at the end changes at most the token. -/
theorem Exhausted.ended (h : s.Exhausted position) (operation : Operation) :
    (finalState (operation.ended position s)).Exhausted position ∧
      (finalState (operation.ended position s)).decoder = s.decoder := by
  cases operation with
  | recognize r => cases r <;> exact ⟨h.clear, rfl⟩
  | advance => exact ⟨h, rfl⟩
  | accumulate => exact ⟨h, rfl⟩
  | clear => exact ⟨h.clear, rfl⟩

end Exhausted

/-- The scanner after some operations, also after errors. -/
def after (s : Scanner) (operations : List Operation) : Scanner :=
  operations.foldl (fun s operation => finalState (operation.perform s)) s

/-- **Operations stay at the end of input**, and do not decode. -/
theorem Exhausted.after {s : Scanner} {position : Position} (h : s.Exhausted position)
    (operations : List Operation) :
    (s.after operations).Exhausted position ∧ (s.after operations).decoder = s.decoder := by
  induction operations generalizing s with
  | nil => exact ⟨h, rfl⟩
  | cons operation operations ih =>
    obtain ⟨hend, hdecoder⟩ := h.ended operation
    rw [← h.perform] at hend hdecoder
    obtain ⟨hends, hdecoders⟩ := ih hend
    exact ⟨hends, hdecoders.trans hdecoder⟩

/-! ## Where the input cannot be decoded -/

section Failures

variable {s s' : Scanner} {e : LexError}

/-- A step fails only with nothing held, and leads to the end. -/
theorem exhausted_of_step_error (h : step s = .error e s') : s'.Exhausted e.position := by
  obtain ⟨hp, fault, decoder, -, rfl, rfl⟩ := of_step_error h
  exact ⟨rfl, hp⟩

/-- What an operation fails for: it cannot decode what is next, and leads to the end, or it is told
what is next. -/
def Halts (s : Scanner) (e : LexError) (s' : Scanner) : Prop :=
  s.prospect.ending = .error e ∧ s'.Exhausted e.position ∨
    ∃ t : Scanner, t.prospect.ending = s.prospect.ending ∧ e = t.unexpected

/-- Further on the input ends in the same way. -/
theorem Halts.of_ending {t : Scanner} (h : Halts t e s')
    (hending : t.prospect.ending = s.prospect.ending) : Halts s e s' := by
  rcases h with ⟨herror, hend⟩ | ⟨u, hu, he⟩
  · exact Or.inl ⟨hending ▸ herror, hend⟩
  · exact Or.inr ⟨u, hu.trans hending, he⟩

/-- A step fails because it cannot decode what is next. -/
theorem halts_of_step (hend : ¬ s.atEnd) (h : step s = .error e s') : Halts s e s' :=
  Or.inl ⟨ending_of_step_error hend h, exhausted_of_step_error h⟩

/-- So does taking a code point. -/
theorem halts_of_take {deferred : List Lookahead} (hend : ¬ s.atEnd)
    (h : take deferred s = .error e s') : Halts s e s' :=
  Or.inl ⟨ending_of_take_error hend h, exhausted_of_step_error h⟩

/-- A run fails in one of the two ways. -/
theorem halts_of_run {st : State} {deferred : List Lookahead}
    (h : run st deferred s = .error e s') : Halts s e s' := by
  fun_induction run st deferred s with
  | case1 st deferred s hm =>
    -- The token is rejected for what is next.
    unfold conclude at h
    split at h
    · cases h
    · injection h with h _
      exact Or.inr ⟨s, rfl, h.symm⟩
  | case2 => cases h
  | case3 _ _ _ _ hm _ _ hs | case5 _ _ _ _ hm _ _ hs =>
    injection h with he hs'
    subst he hs'
    exact halts_of_take (not_atEnd_of_move hm) hs
  | case7 _ _ _ _ hm _ _ hs | case9 _ _ _ _ hm _ _ hs =>
    injection h with he hs'
    subst he hs'
    exact halts_of_step (not_atEnd_of_move hm) hs
  -- A run that goes on fails as the rest of it does, before the same end of the input.
  | case4 _ _ _ _ hm _ hs ih =>
    exact (ih h).of_ending (endOf_of_take (not_atEnd_of_move hm) hs).ending
  | case6 _ _ _ _ hm _ hs ih | case8 _ _ _ _ hm _ hs ih =>
    exact (ih h).of_ending (endOf_of_step (not_atEnd_of_move hm) hs).ending

/-- At the end the input is over before the token is. -/
theorem unexpected_of_atEnd (hend : s.atEnd) :
    s.unexpected = ⟨.prematureEnd, s.current.position⟩ := by
  rw [unexpected, Option.isNone_iff_eq_none.1 hend]

/-- Whatever operation fails. -/
theorem halts_of_perform {operation : Operation} (h : operation.perform s = .error e s') :
    Halts s e s' := by
  cases operation with
  | recognize r =>
    rcases error_of_bind h with h | ⟨_, _, _, h⟩
    · have hhalts : Halts s.clear e s' := halts_of_run (s := s.clear) h
      exact hhalts.of_ending (by rw [prospect_clear])
    · cases h
  | advance =>
    rcases error_of_bind h with h | ⟨_, _, _, h⟩
    · unfold advance at h
      split at h
      · next hend =>
        injection h with h _
        exact Or.inr ⟨s, rfl, by rw [unexpected_of_atEnd hend, h]⟩
      · next hend => exact halts_of_step hend h
    · cases h
  | accumulate =>
    rcases error_of_bind h with h | ⟨_, _, _, h⟩
    · unfold accumulate at h
      split at h
      · next hend =>
        injection h with h _
        exact Or.inr ⟨s, rfl, by rw [unexpected_of_atEnd hend, h]⟩
      · next hend => exact halts_of_take hend h
    · cases h
  | clear => cases h

/-- The error is one of the source or of bytes that mean nothing: its fault says so, or it is that
with which the input of the scanner ends, which may be cut short in a group of bytes. -/
def Undecodable (s : Scanner) (e : LexError) : Prop :=
  s.prospect.ending = .error e ∨ e.fault = .invalidUtf8 ∨ ∃ text, e.fault = .source text

/-- **An operation that cannot decode on leads to the end**, which is where decoding failed. -/
theorem exhausted_of_perform_error {operation : Operation}
    (h : operation.perform s = .error e s') (he : Undecodable s e) : s'.Exhausted e.position := by
  rcases halts_of_perform h with ⟨-, hend⟩ | ⟨t, hending, hunexpected⟩
  · exact hend
  · exfalso
    rcases he with he | he | ⟨text, he⟩
    -- A token that is rejected before the failure is so for a code point.
    · obtain ⟨c, hc⟩ := fault_of_unexpected (hending.trans he)
      have hdecoding := decoding_of_prospect he
      rw [hunexpected, hc] at hdecoding
      exact hdecoding
    all_goals
      rw [hunexpected, unexpected] at he
      split at he <;> cases he

end Failures

end Scanner

/-! ## What a failure leaves behind -/

/-- A scanner that keeps what is deferred in a register of its own, also between two operations. The
register is emptied when a token begins, when its contents are taken and when they are given back,
but not when decoding fails. -/
structure Retaining where
  scanner : Scanner
  deferred : List Lookahead

namespace Retaining

variable {α β : Type}

/-- The outcome of the scanner, with a register next to it. -/
def beside (deferred : List Lookahead) :
    EStateM.Result LexError Scanner α → EStateM.Result LexError Retaining α
  | .ok a s => .ok a ⟨s, deferred⟩
  | .error e s => .error e ⟨s, deferred⟩

/-- Runs the automaton from `st`. -/
def run (st : State) (m : Retaining) : EStateM.Result LexError Retaining Lexeme :=
  match _hm : m.scanner.move? st with
  | none => beside [] (Scanner.conclude st m.deferred m.scanner)
  | some (.finish p) =>
    match Scanner.take m.deferred m.scanner with
    | .ok () s => .ok (s.lexeme p) ⟨s, []⟩
    | .error e s => .error e ⟨s, []⟩
  | some (.take st') =>
    match _hs : Scanner.take m.deferred m.scanner with
    | .ok () s => run st' ⟨s, []⟩
    | .error e s => .error e ⟨s, []⟩
  | some (.skip st') =>
    match _hs : Scanner.step m.scanner with
    | .ok () s => run st' ⟨s, m.deferred⟩
    | .error e s => .error e ⟨s, m.deferred⟩
  | some (.defer st') =>
    match _hs : Scanner.step m.scanner with
    | .ok () s => run st' ⟨s, m.deferred ++ [m.scanner.current]⟩
    | .error e s => .error e ⟨s, m.deferred ++ [m.scanner.current]⟩
termination_by m.scanner.size
decreasing_by
  · exact Scanner.size_of_take ‹_› ‹_›
  · exact Scanner.size_of_step ‹_› ‹_›
  · exact Scanner.size_of_step ‹_› ‹_›

/-- Performs an operation. Accumulating takes what is in the register along. -/
def perform : Scanner.Operation → EStateM LexError Retaining (Option Lexeme)
  | .recognize r => do return some (← fun m => run (.start r) ⟨m.scanner.clear, []⟩)
  | .advance => do
    (fun m => beside m.deferred m.scanner.advance : EStateM LexError Retaining Unit)
    return none
  | .accumulate => do
    (fun m =>
      if m.scanner.atEnd then .error ⟨.prematureEnd, m.scanner.current.position⟩ m
      else beside [] (m.scanner.take m.deferred) : EStateM LexError Retaining Unit)
    return none
  | .clear => do
    modify fun m => ⟨m.scanner.clear, []⟩
    return none

/-- What a caller sees of operations that are performed one after the other. -/
def observe (m : Retaining) : List Scanner.Operation → List Scanner.Observation
  | [] => []
  | operation :: operations =>
    match perform operation m with
    | .ok lexeme? m' =>
      ⟨.ok lexeme?, m'.scanner.current, m'.scanner.text⟩ :: observe m' operations
    | .error e m' => ⟨.error e, m'.scanner.current, m'.scanner.text⟩ :: observe m' operations

/-- What is in the register has been left there at the end of input. -/
def Stale (deferred : List Lookahead) (s : Scanner) : Prop :=
  deferred = [] ∨ ∃ position, s.Exhausted position

/-- The outcome is that of the scanner, and only what is stale is in the register. -/
def Shadows (r : EStateM.Result LexError Retaining α) (r' : EStateM.Result LexError Scanner α) :
    Prop :=
  ∃ deferred, r = beside deferred r' ∧ Stale deferred (finalState r')

/-- What follows without a look at the register does not show it either. -/
theorem Shadows.bind_pure {x : EStateM LexError Retaining α} {x' : EStateM LexError Scanner α}
    {f : α → β} {m : Retaining} (h : Shadows (x m) (x' m.scanner)) :
    Shadows ((do return f (← x)) m) ((do return f (← x')) m.scanner) := by
  obtain ⟨deferred, hx, hstale⟩ := h
  refine ⟨deferred, ?_, ?_⟩
  · simp only [bind, EStateM.bind, hx]
    cases x' m.scanner <;> rfl
  · simp only [bind, EStateM.bind]
    cases hx' : x' m.scanner <;> rw [hx'] at hstale <;> exact hstale

/-- A run of the automaton does not show what the register holds besides. -/
theorem shadows_run (st : State) (m : Retaining) :
    Shadows (run st m) (Scanner.run st m.deferred m.scanner) := by
  fun_induction run st m with
  | case1 st m hm =>
    rw [Scanner.run_of_none hm]
    exact ⟨[], rfl, Or.inl rfl⟩
  | case2 st m p hm s hs =>
    rw [Scanner.run_of_finish hm]
    simp only [bind, EStateM.bind, hs]
    exact ⟨[], rfl, Or.inl rfl⟩
  | case3 st m p hm e s hs =>
    rw [Scanner.run_of_finish hm]
    simp only [bind, EStateM.bind, hs]
    exact ⟨[], rfl, Or.inl rfl⟩
  | case4 st m st' hm s hs ih =>
    rw [Scanner.run_of_take hm]
    simp only [bind, EStateM.bind, hs]
    exact ih
  | case5 st m st' hm e s hs =>
    rw [Scanner.run_of_take hm]
    simp only [bind, EStateM.bind, hs]
    exact ⟨[], rfl, Or.inl rfl⟩
  | case6 st m st' hm s hs ih =>
    rw [Scanner.run_of_skip hm]
    simp only [bind, EStateM.bind, hs]
    exact ih
  | case7 st m st' hm e s hs =>
    -- What was deferred stays in the register, and the scanner is at the end.
    rw [Scanner.run_of_skip hm]
    simp only [bind, EStateM.bind, hs]
    exact ⟨m.deferred, rfl, Or.inr ⟨_, Scanner.exhausted_of_step_error hs⟩⟩
  | case8 st m st' hm s hs ih =>
    rw [Scanner.run_of_defer hm]
    simp only [bind, EStateM.bind, hs]
    exact ih
  | case9 st m st' hm e s hs =>
    -- So does the dot that has been deferred just before the failure.
    rw [Scanner.run_of_defer hm]
    simp only [bind, EStateM.bind, hs]
    exact ⟨_, rfl, Or.inr ⟨_, Scanner.exhausted_of_step_error hs⟩⟩

/-- No operation shows what is in the register. -/
theorem shadows_perform {m : Retaining} (h : Stale m.deferred m.scanner)
    (operation : Scanner.Operation) :
    Shadows (perform operation m) (operation.perform m.scanner) := by
  cases operation with
  | recognize r => exact Shadows.bind_pure (shadows_run (.start r) ⟨m.scanner.clear, []⟩)
  | advance =>
    -- If anything is in the register the scanner is at the end, where it does not advance.
    refine Shadows.bind_pure ⟨m.deferred, rfl, h.imp_right fun ⟨position, hend⟩ => ?_⟩
    rw [Scanner.advance, if_pos hend.atEnd]
    exact ⟨position, hend⟩
  | accumulate =>
    refine Shadows.bind_pure ?_
    rw [Scanner.accumulate]
    split
    · exact ⟨m.deferred, rfl, h⟩
    -- Before the end nothing stale is there to be taken along.
    · next hend =>
      rw [h.resolve_right fun ⟨_, hended⟩ => hend hended.atEnd]
      exact ⟨[], rfl, Or.inl rfl⟩
  | clear => exact ⟨[], rfl, Or.inl rfl⟩

/-- **What a failure leaves in the register is never seen again.** -/
theorem observe_eq {m : Retaining} (h : Stale m.deferred m.scanner)
    (operations : List Scanner.Operation) :
    m.observe operations = m.scanner.observe operations := by
  induction operations generalizing m with
  | nil => rfl
  | cons operation operations ih =>
    obtain ⟨deferred, hperform, hstale⟩ := shadows_perform h operation
    rw [observe, Scanner.observe, hperform]
    cases hs : operation.perform m.scanner with
    | ok lexeme? s =>
      rw [hs] at hstale
      exact congrArg (List.cons _) (ih (m := ⟨s, deferred⟩) hstale)
    | error e s =>
      rw [hs] at hstale
      exact congrArg (List.cons _) (ih (m := ⟨s, deferred⟩) hstale)

end Retaining

/-- **The end of input is absorbing.** A scanner that is at the end with nothing held stays there,
at the same position, whatever is done with it, and does not decode; each operation does then what
it does at the end. An operation that cannot decode on leads there, to where decoding failed. What
had been deferred by then is not seen again, even if it is kept. -/
theorem Scanner.end_absorbs (s : Scanner) (operations : List Operation) :
    (∀ position, s.Exhausted position →
      (s.after operations).Exhausted position ∧ (s.after operations).decoder = s.decoder ∧
        ∀ operation : Operation, operation.perform (s.after operations) =
          operation.ended position (s.after operations)) ∧
      (∀ (operation : Operation) (e : LexError) (s' : Scanner),
        operation.perform s = .error e s' → Undecodable s e → s'.Exhausted e.position) ∧
      (⟨s, []⟩ : Retaining).observe operations = s.observe operations := by
  refine ⟨fun position h => ?_, fun _ _ _ => exhausted_of_perform_error,
    Retaining.observe_eq (Or.inl rfl) operations⟩
  obtain ⟨hend, hdecoder⟩ := h.after operations
  exact ⟨hend, hdecoder, hend.perform⟩

/-- The reader fails behind a dot that was deferred. The dot is kept, and does not come back. -/
example : (Scanner.ofSource (.breaking "_:x." "reset") {}).map (fun s =>
      let m := finalState (Retaining.perform (.recognize .blankNodeLabel) ⟨s, []⟩)
      (m.deferred, m.scanner.text, (finalState (Retaining.perform .accumulate m)).scanner.text)) =
    .ok ([⟨some '.', ⟨1, 4⟩⟩], .utf16 #[95, 58, 120], .utf16 #[95, 58, 120]) := by
  decide +kernel

end RdfTurtle
