import RdfTurtle.Proofs.Recognition.Families

/-! # How tokens end

A dot is deferred where the token is complete without it, or where it may begin a number. A line
feed stands within an IRI reference or a long string, and something comes behind it there. A token
is empty only where it may be.

* **`State.MayDefer`** — how many dots may be deferred in a state.
* **`State.Lettered`** — the states of words whose letters are letters.
* **`State.opens_of_next`** — where a line feed is taken.
* **`State.ne_nil_of_path`**, **`State.getLast?_of_path`** — tokens that are not empty, and how they
  do not end. -/

namespace RdfTurtle.State

variable {iri : Strictness} {p : Production} {st st' : State} {ds cs : List CodePoint}

/-! ## Dots that are deferred -/

/-- Where a dot is deferred the token is complete without it, but for the dot of an object, which
may begin a number. -/
theorem defersInto_next (iri : Strictness) (st : State) (c : CodePoint) :
    DefersInto (fun st' => st'.accepting ≠ none ∨ st = .start .object ∧ st' = .leadingDot)
      (st.next iri c) := by
  have hnamespace : DefersInto (fun st' => st'.accepting ≠ none ∨
      st = .start .object ∧ st' = .leadingDot) (Move.ofNamespace c) := by
    repeat' apply DefersInto.ite
    all_goals
      intro st' h
      cases h
  -- Only names, numbers and booleans defer a dot; the moves of the other states are no deferring.
  cases st with
  | start r =>
    cases r <;> repeat' apply DefersInto.ite
    all_goals
      intro st' h
      cases h
      try exact Or.inr ⟨rfl, rfl⟩
  | keyword k rest =>
    cases rest with
    | nil =>
      refine .ite (fun st' h => ?_) hnamespace
      cases h
      exact Or.inl (by simp [accepting])
    | cons =>
      refine .ite (fun st' h => ?_) hnamespace
      cases h
  | spelling x rest p => cases rest <;> (repeat' apply DefersInto.ite) <;> intro st' h <;> cases h
  | body b =>
    cases b <;> repeat' apply DefersInto.ite
    all_goals
      intro st' h
      cases h
      try exact Or.inl (by simp [accepting])
  | escape b => cases b <;> (repeat' apply DefersInto.ite) <;> intro st' h <;> cases h
  | hex n b => cases n <;> (repeat' apply DefersInto.ite) <;> intro st' h <;> cases h
  | namespaceBody => exact hnamespace
  | comment =>
    intro st' h
    cases h
  | _ =>
    repeat' apply DefersInto.ite
    all_goals
      intro st' h
      cases h
      try exact Or.inl (by simp [accepting])

/-- As many dots may be deferred in a state: any number where the token is complete without them,
and otherwise only the dot that begins a number. -/
def MayDefer (st : State) (n : Nat) : Prop :=
  n = 0 ∨ st.accepting ≠ none ∨ st = .leadingDot ∧ n = 1

/-- One more dot may be deferred in the state to which that leads. -/
theorem mayDefer_of_next {iri : Strictness} {st st' : State} {c : CodePoint} {n : Nat}
    (hn : st.MayDefer n) (h : st.next iri c = some (.defer st')) : st'.MayDefer (n + 1) := by
  rcases defersInto_next iri st c st' h with haccepting | ⟨rfl, rfl⟩
  · exact Or.inr (Or.inl haccepting)
  · rcases hn with rfl | hn | ⟨hn, -⟩
    · exact Or.inr (Or.inr ⟨rfl, rfl⟩)
    · exact absurd rfl hn
    · cases hn

/-! ## Line feeds -/

/-- What is not among blanks does not come among them. -/
theorem not_blank_of_next {iri : Strictness} {st : State} (hst : st.family ≠ some .blank)
    (c : CodePoint) : Move.Only (fun m => m.family ≠ some .blank) (st.next iri c) := by
  cases hf : st.family with
  | some f =>
    intro m hm
    rw [family_of_next hf c m hm]
    rwa [hf] at hst
  | none =>
    cases st with
    | start r =>
      cases r <;> repeat' refine Move.Only.ite (fun _ => ?_) fun _ => ?_
      all_goals first
        | exact .none
        | exact .some (by decide)
        | exact absurd rfl hst
    | _ => cases hf

/-- No letter that a word goes on with is a line feed. -/
def Lettered : State → Prop
  | .spelling x rest _ => x ≠ '\n' ∧ '\n' ∉ rest
  | .keyword k rest => rest ⊆ k.tail
  | _ => True

/-- A move to a state of letters, or to a token. -/
inductive Letters : Move → Prop
  | take {st' : State} (h : st'.Lettered) : Letters (.take st')
  | skip {st' : State} (h : st'.Lettered) : Letters (.skip st')
  | defer {st' : State} (h : st'.Lettered) : Letters (.defer st')
  | finish (p : Production) : Letters (.finish p)

/-- The words of the grammar are written with letters. -/
theorem letters_of_next (hst : st.Lettered) (c : CodePoint) :
    Move.Only Letters (st.next iri c) := by
  have hnamespace : Move.Only Letters (Move.ofNamespace c) := by
    repeat' refine Move.Only.ite (fun _ => ?_) fun _ => ?_
    all_goals first | exact .none | exact .some (.finish _) | exact .some (.take trivial)
  -- The letters of a word are shifted by one; the other states lead to whole words or to none.
  cases st with
  | spelling x rest p =>
    obtain ⟨hx, hrest⟩ := hst
    cases rest with
    | nil => exact Move.Only.ite (fun _ => .some (.finish _)) fun _ => .none
    | cons y rest =>
      rw [List.mem_cons, not_or] at hrest
      exact Move.Only.ite (fun _ => .some (.take ⟨Ne.symm hrest.1, hrest.2⟩)) fun _ => .none
  | keyword k rest =>
    cases rest with
    | nil => exact Move.Only.ite (fun _ => .some (.defer trivial)) fun _ => hnamespace
    | cons x rest =>
      refine Move.Only.ite (fun _ => .some (.take ?_)) fun _ => hnamespace
      exact List.Subset.trans (List.subset_cons_self x rest) hst
  | hex n b => cases n <;> exact Move.Only.ite (fun _ => .some (.take trivial)) fun _ => .none
  | namespaceBody => exact hnamespace
  | comment =>
    refine .some (.skip ?_)
    split <;> exact trivial
  | start x | body x | escape x =>
    cases x <;> repeat' refine Move.Only.ite (fun _ => ?_) fun _ => ?_
    all_goals first
      | exact .none
      | exact .some (.finish _)
      | exact .some (.take trivial)
      | exact .some (.skip trivial)
      | exact .some (.defer trivial)
      | exact .some (.take (List.Subset.refl _))
      | exact .some (.take ⟨by decide, by decide⟩)
  | _ =>
    repeat' refine Move.Only.ite (fun _ => ?_) fun _ => ?_
    all_goals first
      | exact .none
      | exact .some (.finish _)
      | exact .some (.take trivial)
      | exact .some (.defer trivial)
      | exact .some (.take ⟨by decide, by decide⟩)

/-- A line feed is skipped among blanks, and taken where an IRI reference or a long string goes
on. -/
inductive Opens : Move → Prop
  | skip (st : State) : Opens (.skip st)
  | iri : Opens (.take (.body .iri))
  | long (q : Quote) : Opens (.take (.body (.long q)))

/-- Each move for a line feed is one of these. -/
theorem opens_of_next (hst : st.Lettered) : Move.Only Opens (st.next iri '\n') := by
  have hnamespace : Move.ofNamespace '\n' = none := by decide +kernel
  have hquote (q : Quote) : CodePoint.ofChar '\n' ≠ q.char := by cases q <;> decide
  -- Fixed characters and classes are compared with the line feed by evaluation, quotes and the
  -- letters of a word by what is known of them.
  cases st with
  | start r =>
    cases r <;> repeat' refine Move.Only.ite (fun h => ?_) fun _ => ?_
    all_goals first
      | exact .none
      | exact absurd h (by decide +kernel)
      | exact .some (.skip _)
  | spelling x rest p =>
    have hx : CodePoint.ofChar '\n' ≠ CodePoint.ofChar x := fun h =>
      hst.1 (CodePoint.ofChar_inj.1 h).symm
    cases rest <;> exact Move.Only.ite (fun h => absurd h hx) fun _ => .none
  | keyword k rest =>
    cases rest with
    | nil =>
      refine Move.Only.ite (fun h => absurd h.2 (by decide)) fun _ => ?_
      rw [hnamespace]
      exact .none
    | cons x rest =>
      have hno : ¬ k.Reads x '\n' := fun h =>
        absurd (Keyword.nameChar_of_reads (hst List.mem_cons_self) h) (by decide +kernel)
      refine Move.Only.ite (fun h => absurd h hno) fun _ => ?_
      rw [hnamespace]
      exact .none
  | body b | escape b =>
    cases b <;> repeat' refine Move.Only.ite (fun h => ?_) fun h => ?_
    all_goals first
      | exact .none
      | exact absurd h (by decide +kernel)
      | exact absurd h (hquote _)
      | exact absurd (by decide +kernel) h
      | exact .some .iri
      | exact .some (.long _)
  | hex n b =>
    cases n <;> exact Move.Only.ite (fun h => absurd h (by decide +kernel)) fun _ => .none
  | namespaceBody =>
    rw [next, hnamespace]
    exact .none
  | comment => exact .some (.skip _)
  | openedOnce q | openedTwice q | closingOnce q | closingTwice q =>
    repeat' refine Move.Only.ite (fun h => ?_) fun h => ?_
    all_goals first
      | exact .none
      | exact absurd h (by decide +kernel)
      | exact absurd h (hquote _)
      | exact absurd (by decide +kernel) h
      | exact .some (.long _)
  | _ =>
    repeat' refine Move.Only.ite (fun h => ?_) fun _ => ?_
    all_goals first
      | exact .none
      | exact absurd h (by decide +kernel)

/-- Where an IRI reference or a long string goes on, it is not complete. -/
theorem ne_nil_of_open (hst : st = .body .iri ∨ ∃ q, st = .body (.long q))
    (h : Path iri p st ds cs) : cs ≠ [] := by
  cases h with
  | finish | take => simp
  | stop haccepting => rcases hst with rfl | ⟨q, rfl⟩ <;> cases haccepting
  | skip hnext | defer hnext =>
    exfalso
    rcases hst with rfl | ⟨q, rfl⟩ <;> simp only [next] at hnext <;>
      repeat' split at hnext <;> try cases hnext

/-- **No token ends with a line feed.** -/
theorem getLast?_of_path (h : Path iri p st ds cs) (hst : st.Lettered)
    (hblank : st.family ≠ some .blank) : cs.getLast? ≠ some (CodePoint.ofChar '\n') := by
  induction h with
  | stop => simp
  | @finish st ds c hnext =>
    intro hlast
    rw [List.getLast?_concat] at hlast
    obtain rfl : c = CodePoint.ofChar '\n' := Option.some.inj hlast
    cases opens_of_next hst _ hnext
  | @take st st' ds cs c hnext more ih =>
    cases letters_of_next hst c _ hnext with
    | take hst' =>
      have htail := ih hst' (not_blank_of_next hblank c _ hnext)
      by_cases hcs : cs = []
      -- What is taken last is no line feed, as more is taken behind one.
      · subst hcs
        rw [List.append_nil, List.getLast?_concat]
        intro hlast
        obtain rfl : c = CodePoint.ofChar '\n' := Option.some.inj hlast
        cases opens_of_next hst _ hnext with
        | iri => exact ne_nil_of_open (Or.inl rfl) more rfl
        | long q => exact ne_nil_of_open (Or.inr ⟨q, rfl⟩) more rfl
      · rwa [List.getLast?_append_of_ne_nil _ hcs]
  | @skip st st' ds cs c hnext more ih =>
    cases shifts_of_next _ _ _ _ hnext with
    | skip _ hst => exact absurd hst hblank
  | @defer st st' ds cs c hnext more ih =>
    cases letters_of_next hst c _ hnext with
    | defer hst' => exact ih hst' (not_blank_of_next hblank c _ hnext)

/-- **A token is not empty where it may not be.** -/
theorem ne_nil_of_path (h : Path iri p st ds cs) (hst : st.Untaken) : cs ≠ [] := by
  induction h with
  | stop haccepting =>
    rw [accepting_of_untaken hst] at haccepting
    cases haccepting
  | finish | take => simp
  | skip hnext =>
    cases shifts_of_next _ _ _ _ hnext with
    | skip _ hblank =>
      rcases hst with ⟨r, rfl, hr⟩ | rfl
      · cases r <;> first | exact Bool.noConfusion hr | cases hblank
      · cases hblank
  | defer hnext _ ih => exact ih (untaken_of_defer hst hnext)

end RdfTurtle.State
