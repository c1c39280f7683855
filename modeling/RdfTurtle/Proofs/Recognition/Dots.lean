import RdfTurtle.Proofs.Recognition.Families

/-! # Dots behind tokens

In IRI references, strings and comments a dot is a character like any other. Where nothing opens one
of these a dot is a token, or what has begun goes on with it. A line end never follows such a dot,
so that the token ends there: before the dot if that was deferred, and otherwise it fails.

* **`CodePoint.Calm`**, **`State.Calm`** — what opens nothing in which dots are like any other
  character, and the states without such a part.
* **`State.calms_of_next`** — calm code points lead from calm states to calm states.
* **`State.stops_of_next`** — a dot is a token, or a line end stops what has begun. -/

namespace RdfTurtle

/-- The code point is no dot and opens nothing in which a dot is like any other character. -/
def CodePoint.Calm (c : CodePoint) : Prop :=
  ∀ x ∈ ['.', '<', '>', '"', '\'', '#', '\\'], c ≠ CodePoint.ofChar x

namespace State

variable {iri : Strictness} {st : State} {c : CodePoint} {p : Production}

/-- What has begun ends before a dot or goes on with it as a name, a boolean or a number does. -/
def Calm : State → Prop
  | .spelling x rest p => x ≠ '.' ∧ '.' ∉ rest ∧ p ≠ .dot
  | .keyword k rest => rest ⊆ k.tail
  | .body b | .hex _ b => b = .localName
  | .escape _ | .openedOnce _ | .openedTwice _ | .closingOnce _ | .closingTwice _ => False
  | .comment => False
  | _ => True

/-- A token that is complete in a state is no dot: that is complete with its character. -/
theorem ne_dot_of_accepting (h : st.accepting = some p) : p ≠ .dot := by
  rintro rfl
  cases st with
  | start r => cases r <;> cases h
  | keyword k rest =>
    cases rest with
    | nil => cases k <;> cases h
    | cons => cases h
  | body b => cases b <;> cases h
  | _ => cases h

/-- A move to a calm state, or to a token that is no dot. -/
inductive Calms : Move → Prop
  | take {st' : State} (h : st'.Calm) : Calms (.take st')
  | skip {st' : State} (h : st'.Calm) : Calms (.skip st')
  | finish {p : Production} (h : p ≠ .dot) : Calms (.finish p)

/-- **A calm code point leads from a calm state to a calm state or to a token**, and is never
deferred. -/
theorem calms_of_next (hst : st.Calm) (hc : c.Calm) : Move.Only Calms (st.next iri c) := by
  have hdot : c ≠ '.' := hc '.' (by simp)
  have hless : c ≠ '<' := hc '<' (by simp)
  have hdouble : c ≠ '"' := hc '"' (by simp)
  have hsingle : c ≠ '\'' := hc '\'' (by simp)
  have hhash : c ≠ '#' := hc '#' (by simp)
  have hslash : c ≠ '\\' := hc '\\' (by simp)
  have hnamespace : Move.Only Calms (Move.ofNamespace c) := by
    repeat' refine Move.Only.ite (fun h => ?_) fun _ => ?_
    all_goals first | exact .none | exact .some (.finish (by decide)) | exact .some (.take trivial)
  -- Where a state that is not calm would be entered, the code point is one that is excluded.
  cases st with
  | start r =>
    cases r <;> repeat' refine Move.Only.ite (fun h => ?_) fun _ => ?_
    all_goals first
      | exact .none
      | contradiction
      | exact .some (.finish (by decide))
      | exact .some (.skip trivial)
      | exact .some (.take trivial)
      | exact .some (.take (List.Subset.refl _))
      | exact .some (.take rfl)
      | exact .some (.take ⟨by decide, by decide, by decide⟩)
  | spelling x rest p =>
    obtain ⟨hx, hrest, hp⟩ := hst
    cases rest with
    | nil => exact Move.Only.ite (fun _ => .some (.finish hp)) fun _ => .none
    | cons y rest =>
      rw [List.mem_cons, not_or] at hrest
      exact Move.Only.ite (fun _ => .some (.take ⟨Ne.symm hrest.1, hrest.2, hp⟩)) fun _ => .none
  | keyword k rest =>
    cases rest with
    | nil => exact Move.Only.ite (fun h => absurd h.2 hdot) fun _ => hnamespace
    | cons x rest =>
      refine Move.Only.ite (fun _ => .some (.take ?_)) fun _ => hnamespace
      exact List.Subset.trans (List.subset_cons_self x rest) hst
  | body b =>
    obtain rfl : b = .localName := hst
    repeat' refine Move.Only.ite (fun h => ?_) fun _ => ?_
    all_goals first | exact .none | contradiction | exact .some (.take rfl)
  | hex n b =>
    obtain rfl : b = .localName := hst
    cases n <;> exact Move.Only.ite (fun _ => .some (.take rfl)) fun _ => .none
  | escape | openedOnce | openedTwice | closingOnce | closingTwice | comment => cases hst
  | namespaceBody => exact hnamespace
  | directive =>
    repeat' refine Move.Only.ite (fun h => ?_) fun _ => ?_
    all_goals first | exact .none | exact .some (.take ⟨by decide, by decide, by decide⟩)
  | _ =>
    repeat' refine Move.Only.ite (fun h => ?_) fun _ => ?_
    all_goals first
      | exact .none
      | contradiction
      | exact .some (.finish (by decide))
      | exact .some (.take trivial)

/-- A move for a dot: the dot is a token, or a line end stops what goes on with it. A token that has
taken the dot is not complete then. -/
inductive Stops : Move → Prop
  | finish : Stops (.finish .dot)
  | take {st' : State} (stops : ∀ iri, st'.next iri '\n' = none)
    (incomplete : st'.accepting = none) : Stops (.take st')
  | defer {st' : State} (stops : ∀ iri, st'.next iri '\n' = none) : Stops (.defer st')

/-- **A dot is a token of its own, or what goes on with it ends at a line end.** -/
theorem stops_of_next (hst : st.Calm) : Move.Only Stops (st.next iri '.') := by
  have hnamespace : Move.Only Stops (Move.ofNamespace '.') := by
    have hdots : Move.ofNamespace '.' = some (.take .namespaceDots) := by decide +kernel
    rw [hdots]
    exact .some (.take (fun iri => by cases iri <;> decide +kernel) rfl)
  -- Each state entered with the dot is known, so that its move for a line end can be evaluated.
  cases st with
  | start r =>
    cases r <;> repeat' refine Move.Only.ite (fun h => ?_) fun _ => ?_
    all_goals first
      | exact .none
      | exact absurd h (by decide +kernel)
      | exact .some .finish
      | exact .some (.take (fun iri => by cases iri <;> decide +kernel) rfl)
      | exact .some (.defer fun iri => by cases iri <;> decide +kernel)
  | spelling x rest p =>
    have hx : CodePoint.ofChar '.' ≠ CodePoint.ofChar x := fun h =>
      hst.1 (CodePoint.ofChar_inj.1 h).symm
    cases rest <;> exact Move.Only.ite (fun h => absurd h hx) fun _ => .none
  | keyword k rest =>
    cases rest with
    | nil =>
      refine Move.Only.ite (fun _ => .some (.defer fun iri => ?_)) fun _ => hnamespace
      cases iri <;> decide +kernel
    | cons x rest =>
      have hno : ¬ k.Reads x '.' := fun h => Syntax.dot_notMem_nameChar
        (Keyword.nameChar_of_reads (hst List.mem_cons_self) h)
      exact Move.Only.ite (fun h => absurd h hno) fun _ => hnamespace
  | body b =>
    obtain rfl : b = .localName := hst
    repeat' refine Move.Only.ite (fun h => ?_) fun _ => ?_
    all_goals first
      | exact .none
      | exact absurd h (by decide +kernel)
      | exact .some (.defer fun iri => by cases iri <;> decide +kernel)
  | hex n b =>
    cases n <;> exact Move.Only.ite (fun h => absurd h (by decide +kernel)) fun _ => .none
  | escape | openedOnce | openedTwice | closingOnce | closingTwice | comment => cases hst
  | namespaceBody => exact hnamespace
  | _ =>
    repeat' refine Move.Only.ite (fun h => ?_) fun _ => ?_
    all_goals first
      | exact .none
      | exact absurd h (by decide +kernel)
      | exact .some (.take (fun iri => by cases iri <;> decide +kernel) rfl)
      | exact .some (.defer fun iri => by cases iri <;> decide +kernel)

end State

end RdfTurtle
