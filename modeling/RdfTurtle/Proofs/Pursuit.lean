import RdfTurtle.Document.Items

/-! # Pursuing an item

The moves of a parser up to its next item are an action of their own: it gives a triple or comes to
the end, and it fails where the error arises, before anything is done about the next statement.

* **`Parser.pursue`** — the action, and **`Parser.next_of_pursue`** the item it leads to.
* **`Parser.after`** — the parser after a number of requests for an item.
* **`Parser.faults`** — the parsers in which the errors arose. -/

namespace RdfTurtle.Parser

variable [IriLibrary]

/-- Moves on to the next triple, or to the end of the document. -/
def pursue (p : Parser) : EStateM.Result DocumentError Parser (Option Triple) :=
  match _h : move p with
  | .ok (.triple t) p' => .ok (some t) p'
  | .ok .onward p' => pursue p'
  | .ok .finished p' => .ok none p'
  | .error e q => .error e q
termination_by p.size
decreasing_by exact size_of_move ‹_› (by simp)

/-- Begins a statement behind the blanks, unless the input has ended. -/
def beginStatement : Action Outcome := do
  if (← get).scanner.atEnd then
    expect .nothing
    return .finished
  else
    readStatement (← lex .statement)
    return .onward

/-- A statement begins with blanks. -/
theorem moveStatement_eq : moveStatement = (do skipBlank; beginStatement) := rfl

/-- Goes on after a move. -/
def goOn : Outcome → Action (Option Triple)
  | .triple t => return some t
  | .onward => pursue
  | .finished => return none

/-- A pursuit is a move, and a pursuit from there unless it ends with the move. -/
theorem pursue_eq (p : Parser) : p.pursue = (move >>= goOn) p := by
  rw [pursue]
  simp only [bind, EStateM.bind]
  split <;> simp_all only [goOn] <;> rfl

section Equations

variable {p p' : Parser}

/-- A completed triple ends the pursuit. -/
theorem pursue_of_triple {t : Triple} (h : move p = .ok (.triple t) p') :
    p.pursue = .ok (some t) p' := by
  simp only [pursue_eq, bind, EStateM.bind, h]
  rfl

/-- What a move leads onward to pursues the same item. -/
theorem pursue_of_onward (h : move p = .ok .onward p') : p.pursue = p'.pursue := by
  simp only [pursue_eq p, bind, EStateM.bind, h]
  rfl

/-- The end of the document ends the pursuit. -/
theorem pursue_of_finished (h : move p = .ok .finished p') : p.pursue = .ok none p' := by
  simp only [pursue_eq, bind, EStateM.bind, h]
  rfl

/-- The pursuit fails as a move does. -/
theorem pursue_of_error {e : DocumentError} (h : move p = .error e p') :
    p.pursue = .error e p' := by
  simp only [pursue_eq, bind, EStateM.bind, h]

end Equations

/-- What a pursuit comes to as an item, with the parser that is ready for the one after it. -/
def deliver : EStateM.Result DocumentError Parser (Option Triple) → Option Item × Parser
  | .ok t? p => (t?.map .triple, p)
  | .error e q => (some (.error e), q.afterError e)

/-- **The next item is what is pursued.** -/
theorem next_of_pursue (p : Parser) : p.next = deliver p.pursue := by
  fun_induction pursue p with
  | case1 p t p' hm => exact next_of_triple hm
  | case2 p p' hm ih => rw [next_of_onward hm, ih]
  | case3 p p' hm => exact next_of_finished hm
  | case4 p e q hm => exact next_of_error hm

section Items

variable {p p' q : Parser} {t : Triple} {e : DocumentError}

/-- A triple that is pursued is the next item. -/
theorem next_of_pursue_triple (h : p.pursue = .ok (some t) p') :
    p.next = (some (.triple t), p') := by
  rw [next_of_pursue, h]
  rfl

/-- Where nothing is left to pursue there is no next item. -/
theorem next_of_pursue_none (h : p.pursue = .ok none p') : p.next = (none, p') := by
  rw [next_of_pursue, h]
  rfl

/-- An error on the way is the next item. -/
theorem next_of_pursue_error (h : p.pursue = .error e q) :
    p.next = (some (.error e), q.afterError e) := by
  rw [next_of_pursue, h]
  rfl

/-- A triple that is pursued comes before the other items. -/
theorem items_of_pursue_triple (h : p.pursue = .ok (some t) p') :
    p.items = .triple t :: p'.items :=
  items_of_next (next_of_pursue_triple h)

/-- Where nothing is left to pursue there are no items. -/
theorem items_of_pursue_none (h : p.pursue = .ok none p') : p.items = [] :=
  items_of_next_none (next_of_pursue_none h)

/-- An error on the way comes before the items behind it. -/
theorem items_of_pursue_error (h : p.pursue = .error e q) :
    p.items = .error e :: (q.afterError e).items :=
  items_of_next (next_of_pursue_error h)

/-- A triple that is the first item is what is pursued. -/
theorem pursue_of_items_cons {items : List Item} (h : p.items = .triple t :: items) :
    ∃ p', p.pursue = .ok (some t) p' ∧ p'.items = items := by
  cases hp : p.pursue with
  | ok t? p' =>
    cases t? with
    | none =>
      rw [items_of_pursue_none hp] at h
      cases h
    | some t =>
      rw [items_of_pursue_triple hp] at h
      injection h with ht h
      injection ht with ht
      exact ⟨p', by rw [ht], h⟩
  | error e q =>
    rw [items_of_pursue_error hp] at h
    injection h with h _
    cases h

/-- Without items the pursuit comes to the end. -/
theorem pursue_of_items_nil (h : p.items = []) : ∃ p', p.pursue = .ok none p' := by
  cases hp : p.pursue with
  | ok t? p' =>
    cases t? with
    | none => exact ⟨p', rfl⟩
    | some t =>
      rw [items_of_pursue_triple hp] at h
      cases h
  | error e q =>
    rw [items_of_pursue_error hp] at h
    cases h

/-- The error that is the next item arose in a pursuit. -/
theorem pursue_of_next_error (h : p.next = (some (.error e), p')) :
    ∃ q, p.pursue = .error e q ∧ p' = q.afterError e := by
  rw [next_of_pursue] at h
  cases hp : p.pursue with
  | ok t? q =>
    rw [hp] at h
    cases t? <;> simp [deliver] at h
  | error e' q =>
    rw [hp] at h
    simp only [deliver, Prod.mk.injEq, Option.some.injEq, Item.error.injEq] at h
    obtain ⟨rfl, rfl⟩ := h
    exact ⟨q, rfl, rfl⟩

end Items

/-- A triple brings the parser nearer to the end. -/
theorem measure_of_pursue {p p' : Parser} {t : Triple} (h : p.pursue = .ok (some t) p') :
    p'.measure < p.measure := measure_of_next (next_of_pursue_triple h)

/-- So does an error, when the next statement is looked for. -/
theorem measure_of_pursue_error {p q : Parser} {e : DocumentError} (h : p.pursue = .error e q) :
    (q.afterError e).measure < p.measure := measure_of_next (next_of_pursue_error h)

/-- The parser after `n` requests for an item. -/
def after (p : Parser) : Nat → Parser
  | 0 => p
  | n + 1 => p.next.2.after n

/-- The parsers in which the errors of the rest of the document arose. -/
def faults (p : Parser) : List Parser :=
  match _h : p.pursue with
  | .ok (some _) p' => faults p'
  | .ok none _ => []
  | .error e q => q :: faults (q.afterError e)
termination_by p.measure
decreasing_by
  · exact measure_of_pursue ‹_›
  · exact measure_of_pursue_error ‹_›

section Faults

variable {p p' q : Parser} {t : Triple} {e : DocumentError}

/-- No error arises on the way to a triple. -/
theorem faults_of_triple (h : p.pursue = .ok (some t) p') : p.faults = p'.faults := by
  rw [faults]
  split <;> simp_all

/-- An error arises first in the parser that fails. -/
theorem faults_of_error (h : p.pursue = .error e q) :
    p.faults = q :: (q.afterError e).faults := by
  rw [faults]
  split <;> simp_all

/-- None arises where nothing is left to pursue. -/
theorem faults_of_none (h : p.pursue = .ok none p') : p.faults = [] := by
  rw [faults]
  split <;> simp_all

/-- The same errors are still to arise after a move that does not end the document. -/
theorem faults_of_move {o : Outcome} (h : move p = .ok o p') (ho : o ≠ .finished) :
    p.faults = p'.faults := by
  cases o with
  | triple t => exact faults_of_triple (pursue_of_triple h)
  | finished => exact absurd rfl ho
  | onward =>
    have hpursue := pursue_of_onward h
    cases hp : p'.pursue with
    | ok t? q =>
      rw [hp] at hpursue
      cases t? with
      | none => rw [faults_of_none hpursue, faults_of_none hp]
      | some t => rw [faults_of_triple hpursue, faults_of_triple hp]
    | error e q =>
      rw [hp] at hpursue
      rw [faults_of_error hpursue, faults_of_error hp]

end Faults

end RdfTurtle.Parser
