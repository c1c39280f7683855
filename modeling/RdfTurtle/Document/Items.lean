import RdfTurtle.Document.Statement

/-! # The items of a document

Parsing a document yields its triples in order, and an error in place of the rest of each statement
that is at fault. After an error parsing ends, or goes on with the next statement: directly if the
last token was a `.`, otherwise past the next `.` of the input.

* **`Parser.move`** — reads as much as changes what is expected; **`Parser.Moved`** says what a move
  that succeeds has done.
* **`Parser.next`** — the next item, if there is one.
* **`Parser.items`**, **`parse`** — all items, of a parser and of a source; **`Parser.finish`** the
  parser after them.
* **`Parser.measure_of_next`** — each item brings the parser nearer to the end. -/

namespace RdfTurtle

/-- What parsing yields. -/
inductive Item where
  /-- A triple of the document -/
  | triple (t : Triple)
  /-- What is wrong with a statement -/
  | error (e : DocumentError)
  deriving DecidableEq, Repr

namespace Parser

/-- What a move of the parser comes to. -/
inductive Outcome where
  /-- A triple is complete -/
  | triple (t : Triple)
  /-- The statement or the document goes on -/
  | onward
  /-- The document has ended -/
  | finished
  deriving DecidableEq, Repr

/-! ## After an error -/

/-- Prepares for the next statement after an error, or ends parsing. -/
def afterError (p : Parser) (e : DocumentError) : Parser :=
  if p.recover && e.recoverable then
    if p.afterDot then { p with expected := .statement }
    else
      match p.scanner.skipPast '.' with
      | .ok () scanner => { p with scanner, expected := .statement }
      | .error _ scanner => { p with scanner, expected := .nothing }
  else { p with expected := .nothing }

/-- Where a parser stands after an error: before the next statement, behind the dot it has read or
else behind the next one, or at its end. -/
inductive Recovered (p : Parser) (e : DocumentError) : Parser → Prop
  | here (recovers : (p.recover && e.recoverable) = true) (hdot : p.afterDot = true) :
    Recovered p e { p with expected := .statement }
  | behind {scanner : Scanner} (recovers : (p.recover && e.recoverable) = true)
    (hdot : p.afterDot = false) (skip : p.scanner.skipPast '.' = .ok () scanner) :
    Recovered p e { p with scanner, expected := .statement }
  | failed {scanner : Scanner} {fault : LexError} (recovers : (p.recover && e.recoverable) = true)
    (hdot : p.afterDot = false) (skip : p.scanner.skipPast '.' = .error fault scanner) :
    Recovered p e { p with scanner, expected := .nothing }
  | ended (stops : (p.recover && e.recoverable) = false) :
    Recovered p e { p with expected := .nothing }

/-- It stands nowhere else. -/
theorem recovered_of_afterError {p p' : Parser} {e : DocumentError} (h : p.afterError e = p') :
    p.Recovered e p' := by
  subst h
  unfold afterError
  split
  · next recovers =>
    split
    · next hdot => exact .here recovers hdot
    · next hdot =>
      rw [Bool.not_eq_true] at hdot
      cases hskip : p.scanner.skipPast '.' with
      | ok _ scanner => exact .behind recovers hdot hskip
      | error fault scanner => exact .failed recovers hdot hskip
  · next stops => exact .ended (Bool.not_eq_true _ ▸ stops)

/-- Without recovery nothing is expected after an error. -/
theorem afterError_of_stops {p : Parser} {e : DocumentError}
    (h : (p.recover && e.recoverable) = false) : p.afterError e = { p with expected := .nothing } :=
  if_neg (Bool.not_eq_true _ ▸ h)

/-- How far a parser is from the end: the input left, and whether a statement is under way. -/
def measure (p : Parser) : Nat :=
  2 * p.size +
    match p.expected with
    | .nothing => 0
    | .statement => 1
    | .predicate .. | .object .. => 2

/-- The measure is bounded by the input that is left. -/
theorem measure_le (p : Parser) : p.measure ≤ 2 * p.size + 2 := by
  unfold measure
  split <;> omega

/-- There is something to do unless nothing is expected. -/
theorem two_mul_size_lt_measure {p : Parser} (h : p.expected ≠ .nothing) :
    2 * p.size < p.measure := by
  unfold measure
  split
  · exact absurd ‹_› h
  all_goals omega

/-- After an error no more input is left than before. -/
theorem size_afterError_le (p : Parser) (e : DocumentError) : (p.afterError e).size ≤ p.size := by
  generalize hafter : p.afterError e = p'
  cases recovered_of_afterError hafter with
  | here | ended => exact Nat.le_refl _
  | behind _ _ hskip => exact (Scanner.keeps_skipPast '.').ok hskip
  | failed _ _ hskip => exact (Scanner.keeps_skipPast '.').error hskip

/-- After an error no statement is under way. -/
theorem measure_afterError_le (p : Parser) (e : DocumentError) :
    (p.afterError e).measure ≤ 2 * p.size + 1 := by
  have hsize := size_afterError_le p e
  have hmeasure : (p.afterError e).measure ≤ 2 * (p.afterError e).size + 1 := by
    generalize hafter : p.afterError e = p'
    cases recovered_of_afterError hafter with
    | here | behind => exact Nat.le_refl _
    | failed | ended => exact Nat.le_succ _
  omega

/-- After an error at a code point, with no `.` before it, the code point is passed over. -/
theorem measure_afterError_lt {p : Parser} (hend : ¬ p.scanner.atEnd) (hdot : p.afterDot = false)
    (e : DocumentError) : (p.afterError e).measure < 2 * p.size + 1 := by
  have hless := Scanner.size_skipPast_lt '.' hend
  generalize hafter : p.afterError e = p'
  cases recovered_of_afterError hafter with
  | here _ hdot' =>
    rw [hdot] at hdot'
    cases hdot'
  | behind _ _ hskip =>
    rw [hskip] at hless
    simp only [measure, size]
    exact Nat.add_lt_add_right (Nat.mul_lt_mul_of_pos_left hless (by decide)) 1
  | failed _ _ hskip =>
    rw [hskip] at hless
    simp only [measure, size]
    exact Nat.lt_succ_of_le (Nat.mul_le_mul_left 2 (Nat.le_of_lt hless))
  | ended => exact Nat.lt_succ_self _

/-! ## Moves -/

variable [IriLibrary]

/-- Begins a statement, unless the input has ended. -/
def moveStatement : Action Outcome := do
  skipBlank
  if (← get).scanner.atEnd then
    expect .nothing
    return .finished
  else
    readStatement (← lex .statement)
    return .onward

/-- Reads a predicate or the end of the list. -/
def movePredicate (subject : Term) (continued : Bool) : Action Outcome := do
  readPredicate subject continued (← lexAfterBlank .predicate)
  return .onward

/-- Reads an object to the triple that it completes. -/
def moveObject (subject predicate : Term) : Action Outcome := do
  return .triple (← readTriple subject predicate (← lexAfterBlank .object))

/-- Reads what is expected. -/
def move : Action Outcome := fun p =>
  match p.expected with
  | .nothing => .ok .finished p
  | .statement => moveStatement p
  | .predicate subject continued => movePredicate subject continued p
  | .object subject predicate => moveObject subject predicate p

/-- What a move that succeeds has done: nothing more is expected or to be read, or it has read what
is expected. -/
inductive Moved (p : Parser) : Outcome → Parser → Prop
  | stopped (expected : p.expected = .nothing) : Moved p .finished p
  | ended {r : Parser} (expected : p.expected = .statement) (blank : p.skipBlank = .ok () r)
    (hend : r.scanner.atEnd) : Moved p .finished { r with expected := .nothing }
  | began {r s q : Parser} {token : Token} (expected : p.expected = .statement)
    (blank : p.skipBlank = .ok () r) (hend : ¬ r.scanner.atEnd)
    (lex : r.lex .statement = .ok token s) (read : readStatement token s = .ok () q) :
    Moved p .onward q
  | predicate {r q : Parser} {token : Token} {subject : Term} {continued : Bool}
    (expected : p.expected = .predicate subject continued)
    (lex : p.lexAfterBlank .predicate = .ok token r)
    (read : readPredicate subject continued token r = .ok () q) : Moved p .onward q
  | object {r q : Parser} {token : Token} {subject predicate : Term} {t : Triple}
    (expected : p.expected = .object subject predicate)
    (lex : p.lexAfterBlank .object = .ok token r)
    (read : readTriple subject predicate token r = .ok t q) : Moved p (.triple t) q

/-- There is no other way to move. -/
theorem moved_of_move {p q : Parser} {o : Outcome} (h : p.move = .ok o q) : p.Moved o q := by
  -- What is expected decides which of the four forms of a move this is.
  unfold move at h
  split at h
  · next hx =>
    injection h with ho hq
    subst ho hq
    exact .stopped hx
  · next hx =>
    obtain ⟨_, r, hblank, h⟩ := ok_of_bind h
    obtain ⟨_, _, hget, h⟩ := ok_of_bind h
    injection hget with hr hs
    subst hr hs
    split at h
    · next hend =>
      obtain ⟨_, _, hexpect, h⟩ := ok_of_bind h
      injection hexpect with _ hexpect
      injection h with ho hq
      subst ho hq hexpect
      exact .ended hx hblank hend
    · next hend =>
      obtain ⟨token, s, hlex, h⟩ := ok_of_bind h
      obtain ⟨_, _, hread, h⟩ := ok_of_bind h
      injection h with ho hq
      subst ho hq
      exact .began hx hblank hend hlex hread
  · next hx =>
    obtain ⟨token, r, hlex, h⟩ := ok_of_bind h
    obtain ⟨_, _, hread, h⟩ := ok_of_bind h
    injection h with ho hq
    subst ho hq
    exact .predicate hx hlex hread
  · next hx =>
    obtain ⟨token, r, hlex, h⟩ := ok_of_bind h
    obtain ⟨t, _, hread, h⟩ := ok_of_bind h
    injection h with ho hq
    subst ho hq
    exact .object hx hlex hread

/-- Only where an object is expected a triple is completed. -/
theorem expected_of_move_triple {p q : Parser} {t : Triple} (h : p.move = .ok (.triple t) q) :
    ∃ subject predicate, p.expected = .object subject predicate := by
  cases moved_of_move h with
  | object hx => exact ⟨_, _, hx⟩

/-! ## Moves use up input -/

/-- A move in the place of a statement adds nothing to the input. -/
theorem keeps_moveStatement : Keeps size moveStatement := by
  refine keeps_skipBlank.bind fun _ => Keeps.of_get.bind fun p => ?_
  split
  · exact (keeps_expect _).bind fun _ => .pure _
  · exact (keeps_lex _).bind fun token => (keeps_readStatement token).bind fun _ => .pure _

/-- A move in the place of a predicate uses up input. -/
theorem spends_movePredicate (subject : Term) (continued : Bool) :
    Spends size (movePredicate subject continued) :=
  (spends_lexAfterBlank rfl).bind fun _ => (keeps_readPredicate _ _ _).bind fun _ => .pure _

/-- So does a move in the place of an object. -/
theorem spends_moveObject (subject predicate : Term) : Spends size (moveObject subject predicate) :=
  (spends_lexAfterBlank rfl).bind fun _ => (keeps_readTriple _ _ _).bind fun _ => .pure _

/-- No move adds to the input. -/
theorem keeps_move : Keeps size move := by
  intro p
  unfold move
  split
  · exact Nat.le_refl _
  · exact keeps_moveStatement p
  · exact (spends_movePredicate ..).1 p
  · exact (spends_moveObject ..).1 p

/-- A move that does not end the document uses input up. -/
theorem size_of_move {p p' : Parser} {o : Outcome} (h : move p = .ok o p') (ho : o ≠ .finished) :
    p'.size < p.size := by
  cases moved_of_move h with
  | stopped | ended => exact absurd rfl ho
  | began _ hblank _ hlex hread =>
    calc p'.size
      _ ≤ _ := (keeps_readStatement _).ok hread
      _ < _ := (spends_lex rfl).2 hlex
      _ ≤ p.size := keeps_skipBlank.ok hblank
  | predicate _ hlex hread =>
    exact Nat.lt_of_le_of_lt ((keeps_readPredicate _ _ _).ok hread)
      ((spends_lexAfterBlank rfl).2 hlex)
  | object _ hlex hread =>
    exact Nat.lt_of_le_of_lt ((keeps_readTriple _ _ _).ok hread) ((spends_lexAfterBlank rfl).2 hlex)

/-! ## Items -/

/-- The next item, if there is one, and the parser after it. -/
def next (p : Parser) : Option Item × Parser :=
  match _h : move p with
  | .ok (.triple t) p' => (some (.triple t), p')
  | .ok .onward p' => next p'
  | .ok .finished p' => (none, p')
  | .error e p' => (some (.error e), p'.afterError e)
termination_by p.size
decreasing_by exact size_of_move ‹_› (by simp)

section Equations

variable {p p' : Parser}

/-- A completed triple is the next item. -/
theorem next_of_triple {t : Triple} (h : move p = .ok (.triple t) p') :
    next p = (some (.triple t), p') := by
  rw [next]
  split <;> simp_all

/-- What a move leads onward to has the same next item. -/
theorem next_of_onward (h : move p = .ok .onward p') : next p = next p' := by
  rw [next]
  split <;> simp_all

/-- At the end there is no next item. -/
theorem next_of_finished (h : move p = .ok .finished p') : next p = (none, p') := by
  rw [next]
  split <;> simp_all

/-- An error is the next item. -/
theorem next_of_error {e : DocumentError} (h : move p = .error e p') :
    next p = (some (.error e), p'.afterError e) := by
  rw [next]
  split <;> simp_all

end Equations

/-- A statement whose beginning fails leaves less input, or the code point that could not begin
it. -/
theorem size_of_moveStatement_error {p p' : Parser} {e : DocumentError}
    (h : moveStatement p = .error e p') :
    p'.size < p.size ∨ ¬ p'.scanner.atEnd ∧ p'.afterDot = false := by
  rcases error_of_bind h with h | ⟨_, p₁, h₁, h⟩
  · obtain ⟨fault, scanner, hr, rfl, rfl⟩ := of_skipBlank_error h
    exact Or.inl (Scanner.size_of_blank_error hr)
  · have hle := keeps_skipBlank.ok h₁
    rcases error_of_bind h with h | ⟨q, p₂, h₂, h⟩
    · cases h
    · injection h₂ with h₂ h₃
      subst h₂ h₃
      split at h
      · rcases error_of_bind h with h | ⟨_, _, _, h⟩ <;> cases h
      -- The first token fails, or what is read behind it, and then the token is used up.
      · next hend =>
        rcases error_of_bind h with h | ⟨token, p₃, h₃, h⟩
        · obtain ⟨fault, scanner, hr, rfl, rfl⟩ := of_lex_error h
          exact (Scanner.size_of_recognize_error hend hr).imp
            (fun hlt => Nat.lt_of_lt_of_le hlt hle) (fun hcp => ⟨hcp, rfl⟩)
        · have hlt := (spends_lex rfl).2 h₃
          have hk : Keeps size (do readStatement token; return Outcome.onward) :=
            (keeps_readStatement token).bind fun _ => .pure _
          exact Or.inl (Nat.lt_of_le_of_lt (hk.error h) (Nat.lt_of_lt_of_le hlt hle))

/-- A parser that expects nothing does not fail. -/
theorem expected_of_move_error {p p' : Parser} {e : DocumentError} (h : move p = .error e p') :
    p.expected ≠ .nothing := by
  intro hn
  simp [move, hn] at h

/-- A parser that expects nothing has finished. -/
theorem expected_of_move {p p' : Parser} {o : Outcome} (h : move p = .ok o p')
    (ho : o ≠ .finished) : p.expected ≠ .nothing := by
  intro hn
  simp only [move, hn] at h
  injection h with h
  exact ho h.symm

/-- An error brings the parser nearer to the end. -/
theorem measure_of_move_error {p p' : Parser} {e : DocumentError} (h : move p = .error e p') :
    (p'.afterError e).measure < p.measure := by
  have hsize := keeps_move.error h
  have hle := measure_afterError_le p' e
  unfold move at h
  -- Within a statement an error gives up what was expected, which the measure counts.
  split at h
  · cases h
  · next hx =>
    have hp : p.measure = 2 * p.size + 1 := by simp [measure, hx]
    rcases size_of_moveStatement_error h with hlt | ⟨hend, hdot⟩
    · omega
    · have := measure_afterError_lt hend hdot e
      omega
  · next hx =>
    have hp : p.measure = 2 * p.size + 2 := by simp [measure, hx]
    omega
  · next hx =>
    have hp : p.measure = 2 * p.size + 2 := by simp [measure, hx]
    omega

/-- Each item brings the parser nearer to the end. -/
theorem measure_of_next {p p' : Parser} {i : Item} (h : next p = (some i, p')) :
    p'.measure < p.measure := by
  -- A move that does not end the document uses up input, which pays for what is expected next.
  fun_induction next p with
  | case1 p t p₁ hm =>
    injection h with _ h
    subst h
    have := size_of_move hm (by simp)
    have := two_mul_size_lt_measure (expected_of_move hm (by simp))
    have := measure_le p₁
    omega
  | case2 p p₁ hm ih =>
    have := ih h
    have := size_of_move hm (by simp)
    have := two_mul_size_lt_measure (expected_of_move hm (by simp))
    have := measure_le p₁
    omega
  | case3 p p₁ hm => cases h
  | case4 p e p₁ hm =>
    injection h with _ h
    subst h
    exact measure_of_move_error hm

/-- All items of the rest of the document. -/
def items (p : Parser) : List Item :=
  match _h : next p with
  | (some i, p') => i :: items p'
  | (none, _) => []
termination_by p.measure
decreasing_by exact measure_of_next ‹_›

/-- The items begin with the next one. -/
theorem items_of_next {p p' : Parser} {i : Item} (h : next p = (some i, p')) :
    p.items = i :: p'.items := by
  rw [items]
  split <;> simp_all

/-- Without a next item there are no items. -/
theorem items_of_next_none {p p' : Parser} (h : next p = (none, p')) : p.items = [] := by
  rw [items]
  split <;> simp_all

/-- What a move leads onward to has the same items. -/
theorem items_of_onward {p p' : Parser} (h : move p = .ok .onward p') : p.items = p'.items := by
  have hnext := next_of_onward h
  cases hp : next p' with
  | mk i? p'' =>
    rw [hp] at hnext
    cases i? with
    | none => rw [items_of_next_none hnext, items_of_next_none hp]
    | some i => rw [items_of_next hnext, items_of_next hp]

/-- The parser after the last item. -/
def finish (p : Parser) : Parser :=
  match _h : next p with
  | (some _, p') => finish p'
  | (none, p') => p'
termination_by p.measure
decreasing_by exact measure_of_next ‹_›

/-- The parser after the last item comes after the next one. -/
theorem finish_of_next {p p' : Parser} {i : Item} (h : next p = (some i, p')) :
    p.finish = p'.finish := by
  rw [finish]
  split <;> simp_all

/-- Without a next item parsing has come to its end. -/
theorem finish_of_next_none {p p' : Parser} (h : next p = (none, p')) : p.finish = p' := by
  rw [finish]
  split <;> simp_all

/-- What a move leads onward to comes to the same end. -/
theorem finish_of_onward {p p' : Parser} (h : move p = .ok .onward p') :
    p.finish = p'.finish := by
  have hnext := next_of_onward h
  cases hp : next p' with
  | mk i? p'' =>
    rw [hp] at hnext
    cases i? with
    | none => rw [finish_of_next_none hnext, finish_of_next_none hp]
    | some i => rw [finish_of_next hnext, finish_of_next hp]

/-- What is seen of a request for an item: the item, if there is one, and the base and the
namespaces after it. -/
structure Stage where
  item? : Option Item
  base? : Option Iri
  prefixes : PrefixMap
  deriving DecidableEq

/-- What is seen of a number of requests, also of those after the last item. -/
def stages : Nat → Parser → List Stage
  | 0, _ => []
  | n + 1, p => ⟨p.next.1, p.next.2.base?, p.next.2.prefixes⟩ :: stages n p.next.2

end Parser

/-- The items of the document that a source holds. -/
def parse [IriLibrary] (source : Source) (options : ParserOptions := {}) : List Item :=
  match Parser.create source options with
  | .ok p => p.items
  | .error e => [.error e]

end RdfTurtle
