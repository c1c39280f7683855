import RdfTurtle.Decoder
import RdfTurtle.Token.Production

/-! # Scanning

A **scanner** looks one code point ahead of what has been read. Lookaheads that were read too far
are put back and come again, with their positions, before anything new is decoded. When decoding
fails the input ends there: the lookahead becomes the end, at the place of the failure.

* **`Scanner`** — the state, and **`Scanner.queue`** the lookaheads it holds.
* **`Scanner.step`** — moves to the next lookahead; **`Scanner.take`** keeps the text of the current
  one.
* **`Scanner.advance`**, **`Scanner.accumulate`** — the same for a caller, who is told when the
  input has ended.
* **`Scanner.skipPast`** — moves past the next occurrence of a code point.
* **`Scanner.drain`** — the lookaheads still to come, and how they end.
* **`Scanner.size`** — bounds what is still to come; by **`Scanner.size_step_add`** a step past a
  code point uses some of it up. -/

namespace RdfTurtle

/-- A recognized token, its delimiters included and its escapes as written. -/
structure Lexeme where
  production : Production
  text : Text
  position : Position
  deriving DecidableEq, Repr, Inhabited

/-- A scanner. `putBack` holds what comes after `current`, before the decoder; `text` and `start`
belong to the token being read. -/
structure Scanner where
  decoder : Decoder
  current : Lookahead
  putBack : List Lookahead
  text : Text
  start : Position
  options : Options

namespace Scanner

/-- The lookaheads that the scanner holds, the current one first. -/
def queue (s : Scanner) : List Lookahead := s.current :: s.putBack

/-- A scanner over a source. It fails if the first code point cannot be decoded. -/
def ofSource (source : Source) (options : Options) : Except LexError Scanner :=
  match (Decoder.ofSource source options).next with
  | .ok current decoder =>
    .ok ⟨decoder, current, [], .empty options.encoding, current.position, options⟩
  | .error fault decoder => .error ⟨fault, decoder.locator.position⟩

/-- A scanner begins with what is decoded first. -/
theorem of_ofSource_ok {source : Source} {options : Options} {s : Scanner}
    (h : ofSource source options = .ok s) :
    ∃ current decoder, (Decoder.ofSource source options).next = .ok current decoder ∧
      s = ⟨decoder, current, [], .empty options.encoding, current.position, options⟩ := by
  unfold ofSource at h
  split at h
  · next current decoder hnext =>
    injection h with h
    exact ⟨current, decoder, hnext, h.symm⟩
  · cases h

/-- A scanner is not created where the first code point cannot be decoded. -/
theorem of_ofSource_error {source : Source} {options : Options} {e : LexError}
    (h : ofSource source options = .error e) :
    ∃ fault decoder, (Decoder.ofSource source options).next = .error fault decoder ∧
      e = ⟨fault, decoder.locator.position⟩ := by
  unfold ofSource at h
  split at h
  · cases h
  · next fault decoder hnext =>
    injection h with h
    exact ⟨fault, decoder, hnext, h.symm⟩

/-- Whether the input has ended. -/
def atEnd (s : Scanner) : Bool := s.current.codePoint?.isNone

/-- Moves to the next lookahead. -/
def step : EStateM LexError Scanner Unit := fun s =>
  match s.putBack with
  | current :: putBack => .ok () { s with current, putBack }
  | [] =>
    match s.decoder.next with
    | .ok current decoder => .ok () { s with decoder, current }
    | .error fault decoder =>
      let position := decoder.locator.position
      .error ⟨fault, position⟩ { s with decoder, current := ⟨none, position⟩ }

section Steps

variable {s s' : Scanner} {current : Lookahead} {putBack : List Lookahead} {decoder : Decoder}
  {fault : LexFault}

/-- A step takes what is held first. -/
theorem step_of_putBack (h : s.putBack = current :: putBack) :
    step s = .ok () { s with current, putBack } := by
  unfold step
  rw [h]

/-- A step decodes when nothing is held. -/
theorem step_of_next (h : s.putBack = []) (hnext : s.decoder.next = .ok current decoder) :
    step s = .ok () { s with decoder, current } := by
  unfold step
  rw [h]
  dsimp only
  rw [hnext]

/-- A step fails where the next code point cannot be decoded, and comes to the end there. -/
theorem step_of_next_error (h : s.putBack = []) (hnext : s.decoder.next = .error fault decoder) :
    step s = .error ⟨fault, decoder.locator.position⟩
      { s with decoder, current := ⟨none, decoder.locator.position⟩ } := by
  unfold step
  rw [h]
  dsimp only
  rw [hnext]

/-- There is no other way that a step leads. -/
theorem of_step_ok (h : step s = .ok () s') :
    (∃ current putBack, s.putBack = current :: putBack ∧ s' = { s with current, putBack }) ∨
      s.putBack = [] ∧ ∃ current decoder, s.decoder.next = .ok current decoder ∧
        s' = { s with decoder, current } := by
  unfold step at h
  split at h
  · next current putBack hp =>
    injection h with _ h
    exact Or.inl ⟨current, putBack, hp, h.symm⟩
  · next hp =>
    split at h
    · next current decoder hnext =>
      injection h with _ h
      exact Or.inr ⟨hp, current, decoder, hnext, h.symm⟩
    · cases h

/-- A step fails only when nothing is held, and then there is nothing more. -/
theorem of_step_error {e : LexError} (h : step s = .error e s') :
    s.putBack = [] ∧ ∃ fault decoder, s.decoder.next = .error fault decoder ∧
      e = ⟨fault, decoder.locator.position⟩ ∧
        s' = { s with decoder, current := ⟨none, decoder.locator.position⟩ } := by
  unfold step at h
  split at h
  · cases h
  · next hp =>
    split at h
    · cases h
    · next fault decoder hnext =>
      injection h with he h
      exact ⟨hp, fault, decoder, hnext, he.symm, h.symm⟩

end Steps

/-- Appends the code points of `lookaheads` to the text. -/
def keep (lookaheads : List Lookahead) (s : Scanner) : Scanner :=
  { s with text := s.text.append (lookaheads.filterMap Lookahead.codePoint?) }

/-- Keeps the text of the deferred lookaheads and of the current one, and moves on. -/
def take (deferred : List Lookahead) : EStateM LexError Scanner Unit := fun s =>
  step (s.keep (deferred ++ [s.current]))

/-- Puts lookaheads back in front of the current one. -/
def giveBack (s : Scanner) : List Lookahead → Scanner
  | [] => s
  | first :: rest => { s with current := first, putBack := rest ++ s.queue }

/-- What is put back comes next, in its order. -/
@[simp] theorem queue_giveBack (s : Scanner) (ls : List Lookahead) :
    (s.giveBack ls).queue = ls ++ s.queue := by
  cases ls <;> rfl

/-- Begins a token at the current lookahead. -/
def clear (s : Scanner) : Scanner :=
  { s with text := .empty s.options.encoding, start := s.current.position }

/-- The error at a lookahead that no token can go on with. -/
def unexpected (s : Scanner) : LexError :=
  match s.current.codePoint? with
  | some c => ⟨.unexpectedCharacter c, s.current.position⟩
  | none => ⟨.prematureEnd, s.current.position⟩

/-- Moves on without keeping the text, unless the input has ended. -/
def advance : EStateM LexError Scanner Unit := fun s =>
  if s.atEnd then .error ⟨.prematureEnd, s.current.position⟩ s else step s

/-- Keeps the text of the current lookahead and moves on, unless the input has ended. -/
def accumulate : EStateM LexError Scanner Unit := fun s =>
  if s.atEnd then .error ⟨.prematureEnd, s.current.position⟩ s else take [] s

/-! ## The size of what is still to come -/

/-- The code points held and the bytes not yet decoded. -/
def size (s : Scanner) : Nat := Lookahead.total s.queue + s.decoder.size

/-- Lookaheads that are kept in the text do not count. -/
@[simp] theorem size_keep (s : Scanner) (ls : List Lookahead) : (s.keep ls).size = s.size := rfl

/-- Nor do those that are cleared. -/
@[simp] theorem size_clear (s : Scanner) : s.clear.size = s.size := rfl

/-- Lookaheads that are given back count again. -/
@[simp] theorem size_giveBack (s : Scanner) (ls : List Lookahead) :
    (s.giveBack ls).size = Lookahead.total ls + s.size := by
  have hd : (s.giveBack ls).decoder = s.decoder := by cases ls <;> rfl
  simp [size, hd, Nat.add_assoc]

/-- A step never leaves more, and less if it is one past a code point, even if it fails. -/
theorem size_step_add (s : Scanner) : (finalState (step s)).size + s.current.size ≤ s.size := by
  unfold step
  split
  · next hp => simp [size, queue, hp]; omega
  · next hp =>
    split
    · next current decoder hn =>
      rcases current with ⟨_ | c, p⟩
      · have := Decoder.keeps_next.ok hn
        simp [size, queue, hp]
        omega
      · have := Decoder.size_of_next hn
        simp [size, queue, hp]
        omega
    · next hn =>
      have := Decoder.keeps_next.error hn
      simp [size, queue, hp]
      omega

/-- A step past a code point uses it up, even if it fails. -/
theorem size_step_lt {s : Scanner} {c : CodePoint} (hc : s.current.codePoint? = some c) :
    (finalState (step s)).size < s.size := by
  have h := size_step_add s
  have hone : s.current.size = 1 := by simp [Lookahead.size, hc]
  omega

/-- Taking a code point uses it up, even if the step after it fails. -/
theorem size_take_lt {s : Scanner} {c : CodePoint} (deferred : List Lookahead)
    (hc : s.current.codePoint? = some c) : (finalState (take deferred s)).size < s.size :=
  size_step_lt (s := s.keep (deferred ++ [s.current])) hc

/-- There is a code point unless the input has ended. -/
theorem codePoint_of_not_atEnd {s : Scanner} (h : ¬ s.atEnd) :
    ∃ c, s.current.codePoint? = some c :=
  Option.isSome_iff_exists.1 (by simpa [atEnd, ← Option.isSome_iff_ne_none] using h)

/-- Advancing from a code point uses it up, even if it fails. -/
theorem size_advance_lt {s : Scanner} (h : ¬ s.atEnd) :
    (finalState (advance s)).size < s.size := by
  obtain ⟨c, hc⟩ := codePoint_of_not_atEnd h
  simpa [advance, h] using size_step_lt hc

/-! ## Moving past many code points -/

/-- Moves past the next `stop`, or to the end of input if there is none. -/
def skipPast (stop : CodePoint) (s : Scanner) : EStateM.Result LexError Scanner Unit :=
  if _h : s.atEnd then .ok () s
  else
    match _ha : advance s with
    | .error e s' => .error e s'
    | .ok () s' => if s.current.codePoint? = some stop then .ok () s' else skipPast stop s'
termination_by s.size
decreasing_by
  have h := size_advance_lt ‹_›
  rwa [‹advance s = _›] at h

/-- At the end nothing is passed. -/
theorem skipPast_of_atEnd {s : Scanner} (stop : CodePoint) (h : s.atEnd) :
    skipPast stop s = .ok () s := by
  rw [skipPast, dif_pos h]

/-- Before the end one code point is passed, and more unless it is the one looked for. -/
theorem skipPast_of_not_atEnd {s : Scanner} (stop : CodePoint) (h : ¬ s.atEnd) :
    skipPast stop s =
      (advance >>= fun _ s' =>
        if s.current.codePoint? = some stop then .ok () s' else skipPast stop s') s := by
  rw [skipPast, dif_neg h]
  simp only [bind, EStateM.bind]
  split <;> next ha => rw [ha]

/-- The lookaheads up to the end of input, or up to a failure to decode, with the outcome of moving
past them. -/
def drain (s : Scanner) : List Lookahead × EStateM.Result LexError Scanner Unit :=
  if _h : s.atEnd then ([], .ok () s)
  else
    match _ha : advance s with
    | .error e s' => ([s.current], .error e s')
    | .ok () s' =>
      let (rest, outcome) := drain s'
      (s.current :: rest, outcome)
termination_by s.size
decreasing_by
  have h := size_advance_lt ‹_›
  rwa [‹advance s = _›] at h

/-- Moving past a code point never leaves more. -/
theorem keeps_skipPast (stop : CodePoint) : Keeps size (skipPast stop) := by
  intro s
  fun_induction skipPast stop s with
  | case1 s h => exact Nat.le_refl _
  | case2 s h e s' ha =>
    have := size_advance_lt h
    rw [ha] at this
    exact Nat.le_of_lt this
  | case3 s h s' ha hstop =>
    have := size_advance_lt h
    rw [ha] at this
    exact Nat.le_of_lt this
  | case4 s h s' ha hstop ih =>
    have := size_advance_lt h
    rw [ha] at this
    exact Nat.le_trans ih (Nat.le_of_lt this)

/-- Moving past a code point leaves less, unless the input has ended. -/
theorem size_skipPast_lt {s : Scanner} (stop : CodePoint) (h : ¬ s.atEnd) :
    (finalState (skipPast stop s)).size < s.size := by
  have hlt := size_advance_lt h
  unfold skipPast
  rw [dif_neg h]
  split
  · next ha => simpa [ha] using hlt
  · next s' ha =>
    rw [ha, finalState_ok] at hlt
    split
    · exact hlt
    · exact Nat.lt_of_le_of_lt (keeps_skipPast stop s') hlt

end Scanner

end RdfTurtle
