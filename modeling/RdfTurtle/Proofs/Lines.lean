import Mathlib.Data.List.DropRight
import Mathlib.Data.List.Forall2
import RdfTurtle.Proofs.Delivery
import RdfTurtle.Proofs.Likeness

/-! # Lines of a text

How many lines a text ends decides on which line it goes on, and how much comes behind the last of
them in which column. What is read further down in a text shows the same, on lines with higher
numbers.

* **`lineEnds`**, **`lastLine`** — the number of line ends in a text, whatever they are, and what
  comes behind the last of them.
* **`ExactPosition`**, **`ExactPosition.behind`** — positions without a bound, and the one behind a
  text; **`ExactPosition.counted`** what counters of 32 bits show of it.
* **`Locator.passAll_start`** — the locator behind a text.
* **`Position.down`**, **`Item.down`** — the same a number of lines further down.
* **`Likeness.down`** — what is read on other lines is alike. -/

namespace RdfTurtle

/-! ## Line ends -/

/-- The code point ends a line if `cs` come after it: a line feed does, and a carriage return that
is not directly followed by one. -/
def EndsLine (c : CodePoint) (cs : List CodePoint) : Prop :=
  c = '\n' ∨ c = '\r' ∧ cs.head? ≠ some ('\n' : CodePoint)

instance (c : CodePoint) (cs : List CodePoint) : Decidable (EndsLine c cs) :=
  inferInstanceAs (Decidable (_ ∨ _))

/-- The number of line ends: carriage returns, line feeds, and carriage returns with the line feed
after them, which end one line together. -/
def lineEnds : List CodePoint → Nat
  | [] => 0
  | c :: cs => (if EndsLine c cs then 1 else 0) + lineEnds cs

example : lineEnds (['a', '\r', '\n', '\n', '\r', 'b'].map CodePoint.ofChar) = 3 := by decide

/-- What comes behind the last line end of a text. -/
def lastLine (cs : List CodePoint) : List CodePoint :=
  cs.rtakeWhile fun c => c ≠ ('\r' : CodePoint) ∧ c ≠ ('\n' : CodePoint)

/-- A text has at most as many line ends as code points. -/
theorem lineEnds_le (cs : List CodePoint) : lineEnds cs ≤ cs.length := by
  induction cs with
  | nil => exact Nat.le_refl _
  | cons c cs ih =>
    rw [lineEnds, List.length_cons]
    split <;> omega

/-- The last line is not longer than the text. -/
theorem length_lastLine_le (cs : List CodePoint) : (lastLine cs).length ≤ cs.length :=
  (List.rtakeWhile_suffix _ _).length_le

/-- A code point that ends a line leaves nothing behind it. -/
theorem lastLine_concat (cs : List CodePoint) (c : CodePoint) :
    lastLine (cs ++ [c]) = if c = '\r' ∨ c = '\n' then [] else lastLine cs ++ [c] := by
  rw [lastLine, List.rtakeWhile_concat]
  by_cases hreturn : c = '\r' <;> by_cases hfeed : c = '\n' <;> simp [hreturn, hfeed, lastLine]

/-- What a code point at the end of a text adds to its line ends: a line feed that follows a
carriage return ends the line that this has ended. -/
theorem lineEnds_concat (cs : List CodePoint) (c : CodePoint) :
    lineEnds (cs ++ [c]) = lineEnds cs +
      if c = '\r' ∨ c = '\n' ∧ cs.getLast? ≠ some ('\r' : CodePoint) then 1 else 0 := by
  induction cs with
  | nil => simp [lineEnds, EndsLine, or_comm]
  | cons d cs ih =>
    cases cs with
    | nil =>
      -- The code point that was the last one is a line end of its own if it is no carriage return
      -- or no line feed follows it.
      by_cases hd : d = '\r' <;> by_cases hc : c = '\n' <;>
        simp [lineEnds, EndsLine, hd, hc, or_comm]
    | cons e cs =>
      have hends : EndsLine d (e :: cs ++ [c]) ↔ EndsLine d (e :: cs) := by simp [EndsLine]
      have hfirst := if_congr hends (rfl : 1 = 1) (rfl : 0 = 0)
      rw [List.cons_append, lineEnds, hfirst, ih, List.getLast?_cons_cons, ← Nat.add_assoc]
      rfl

/-! ## Exact positions -/

/-- A line and a column, both counted from 1 and without a bound. -/
@[ext] structure ExactPosition where
  line : Nat
  column : Nat
  deriving DecidableEq, Repr, Inhabited

namespace ExactPosition

/-- What counters of 32 bits show of a position. -/
def counted (p : ExactPosition) : Position := ⟨.ofNat p.line, .ofNat p.column⟩

/-- The position behind a text: as many lines further down as the text has line ends, and as many
columns further on as there are code points behind the last of them. -/
def behind (cs : List CodePoint) : ExactPosition := ⟨1 + lineEnds cs, 1 + (lastLine cs).length⟩

example : behind (['a', '\r', '\n', 'b', 'c'].map CodePoint.ofChar) = ⟨2, 3⟩ := by decide

/-- The first position of the next line. -/
def nextLine (p : ExactPosition) : ExactPosition := ⟨p.line + 1, 1⟩

/-- The position one column to the right. -/
def nextColumn (p : ExactPosition) : ExactPosition := ⟨p.line, p.column + 1⟩

/-- The counters go on to the next line with the position. -/
theorem counted_nextLine (p : ExactPosition) : p.nextLine.counted = p.counted.nextLine :=
  Position.ext (UInt32.ofNat_add _ _) rfl

/-- The counters go on to the next column with the position. -/
theorem counted_nextColumn (p : ExactPosition) : p.nextColumn.counted = p.counted.nextColumn :=
  Position.ext rfl (UInt32.ofNat_add _ _)

/-- How the position goes on with a code point. -/
theorem behind_concat (cs : List CodePoint) (c : CodePoint) :
    behind (cs ++ [c]) =
      if c = '\r' then (behind cs).nextLine
      else if c = '\n' then
        if cs.getLast? = some ('\r' : CodePoint) then behind cs else (behind cs).nextLine
      else (behind cs).nextColumn := by
  have hdistinct : ('\n' : CodePoint) ≠ '\r' := by decide
  by_cases hreturn : c = '\r'
  · simp [behind, lineEnds_concat, lastLine_concat, hreturn, nextLine, Nat.add_assoc]
  · by_cases hfeed : c = '\n'
    · by_cases hafter : cs.getLast? = some ('\r' : CodePoint)
      · -- The carriage return has ended the line, and nothing stands behind it.
        have hempty : lastLine cs = [] := by
          obtain ⟨before, rfl⟩ := List.getLast?_eq_some_iff.1 hafter
          rw [lastLine_concat, if_pos (Or.inl rfl)]
        simp [behind, lineEnds_concat, lastLine_concat, hfeed, hafter, hdistinct, hempty]
      · simp [behind, lineEnds_concat, lastLine_concat, hfeed, hafter, hdistinct, nextLine,
          Nat.add_assoc]
    · simp [behind, lineEnds_concat, lastLine_concat, hreturn, hfeed, nextColumn, Nat.add_assoc]

end ExactPosition

/-- The position behind a text, as it is counted. -/
def Position.behind (cs : List CodePoint) : Position := (ExactPosition.behind cs).counted

namespace Locator

/-- The locator behind a text. -/
def passAll (l : Locator) (cs : List CodePoint) : Locator := cs.foldl pass l

/-- **A locator that passes a text from the start comes to the position behind it.** -/
theorem passAll_start (cs : List CodePoint) :
    start.passAll cs = ⟨.behind cs, cs.getLast? = some ('\r' : CodePoint)⟩ := by
  induction cs using List.reverseRecOn with
  | nil => rfl
  | append_singleton cs c ih =>
    have hdistinct : ('\n' : CodePoint) ≠ '\r' := by decide
    have hlast : start.passAll (cs ++ [c]) = (start.passAll cs).pass c := List.foldl_append
    have hbehind := congrArg ExactPosition.counted (ExactPosition.behind_concat cs c)
    rw [hlast, ih, pass, List.getLast?_concat, Position.behind, Position.behind, hbehind]
    by_cases hreturn : c = '\r'
    · simp [hreturn, ExactPosition.counted_nextLine]
    · by_cases hfeed : c = '\n'
      · by_cases hafter : cs.getLast? = some ('\r' : CodePoint) <;>
          simp [hfeed, hafter, hdistinct, ExactPosition.counted_nextLine]
      · simp [hreturn, hfeed, ExactPosition.counted_nextColumn]

end Locator

/-! ## Further down -/

/-- The position `n` lines further down. -/
def Position.down (n : Nat) (p : Position) : Position := ⟨p.line + .ofNat n, p.column⟩

/-- The error `n` lines further down. -/
def LexError.down (n : Nat) (e : LexError) : LexError := ⟨e.fault, e.position.down n⟩

/-- The error `n` lines further down. -/
def DocumentError.down (n : Nat) : DocumentError → DocumentError
  | .lex e => .lex (e.down n)
  | .unknownPrefix name p => .unknownPrefix name (p.down n)
  | .invalidIri iri reason p => .invalidIri iri reason (p.down n)
  | .invalidEscape p => .invalidEscape (p.down n)
  | .unexpectedToken production p => .unexpectedToken production (p.down n)

/-- The item `n` lines further down, which is the same triple or the same error there. -/
def Item.down (n : Nat) : Item → Item
  | .triple t => .triple t
  | .error e => .error (e.down n)

namespace Likeness

variable {n : Nat}

/-- The same is seen, in the second text `n` lines further down. -/
def down (n : Nat) : Likeness where
  Positions p p' := p' = p.down n
  Texts := Eq
  Decoders := fun _ _ => True
  Admits := fun _ => True

/-- An error that is alike but further down is that many lines further down. -/
theorem down_of_lexErrors {e e' : LexError} (h : (down n).LexErrors e e') : e' = e.down n :=
  congrArg₂ LexError.mk h.fault.symm h.position

/-- So is an error of a document. -/
theorem down_of_documentErrors {e e' : DocumentError} (h : (down n).DocumentErrors e e') :
    e' = e.down n := by
  cases h with
  | lex error => rw [down_of_lexErrors error, DocumentError.down]
  | unknownPrefix _ position | invalidIri _ _ position | invalidEscape position
  | unexpectedToken _ position =>
    rw [show _ = _ from position]
    rfl

/-- **Alike items are the same, further down.** -/
theorem down_of_items {items items' : List Item} (h : List.Forall₂ (down n).Items items items') :
    items' = items.map (Item.down n) := by
  induction h with
  | nil => rfl
  | cons hi _ ih =>
    rw [List.map_cons, ← ih]
    cases hi with
    | triple => rfl
    | error error => rw [down_of_documentErrors error, Item.down]

end Likeness

/-- Locators of which the second is `n` lines further down. -/
def Locator.Down (n : Nat) (l l' : Locator) : Prop :=
  l'.position = l.position.down n ∧ l'.afterReturn = l.afterReturn

/-- **Behind a text that ends with a line feed a new line begins**, as many lines further down as
the text has line ends. -/
theorem Locator.down_passAll {cs : List CodePoint} (h : cs.getLast? = some ('\n' : CodePoint)) :
    Locator.Down (lineEnds cs) start (start.passAll cs) := by
  have hempty : lastLine cs = [] := by
    obtain ⟨before, rfl⟩ := List.getLast?_eq_some_iff.1 h
    rw [lastLine_concat, if_pos (Or.inr rfl)]
  rw [passAll_start, h]
  refine ⟨Position.ext (UInt32.ofNat_add _ _) ?_, rfl⟩
  show UInt32.ofNat (1 + (lastLine cs).length) = 1
  rw [hempty]
  rfl

/-- They stay so when the same is passed. -/
theorem Locator.tracks_down (n : Nat) :
    Decoder.Tracks (Locator.Down n) (Likeness.down n).Positions where
  position _ _ h := h.1
  pass l l' c h := by
    obtain ⟨position, afterReturn⟩ := l
    obtain ⟨position', afterReturn'⟩ := l'
    obtain ⟨rfl, rfl⟩ : position' = position.down n ∧ afterReturn' = afterReturn := h
    have hline : (position.down n).nextLine = position.nextLine.down n :=
      Position.ext (show position.line + .ofNat n + 1 = position.line + 1 + .ofNat n by ac_rfl) rfl
    unfold pass
    dsimp only
    split
    · exact ⟨hline, rfl⟩
    · split
      · split
        · exact ⟨rfl, rfl⟩
        · exact ⟨hline, rfl⟩
      · exact ⟨rfl, rfl⟩

end RdfTurtle
