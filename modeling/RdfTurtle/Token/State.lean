import RdfTurtle.CharClass.Grammar
import RdfTurtle.Options
import RdfTurtle.Token.Production

/-! # The token automaton

One automaton recognizes all kinds of token; a recognizer is one of its start states. A state says
what to do with the next code point, if it can go on with it, and which kind of token, if any, is
complete without it.

A token is the longest one that the automaton can complete, but a `.` after a name, a number or a
boolean belongs to the token only if the token goes on behind it. Such a dot is **deferred**: the
next code point that is taken takes it along, and a token that ends first gives it back.

* **`State`** — what of the token has been read, as far as it matters for the rest.
* **`Move`** — what to do with a code point: take it, skip it, defer it, or finish with it.
* **`State.next`** — the move for a code point.
* **`State.accepting`** — the kind of token that is complete in a state. -/

namespace RdfTurtle

/-- Words that begin like the namespace of a prefixed name and are one if they go on as one. -/
inductive Keyword where
  | sparqlBase
  | sparqlPrefix
  | typeWord
  | trueWord
  | falseWord
  deriving DecidableEq, Repr, Inhabited

namespace Keyword

/-- The first letter of the word. -/
def head : Keyword → Char
  | .sparqlBase => 'b'
  | .sparqlPrefix => 'p'
  | .typeWord => 'a'
  | .trueWord => 't'
  | .falseWord => 'f'

/-- The letters after the first. -/
def tail : Keyword → List Char
  | .sparqlBase => ['a', 's', 'e']
  | .sparqlPrefix => ['r', 'e', 'f', 'i', 'x']
  | .typeWord => []
  | .trueWord => ['r', 'u', 'e']
  | .falseWord => ['a', 'l', 's', 'e']

/-- Whether upper-case letters spell the word too. -/
def foldsCase : Keyword → Bool
  | .sparqlBase | .sparqlPrefix => true
  | _ => false

/-- Whether the word is a boolean. -/
def isBoolean : Keyword → Bool
  | .trueWord | .falseWord => true
  | _ => false

/-- The kind of token that the word is. -/
def production : Keyword → Production
  | .sparqlBase => .sparqlBase
  | .sparqlPrefix => .sparqlPrefix
  | .typeWord => .typeWord
  | .trueWord | .falseWord => .boolean

/-- The code point `c` is the letter `x` of the word, in a case that the word admits. -/
def Reads (k : Keyword) (x : Char) (c : CodePoint) : Prop :=
  c = x ∨ k.foldsCase ∧ c = x.toUpper

instance (k : Keyword) (x : Char) (c : CodePoint) : Decidable (k.Reads x c) := by
  unfold Reads
  infer_instance

end Keyword

/-- Parts of tokens in which a backslash or a percent sign begins an escape. -/
inductive Body where
  /-- Between angle brackets -/
  | iri
  /-- In a local name, after its first character -/
  | localName
  /-- Between single marks -/
  | short (quote : Quote)
  /-- Between triple marks, not directly after a mark -/
  | long (quote : Quote)
  deriving DecidableEq, Repr, Inhabited

/-- What of a token has been read. -/
inductive State where
  /-- Nothing -/
  | start (r : Recognizer)
  /-- The `@` of a directive -/
  | directive
  /-- The beginning of a word that goes on with `x` and `rest` and then is a `p` -/
  | spelling (x : Char) (rest : List Char) (p : Production)
  /-- The beginning of a keyword that goes on with `rest`, or of a namespace -/
  | keyword (k : Keyword) (rest : List Char)
  /-- A boolean and, deferred, dots -/
  | booleanDots
  /-- The beginning of a namespace -/
  | namespaceBody
  /-- The beginning of a namespace and dots -/
  | namespaceDots
  /-- The `_` of a blank node label -/
  | labelColon
  /-- The `_:` of a blank node label -/
  | labelFirst
  /-- A blank node label, which may go on -/
  | label
  /-- The part before an escape may begin -/
  | body (b : Body)
  /-- A backslash -/
  | escape (b : Body)
  /-- An escape that needs `n + 1` more hexadecimal digits -/
  | hex (n : Nat) (b : Body)
  /-- The mark that opens a string -/
  | openedOnce (q : Quote)
  /-- Two marks: an empty string, or the opening of a long one -/
  | openedTwice (q : Quote)
  /-- In a long string, one mark that may close it -/
  | closingOnce (q : Quote)
  /-- In a long string, two marks that may close it -/
  | closingTwice (q : Quote)
  /-- The sign of a number -/
  | sign
  /-- Digits -/
  | integer
  /-- Digits and, deferred, a dot -/
  | integerDot
  /-- The dot of a number without digits before it -/
  | leadingDot
  /-- Digits after a dot -/
  | fraction
  /-- The letter of an exponent -/
  | exponent
  /-- The sign of an exponent -/
  | exponentSign
  /-- The digits of an exponent -/
  | exponentDigits
  /-- The `@` of a language tag -/
  | tagFirst
  /-- The letters of a language tag -/
  | tag
  /-- The hyphen before a subtag -/
  | subtagFirst
  /-- A subtag -/
  | subtag
  /-- The first `^` of a datatype mark -/
  | caret
  /-- The beginning of a comment -/
  | comment
  deriving DecidableEq, Repr, Inhabited

/-- What to do with a code point. -/
inductive Move where
  /-- Take it, and what is deferred before it, into the token -/
  | take (s : State)
  /-- Pass over it -/
  | skip (s : State)
  /-- Leave open whether it belongs to the token -/
  | defer (s : State)
  /-- Take it and end the token -/
  | finish (p : Production)
  deriving DecidableEq, Repr, Inhabited

namespace Move

/-- In a namespace: the colon ends it, dots may only stand inside. -/
def ofNamespace (c : CodePoint) : Option Move :=
  if c = ':' then some (.finish .namespaceName)
  else if c ∈ CharClass.nameChar then some (.take .namespaceBody)
  else if c = '.' then some (.take .namespaceDots)
  else none

/-- At the first character of an IRI reference or of a namespace. -/
def ofResource (c : CodePoint) : Option Move :=
  if c = '<' then some (.take (.body .iri))
  else if c = ':' then some (.finish .namespaceName)
  else if c ∈ CharClass.nameStart then some (.take .namespaceBody)
  else none

/-- At the first character of a keyword, which the caller has told from the other tokens. -/
def ofKeyword (k : Keyword) : Option Move := some (.take (.keyword k k.tail))

/-- At a terminator. -/
def ofTerminator (c : CodePoint) : Option Move :=
  if c = ';' then some (.finish .semicolon)
  else if c = ',' then some (.finish .comma)
  else if c = '.' then some (.finish .dot)
  else none

/-- At the letter that says how many hexadecimal digits an escape has. -/
def ofNumericEscape (b : Body) (c : CodePoint) : Option Move :=
  if c = 'u' then some (.take (.hex 3 b))
  else if c = 'U' then some (.take (.hex 7 b))
  else none

end Move

open Move in
/-- The move for a code point, or `none` where the token cannot go on with it. Only the check on
IRI references depends on the options. -/
def State.next (iri : Strictness) : State → CodePoint → Option Move
  -- The places of the grammar, in their order.
  | .start .statement, c =>
    if c = '@' then some (.take .directive)
    else if c = '_' then some (.take .labelColon)
    else if Keyword.sparqlBase.Reads 'b' c then ofKeyword .sparqlBase
    else if Keyword.sparqlPrefix.Reads 'p' c then ofKeyword .sparqlPrefix
    else ofResource c
  | .start .predicate, c =>
    if c = 'a' then ofKeyword .typeWord
    else if c = ';' then some (.finish .semicolon)
    else if c = '.' then some (.finish .dot)
    else ofResource c
  -- The dot of `.5` stays deferred until a digit comes, and is given back if none does.
  | .start .object, c =>
    if c = '_' then some (.take .labelColon)
    else if c = '.' then some (.defer .leadingDot)
    else if c = 't' then ofKeyword .trueWord
    else if c = 'f' then ofKeyword .falseWord
    else if c = '"' then some (.take (.openedOnce .double))
    else if c = '\'' then some (.take (.openedOnce .single))
    else if c ∈ CharClass.sign then some (.take .sign)
    else if c ∈ CharClass.digit then some (.take .integer)
    else ofResource c
  | .start .iriRef, c => if c = '<' then some (.take (.body .iri)) else none
  | .start .namespaceName, c =>
    if c = ':' then some (.finish .namespaceName)
    else if c ∈ CharClass.nameStart then some (.take .namespaceBody)
    else none
  | .start .localName, c =>
    if c ∈ CharClass.localStart then some (.take (.body .localName))
    else if c = '%' then some (.take (.hex 1 .localName))
    else if c = '\\' then some (.take (.escape .localName))
    else none
  | .start .blankNodeLabel, c => if c = '_' then some (.take .labelColon) else none
  | .start .string, c =>
    if c = '"' then some (.take (.openedOnce .double))
    else if c = '\'' then some (.take (.openedOnce .single))
    else none
  | .start .number, c =>
    if c ∈ CharClass.sign then some (.take .sign)
    else if c ∈ CharClass.digit then some (.take .integer)
    else if c = '.' then some (.take .leadingDot)
    else none
  | .start .boolean, c =>
    if c = 't' then some (.take (.spelling 'r' ['u', 'e'] .boolean))
    else if c = 'f' then some (.take (.spelling 'a' ['l', 's', 'e'] .boolean))
    else none
  | .start .languageTag, c => if c = '@' then some (.take .tagFirst) else none
  | .start .terminator, c => ofTerminator c
  | .start .literalSuffix, c =>
    if c = '@' then some (.take .tagFirst)
    else if c = '^' then some (.take .caret)
    else ofTerminator c
  | .start .datatype, c => ofResource c
  | .start .blank, c =>
    if c ∈ CharClass.blank then some (.skip (.start .blank))
    else if c = '#' then some (.skip .comment)
    else none
  -- Words and names. A keyword that does not go on as one goes on as a namespace.
  | .directive, c =>
    if c = 'b' then some (.take (.spelling 'a' ['s', 'e'] .atBase))
    else if c = 'p' then some (.take (.spelling 'r' ['e', 'f', 'i', 'x'] .atPrefix))
    else none
  | .spelling x [] p, c => if c = x then some (.finish p) else none
  | .spelling x (y :: rest) p, c => if c = x then some (.take (.spelling y rest p)) else none
  | .keyword k [], c =>
    if k.isBoolean ∧ c = '.' then some (.defer .booleanDots) else ofNamespace c
  | .keyword k (x :: rest), c =>
    if k.Reads x c then some (.take (.keyword k rest)) else ofNamespace c
  | .booleanDots, c =>
    if c ∈ CharClass.nameChar then some (.take .namespaceBody)
    else if c = '.' then some (.defer .booleanDots)
    else none
  | .namespaceBody, c => ofNamespace c
  | .namespaceDots, c =>
    if c ∈ CharClass.nameChar then some (.take .namespaceBody)
    else if c = '.' then some (.take .namespaceDots)
    else none
  | .labelColon, c => if c = ':' then some (.take .labelFirst) else none
  | .labelFirst, c => if c ∈ CharClass.labelStart then some (.take .label) else none
  | .label, c =>
    if c ∈ CharClass.nameChar then some (.take .label)
    else if c = '.' then some (.defer .label)
    else none
  -- Bodies, and the escapes in them.
  | .body .iri, c =>
    if iri = .strict ∧ c ∈ CharClass.iriForbidden then none
    else if c = '>' then some (.finish .iriRef)
    else if c = '\\' then some (.take (.escape .iri))
    else some (.take (.body .iri))
  | .body .localName, c =>
    if c ∈ CharClass.localChar then some (.take (.body .localName))
    else if c = '%' then some (.take (.hex 1 .localName))
    else if c = '\\' then some (.take (.escape .localName))
    else if c = '.' then some (.defer (.body .localName))
    else none
  | .body (.short q), c =>
    if c = q.char then some (.finish (.shortString q))
    else if c = '\\' then some (.take (.escape (.short q)))
    else if c ∈ CharClass.lineEnd then none
    else some (.take (.body (.short q)))
  | .body (.long q), c =>
    if c = q.char then some (.take (.closingOnce q))
    else if c = '\\' then some (.take (.escape (.long q)))
    else some (.take (.body (.long q)))
  | .escape .iri, c => ofNumericEscape .iri c
  | .escape .localName, c =>
    if c ∈ CharClass.localEscape then some (.take (.body .localName)) else none
  | .escape b, c =>
    if c ∈ CharClass.stringEscape then some (.take (.body b)) else ofNumericEscape b c
  | .hex n b, c =>
    if c ∈ CharClass.hexDigit then
      match n with
      | 0 => some (.take (.body b))
      | n + 1 => some (.take (.hex n b))
    else none
  -- The marks of strings. A body that an escape interrupted goes on behind it.
  | .openedOnce q, c =>
    if c = q.char then some (.take (.openedTwice q))
    else if c = '\\' then some (.take (.escape (.short q)))
    else if c ∈ CharClass.lineEnd then none
    else some (.take (.body (.short q)))
  | .openedTwice q, c => if c = q.char then some (.take (.body (.long q))) else none
  | .closingOnce q, c =>
    if c = q.char then some (.take (.closingTwice q))
    else if c = '\\' then some (.take (.escape (.long q)))
    else some (.take (.body (.long q)))
  | .closingTwice q, c =>
    if c = q.char then some (.finish (.longString q))
    else if c = '\\' then some (.take (.escape (.long q)))
    else some (.take (.body (.long q)))
  -- Numbers.
  | .sign, c =>
    if c ∈ CharClass.digit then some (.take .integer)
    else if c = '.' then some (.take .leadingDot)
    else none
  | .integer, c =>
    if c ∈ CharClass.digit then some (.take .integer)
    else if c = '.' then some (.defer .integerDot)
    else if c ∈ CharClass.exponentMark then some (.take .exponent)
    else none
  | .integerDot, c =>
    if c ∈ CharClass.digit then some (.take .fraction)
    else if c ∈ CharClass.exponentMark then some (.take .exponent)
    else none
  | .leadingDot, c => if c ∈ CharClass.digit then some (.take .fraction) else none
  | .fraction, c =>
    if c ∈ CharClass.digit then some (.take .fraction)
    else if c ∈ CharClass.exponentMark then some (.take .exponent)
    else none
  | .exponent, c =>
    if c ∈ CharClass.sign then some (.take .exponentSign)
    else if c ∈ CharClass.digit then some (.take .exponentDigits)
    else none
  | .exponentSign, c => if c ∈ CharClass.digit then some (.take .exponentDigits) else none
  | .exponentDigits, c => if c ∈ CharClass.digit then some (.take .exponentDigits) else none
  -- Language tags, the datatype mark and comments.
  | .tagFirst, c => if c ∈ CharClass.letter then some (.take .tag) else none
  | .tag, c =>
    if c ∈ CharClass.letter then some (.take .tag)
    else if c = '-' then some (.take .subtagFirst)
    else none
  | .subtagFirst, c => if c ∈ CharClass.letterOrDigit then some (.take .subtag) else none
  | .subtag, c =>
    if c ∈ CharClass.letterOrDigit then some (.take .subtag)
    else if c = '-' then some (.take .subtagFirst)
    else none
  | .caret, c => if c = '^' then some (.finish .datatypeMark) else none
  | .comment, c => some (.skip (if c ∈ CharClass.lineEnd then .start .blank else .comment))

/-- The kind of token that is complete in a state. -/
def State.accepting : State → Option Production
  | .start .localName | .body .localName => some .localName
  | .start .blank | .comment => some .blank
  | .keyword k [] => some k.production
  | .booleanDots => some .boolean
  | .label => some .blankNodeLabel
  | .openedTwice q => some (.shortString q)
  | .integer | .integerDot => some .integer
  | .fraction => some .decimal
  | .exponentDigits => some .double
  | .tag | .subtag => some .languageTag
  | _ => none

namespace State

/-- Nothing has been taken, and no token is complete: the start of a token that may not be empty,
and the dot that an object defers before anything is taken. -/
def Untaken (s : State) : Prop := (∃ r, s = .start r ∧ r.nullable = false) ∨ s = .leadingDot

/-- Nothing taken, nothing complete. -/
theorem accepting_of_untaken {s : State} (h : s.Untaken) : s.accepting = none := by
  rcases h with ⟨r, rfl, hr⟩ | rfl
  · cases r <;> first | rfl | exact Bool.noConfusion hr
  · rfl

/-- Among blanks: at a blank or before one, or in a comment. -/
def Blank (s : State) : Prop := s = .start .blank ∨ s = .comment

/-- A run of blanks may end anywhere. -/
theorem accepting_of_blank {s : State} (h : s.Blank) : s.accepting = some .blank := by
  rcases h with rfl | rfl <;> rfl

/-- A run of blanks only skips, and stays a run of blanks. -/
theorem skips_of_blank {iri : Strictness} {s : State} {c : CodePoint} {m : Move} (h : s.Blank)
    (hm : s.next iri c = some m) : ∃ s', m = .skip s' ∧ s'.Blank := by
  rcases h with rfl | rfl
  · simp only [next] at hm
    split at hm
    · injection hm with hm
      exact ⟨_, hm.symm, Or.inl rfl⟩
    · split at hm
      · injection hm with hm
        exact ⟨_, hm.symm, Or.inr rfl⟩
      · cases hm
  · simp only [next] at hm
    injection hm with hm
    refine ⟨_, hm.symm, ?_⟩
    split
    · exact Or.inl rfl
    · exact Or.inr rfl

/-- If the move defers, its state satisfies `q`. -/
def DefersInto (q : State → Prop) (m : Option Move) : Prop := ∀ s, m = some (.defer s) → q s

/-- A choice defers into `q` if both its branches do. -/
theorem DefersInto.ite {q : State → Prop} {p : Prop} [Decidable p] {a b : Option Move}
    (ha : DefersInto q a) (hb : DefersInto q b) : DefersInto q (if p then a else b) := by
  split
  · exact ha
  · exact hb

/-- Before anything is taken only the leading dot of a number is deferred. -/
theorem defersInto_start {iri : Strictness} {r : Recognizer} (hr : r.nullable = false)
    (c : CodePoint) : DefersInto (· = .leadingDot) (next iri (.start r) c) := by
  cases r <;> first
    | exact Bool.noConfusion hr
    | repeat' apply DefersInto.ite
      all_goals
        intro s h
        cases h
        try rfl

/-- Deferring before anything is taken leads to a state of the same sort. -/
theorem untaken_of_defer {iri : Strictness} {s s' : State} {c : CodePoint} (h : s.Untaken)
    (hm : s.next iri c = some (.defer s')) : s'.Untaken := by
  rcases h with ⟨r, rfl, hr⟩ | rfl
  · exact Or.inr (defersInto_start hr c s' hm)
  · simp only [next] at hm
    split at hm <;> cases hm

end State

end RdfTurtle
