import RdfTurtle.Proofs.Comparison.Scanner
import RdfTurtle.Proofs.Pursuit

/-! # Comparing two parsers

Parsers over corresponding scanners do the same, up to where their inputs part: they read alike
tokens, make the same declarations, complete the same triples and fail with alike errors.

* **`Comparison.Parsers`** — parsers that correspond, and **`Comparison.Actions`** actions that keep
  to that.
* **`Comparison.follows_move`**, **`Comparison.follows_pursue`** — they move alike and pursue alike
  items, unless they part.
* **`Comparison.alike_next`**, **`Comparison.alike_items`** — if they cannot part and recover alike,
  all their items are alike. -/

namespace RdfTurtle.Comparison

open Likeness

variable {c : Comparison}

/-- Corresponding parsers: over corresponding scanners, otherwise the same. -/
structure Parsers (c : Comparison) (p p' : Parser) : Prop where
  scanner : c.Scanners p.scanner p'.scanner
  base : p.base? = p'.base?
  prefixes : p.prefixes = p'.prefixes
  expected : p.expected = p'.expected
  recover : c.Recoveries p.recover p'.recover
  afterDot : p.afterDot = p'.afterDot

/-- How two parsers may part: the first has a spent scanner. -/
def parsing (c : Comparison) : Parting Parser DocumentError :=
  ⟨fun p => p.scanner.Spent, c.Parts, c.onward⟩

/-- Actions of corresponding parsers lead to corresponding parsers and to results related by `V`,
unless they part. -/
abbrev Actions {α : Type} (c : Comparison) (V : α → α → Prop) (x x' : Parser.Action α) : Prop :=
  Follows c.parsing c.DocumentErrors c.Parsers V x x'

instance : Serial c.Tokens := ⟨fun t =>
  let ⟨p, hp⟩ := c.total t.position
  ⟨⟨t.production, t.chars, p⟩, rfl, rfl, hp⟩⟩

/-! ## Tokens and IRIs -/

/-- Alike lexemes give alike tokens. -/
theorem tokens_ofLexeme {l l' : Lexeme} (h : c.Lexemes l l') :
    c.Tokens (.ofLexeme l) (.ofLexeme l') :=
  ⟨h.production, c.chars h.text, h.position⟩

/-- An action that is a recognition, apart from what it does with its outcome, follows as the
recognition does. -/
theorem follows_of_recognize {α : Type} {V : α → α → Prop} {x : Parser.Action α} (r : Recognizer)
    (hfinal : ∀ p, (finalState (x p)).scanner = finalState (p.scanner.recognize r))
    (hfault : ∀ p, fault? (x p) = (fault? (p.scanner.recognize r)).map .lex)
    (halike : ∀ ⦃p p'⦄, c.Parsers p p' → Alike c.LexErrors c.Scanners c.Lexemes
      (p.scanner.recognize r) (p'.scanner.recognize r) →
      Alike c.DocumentErrors c.Parsers V (x p) (x p')) :
    c.Actions V x x := by
  have hrecognize := follows_recognize (c := c) r
  refine ⟨fun p hp => ?_, fun p p' h => ?_⟩
  · show (finalState (x p)).scanner.Spent
    rw [hfinal]
    exact hrecognize.stays hp
  · refine (hrecognize.alike h.scanner).imp (halike h) fun ⟨hended, hparts⟩ => ⟨?_, ?_⟩
    · show (finalState (x p)).scanner.Spent
      rw [hfinal]
      exact hended
    · show c.Parts (fault? (x p'))
      rw [hfault]
      exact hparts

/-- A token is read alike. -/
theorem follows_lex (r : Recognizer) : c.Actions c.Tokens (Parser.lex r) (Parser.lex r) := by
  refine follows_of_recognize r (fun p => ?_) (fun p => ?_) fun p p' h hr => ?_
  · unfold Parser.lex
    split <;> next hs => rw [hs]; rfl
  · unfold Parser.lex
    split <;> next hs => rw [hs]; rfl
  · unfold Parser.lex
    cases hs : p.scanner.recognize r with
    | ok l scanner =>
      rw [hs] at hr
      obtain ⟨l', scanner', hs', hl, hscanner⟩ := hr.of_ok
      simp only [hs']
      exact .ok (tokens_ofLexeme hl)
        { h with scanner := hscanner, afterDot := by rw [hl.production] }
    | error e scanner =>
      rw [hs] at hr
      obtain ⟨e', scanner', hs', he, hscanner⟩ := hr.of_error
      simp only [hs']
      exact .error (.lex he) { h with scanner := hscanner, afterDot := rfl }

/-- Parsers pass over blanks alike if their scanners read them alike. -/
theorem alike_skipBlank {p p' : Parser}
    (hr : Alike c.LexErrors c.Scanners c.Lexemes (p.scanner.recognize .blank)
      (p'.scanner.recognize .blank))
    (h : ∀ ⦃s s'⦄, c.Scanners s s' → c.Parsers { p with scanner := s } { p' with scanner := s' }) :
    Alike c.DocumentErrors c.Parsers Eq p.skipBlank p'.skipBlank := by
  unfold Parser.skipBlank
  cases hs : p.scanner.recognize .blank with
  | ok l scanner =>
    rw [hs] at hr
    obtain ⟨l', scanner', hs', hl, hscanner⟩ := hr.of_ok
    simp only [hs']
    exact .ok rfl (h hscanner)
  | error e scanner =>
    rw [hs] at hr
    obtain ⟨e', scanner', hs', he, hscanner⟩ := hr.of_error
    simp only [hs']
    exact .error (.lex he) (h hscanner)

/-- Blanks are passed over alike. -/
theorem follows_skipBlank : c.Actions Eq Parser.skipBlank Parser.skipBlank := by
  refine follows_of_recognize .blank (fun p => ?_) (fun p => ?_) fun p p' h hr => ?_
  · unfold Parser.skipBlank
    split <;> next hs => rw [hs]; rfl
  · unfold Parser.skipBlank
    split <;> next hs => rw [hs]; rfl
  · exact alike_skipBlank hr fun _ _ hscanner => { h with scanner := hscanner }

/-- A token behind blanks is read alike. -/
theorem follows_lexAfterBlank (r : Recognizer) :
    c.Actions c.Tokens (Parser.lexAfterBlank r) (Parser.lexAfterBlank r) :=
  follows_skipBlank.bind fun _ _ _ => follows_lex r

/-- Both parsers come to expect the same. -/
theorem follows_expect (expected : Expected) :
    c.Actions Eq (Parser.expect expected) (Parser.expect expected) :=
  .of_modify (fun _ hp => hp) fun _ _ h => { h with expected := rfl }

variable [IriLibrary]

/-- A reference is resolved against the same base, and where that fails the errors stand at
corresponding places. -/
theorem follows_resolve (reference : List Char) {position position' : Position}
    (hp : c.Positions position position') :
    c.Actions Eq (Parser.resolve reference position) (Parser.resolve reference position') := by
  apply Follows.of_get
  · intro p hspent
    cases p.base? with
    | none => exact hspent
    | some base =>
      dsimp only
      cases IriLibrary.resolve base reference with
      | ok iri => exact hspent
      | error e => exact hspent
  · intro p p' h
    rw [h.base]
    cases p'.base? with
    | none => exact Or.inl (.ok rfl h)
    | some base =>
      dsimp only
      cases IriLibrary.resolve base reference with
      | ok iri => exact Or.inl (.ok rfl h)
      | error e => exact Or.inl (.error (.invalidIri _ _ hp) h)

omit [IriLibrary] in
/-- Alike tokens are expanded by the same namespaces. -/
theorem follows_expand {t t' : Token} (ht : c.Tokens t t') :
    c.Actions Eq (Parser.expand t) (Parser.expand t') := by
  have hname : Parser.namespaceName t = Parser.namespaceName t' := by
    unfold Parser.namespaceName
    rw [ht.chars]
  have hlocal (iri : String) : c.Actions Eq
      (do let rest ← Parser.lex .localName
          return iri ++ String.ofList (Escape.localName rest.chars))
      (do let rest ← Parser.lex .localName
          return iri ++ String.ofList (Escape.localName rest.chars)) := by
    apply (follows_lex .localName).bind
    intro l l' hl
    rw [hl.chars]
    exact .pure rfl
  apply Follows.of_get
  · intro p hspent
    cases p.prefixes.find? (Parser.namespaceName t) with
    | none => exact hspent
    | some iri => exact (hlocal iri).stays hspent
  · intro p p' h
    rw [h.prefixes, hname]
    cases p'.prefixes.find? (Parser.namespaceName t') with
    | none => exact Or.inl (.error (.unknownPrefix _ ht.position) h)
    | some iri => exact (hlocal iri).alike h

/-- Alike tokens stand for the same IRI. -/
theorem follows_resource {t t' : Token} (ht : c.Tokens t t') :
    c.Actions Eq (Parser.resource t) (Parser.resource t') := by
  unfold Parser.resource
  rw [ht.production, inner_eq ht 1]
  split
  · cases Escape.iri? (t'.inner 1) with
    | none => exact .throw (.invalidEscape ht.position)
    | some reference => exact follows_resolve reference ht.position
  · exact follows_expand ht
  · exact .throw (errors_unexpected ht)

/-! ## Directives -/

omit [IriLibrary] in
/-- The dot of a directive is read alike. -/
theorem follows_readDot : c.Actions Eq Parser.readDot Parser.readDot := by
  apply (follows_lexAfterBlank .terminator).bind
  intro t t' ht
  rw [ht.production]
  split
  · exact .pure rfl
  · exact .throw (errors_unexpected ht)

/-- Alike declarations: alike tokens and the same IRI. -/
def Declared (c : Comparison) (d d' : Token × String) : Prop := c.Tokens d.1 d'.1 ∧ d.2 = d'.2

instance : Serial c.Declared := ⟨fun d =>
  let ⟨t, ht⟩ := Serial.exists_related (V := c.Tokens) d.1
  ⟨⟨t, d.2⟩, ht, rfl⟩⟩

/-- The IRI of a directive is read alike. -/
theorem follows_readDeclared (dotted : Bool) :
    c.Actions c.Declared (Parser.readDeclared dotted) (Parser.readDeclared dotted) := by
  apply (follows_lexAfterBlank .iriRef).bind
  intro t t' ht
  apply (follows_resource ht).bind
  intro iri iri' hiri
  cases dotted with
  | false => exact .pure ⟨ht, hiri⟩
  | true => exact follows_readDot.bind fun _ _ _ => .pure ⟨ht, hiri⟩

/-- Both parsers declare the same base. -/
theorem follows_readBase (dotted : Bool) :
    c.Actions Eq (Parser.readBase dotted) (Parser.readBase dotted) := by
  apply (follows_readDeclared dotted).bind
  intro d d' hd
  obtain ⟨t, iri⟩ := d
  obtain ⟨t', iri'⟩ := d'
  obtain ⟨ht, rfl⟩ : c.Tokens t t' ∧ iri = iri' := hd
  dsimp only
  cases IriLibrary.parse iri.toList with
  | ok base => exact .of_modify (fun _ hp => hp) fun _ _ h => { h with base := rfl }
  | error e => exact .throw (.invalidIri _ _ ht.position)

/-- Both parsers declare the same namespace. -/
theorem follows_readPrefix (dotted : Bool) :
    c.Actions Eq (Parser.readPrefix dotted) (Parser.readPrefix dotted) := by
  apply (follows_lexAfterBlank .namespaceName).bind
  intro n n' hn
  apply (follows_readDeclared dotted).bind
  intro d d' hd
  refine .of_modify (fun _ hp => hp) fun p p' h => { h with prefixes := ?_ }
  unfold Parser.namespaceName
  rw [h.prefixes, hn.chars, hd.2]

/-! ## Statements -/

/-- An IRI is named, and what comes next is set. -/
theorem follows_named {t t' : Token} (ht : c.Tokens t t') (expected : String → Expected) :
    c.Actions Eq (do let iri ← Parser.resource t; Parser.expect (expected iri))
      (do let iri ← Parser.resource t'; Parser.expect (expected iri)) := by
  apply (follows_resource ht).bind
  rintro iri _ rfl
  exact follows_expect _

/-- Alike first tokens begin alike statements. -/
theorem follows_readStatement {t t' : Token} (ht : c.Tokens t t') :
    c.Actions Eq (Parser.readStatement t) (Parser.readStatement t') := by
  unfold Parser.readStatement
  rw [ht.production, label_eq ht]
  split
  · exact follows_readBase true
  · exact follows_readBase false
  · exact follows_readPrefix true
  · exact follows_readPrefix false
  · exact follows_named ht fun iri => .predicate (.iri iri) false
  · exact follows_named ht fun iri => .predicate (.iri iri) false
  · exact follows_expect _
  · exact .throw (errors_unexpected ht)

/-- Alike tokens in the place of a predicate are read alike. -/
theorem follows_readPredicate (subject : Term) (continued : Bool) {t t' : Token}
    (ht : c.Tokens t t') :
    c.Actions Eq (Parser.readPredicate subject continued t)
      (Parser.readPredicate subject continued t') := by
  unfold Parser.readPredicate
  rw [ht.production]
  split
  · split
    · exact follows_expect _
    · exact .throw (errors_unexpected ht)
  · split
    · exact follows_expect _
    · exact .throw (errors_unexpected ht)
  · exact follows_expect _
  · exact follows_named ht fun iri => .object subject (.iri iri)

/-- Alike objects: the same term, ended by alike tokens. -/
def Objects (c : Comparison) (o o' : Term × Token) : Prop := o.1 = o'.1 ∧ c.Tokens o.2 o'.2

instance : Serial c.Objects := ⟨fun o =>
  let ⟨t, ht⟩ := Serial.exists_related (V := c.Tokens) o.2
  ⟨⟨o.1, t⟩, rfl, ht⟩⟩

omit [IriLibrary] in
/-- What ends an object is read alike. -/
theorem follows_readTerminator : c.Actions c.Tokens Parser.readTerminator Parser.readTerminator :=
  follows_lexAfterBlank .terminator

omit [IriLibrary] in
/-- A term that is known is an object once the token after it is read. -/
theorem follows_ended (term : Term) :
    c.Actions c.Objects (do return (term, ← Parser.readTerminator))
      (do return (term, ← Parser.readTerminator)) :=
  follows_readTerminator.bind fun _ _ ht => .pure ⟨rfl, ht⟩

/-- What follows a string is read alike. -/
theorem follows_readSuffix (lexical : String) :
    c.Actions c.Objects (Parser.readSuffix lexical) (Parser.readSuffix lexical) := by
  apply (follows_lexAfterBlank .literalSuffix).bind
  intro t t' ht
  rw [ht.production, ht.chars]
  split
  · exact follows_ended _
  · apply (follows_lexAfterBlank .datatype).bind
    intro d d' hd
    apply (follows_resource hd).bind
    rintro iri _ rfl
    exact follows_ended _
  · exact .pure ⟨rfl, ht⟩

/-- A string stands for the same literal. -/
theorem follows_readString (n : Nat) {t t' : Token} (ht : c.Tokens t t') :
    c.Actions c.Objects (Parser.readString n t) (Parser.readString n t') := by
  unfold Parser.readString
  rw [inner_eq ht n]
  cases Escape.string? (t'.inner n) with
  | none => exact .throw (.invalidEscape ht.position)
  | some lexical => exact follows_readSuffix _

omit [IriLibrary] in
/-- A literal of a known datatype is read alike. -/
theorem follows_readTyped (datatype : String) {t t' : Token} (ht : c.Tokens t t') :
    c.Actions c.Objects (Parser.readTyped datatype t) (Parser.readTyped datatype t') := by
  unfold Parser.readTyped
  rw [ht.chars]
  exact follows_ended _

/-- Alike tokens in the place of an object are read alike. -/
theorem follows_readObject {t t' : Token} (ht : c.Tokens t t') :
    c.Actions c.Objects (Parser.readObject t) (Parser.readObject t') := by
  have hresource : c.Actions c.Objects
      (do let iri ← Parser.resource t; return (.iri iri, ← Parser.readTerminator))
      (do let iri ← Parser.resource t'; return (.iri iri, ← Parser.readTerminator)) := by
    apply (follows_resource ht).bind
    rintro iri _ rfl
    exact follows_ended _
  unfold Parser.readObject
  rw [ht.production, label_eq ht]
  split
  · exact hresource
  · exact hresource
  · exact follows_ended _
  · exact follows_readTyped _ ht
  · exact follows_readTyped _ ht
  · exact follows_readTyped _ ht
  · exact follows_readTyped _ ht
  · exact follows_readString 1 ht
  · exact follows_readString 3 ht
  · exact .throw (errors_unexpected ht)

/-- Both parsers complete the same triple. -/
theorem follows_readTriple (subject predicate : Term) {t t' : Token} (ht : c.Tokens t t') :
    c.Actions Eq (Parser.readTriple subject predicate t)
      (Parser.readTriple subject predicate t') := by
  apply (follows_readObject ht).bind
  intro o o' ho
  obtain ⟨object, ended⟩ := o
  obtain ⟨object', ended'⟩ := o'
  obtain ⟨rfl, hended⟩ : object = object' ∧ c.Tokens ended ended' := ho
  dsimp only
  rw [hended.production]
  exact (follows_expect _).bind fun _ _ _ => .pure rfl

/-! ## Moves -/

/-- What begins a statement behind blanks. -/
theorem follows_begin : c.Actions Eq Parser.beginStatement Parser.beginStatement := by
  have hfinish : c.Actions Eq (do Parser.expect .nothing; return Parser.Outcome.finished)
      (do Parser.expect .nothing; return Parser.Outcome.finished) :=
    (follows_expect _).bind fun _ _ _ => .pure rfl
  have hbegin : c.Actions Eq
      (do Parser.readStatement (← Parser.lex .statement); return Parser.Outcome.onward)
      (do Parser.readStatement (← Parser.lex .statement); return Parser.Outcome.onward) := by
    apply (follows_lex .statement).bind
    intro t t' ht
    exact (follows_readStatement ht).bind fun _ _ _ => .pure rfl
  apply Follows.of_get
  · intro p hspent
    split
    · exact hfinish.stays hspent
    · exact hbegin.stays hspent
  · intro p p' h
    rw [atEnd_eq h.scanner]
    split
    · exact hfinish.alike h
    · exact hbegin.alike h

/-- A move in the place of a statement is made alike. -/
theorem follows_moveStatement : c.Actions Eq Parser.moveStatement Parser.moveStatement :=
  follows_skipBlank.bind fun _ _ _ => follows_begin

/-- A move in the place of a predicate is made alike. -/
theorem follows_movePredicate (subject : Term) (continued : Bool) :
    c.Actions Eq (Parser.movePredicate subject continued)
      (Parser.movePredicate subject continued) := by
  apply (follows_lexAfterBlank .predicate).bind
  intro t t' ht
  exact (follows_readPredicate _ _ ht).bind fun _ _ _ => .pure rfl

/-- A move in the place of an object is made alike. -/
theorem follows_moveObject (subject predicate : Term) :
    c.Actions Eq (Parser.moveObject subject predicate) (Parser.moveObject subject predicate) := by
  apply (follows_lexAfterBlank .object).bind
  intro t t' ht
  apply (follows_readTriple _ _ ht).bind
  rintro triple _ rfl
  exact .pure rfl

/-- **Corresponding parsers move alike**, unless they part. -/
theorem follows_move : c.Actions Eq Parser.move Parser.move := by
  refine ⟨fun p hspent => ?_, fun p p' h => ?_⟩
  · unfold Parser.move
    split
    · exact hspent
    · exact follows_moveStatement.stays hspent
    · exact (follows_movePredicate _ _).stays hspent
    · exact (follows_moveObject _ _).stays hspent
  · unfold Parser.move
    rw [← h.expected]
    split
    · exact Or.inl (.ok rfl h)
    · exact follows_moveStatement.alike h
    · exact (follows_movePredicate _ _).alike h
    · exact (follows_moveObject _ _).alike h

/-! ## Items -/

/-- **Corresponding parsers pursue alike items**, unless they part. The induction is on the moves of
the first of them. -/
theorem follows_pursue : c.Actions Eq Parser.pursue Parser.pursue := by
  have hstays ⦃p : Parser⦄ (hp : p.scanner.Spent) : (finalState p.pursue).scanner.Spent := by
    fun_induction Parser.pursue p with
    | case1 p t q hm | case3 p q hm | case4 p e q hm =>
      have hmove := (follows_move (c := c)).stays hp
      rw [hm] at hmove
      exact hmove
    | case2 p q hm ih =>
      have hmove := (follows_move (c := c)).stays hp
      rw [hm] at hmove
      exact ih hmove
  refine ⟨hstays, fun p p' h => ?_⟩
  induction hn : p.size using Nat.strongRecOn generalizing p p' with
  | ind n ih =>
    subst hn
    rw [Parser.pursue_eq, Parser.pursue_eq]
    -- Where the moves part nothing more is asked; where they agree the rest is pursued alike.
    apply (follows_move.alike h).bind
    · intro o q hq
      cases o with
      | triple | finished => exact hq
      | onward => exact hstays hq
    · rintro o _ q q' hm rfl hq
      cases o with
      | triple t => exact Or.inl (.ok rfl hq)
      | finished => exact Or.inl (.ok rfl hq)
      | onward => exact ih _ (Parser.size_of_move hm (by simp)) q q' hq rfl

/-- After a move both parsers go on alike. -/
theorem follows_goOn (o : Parser.Outcome) : c.Actions Eq (Parser.goOn o) (Parser.goOn o) := by
  cases o with
  | triple t => exact .pure rfl
  | onward => exact follows_pursue
  | finished => exact .pure rfl

omit [IriLibrary] in
/-- Parsers that recover alike from alike errors still correspond, if they skip alike. -/
theorem parsers_afterError {p p' : Parser} {e e' : DocumentError}
    (hrecover : p.recover = p'.recover) (h : c.Parsers p p') (he : c.DocumentErrors e e')
    (hskip : p.afterDot = false → Alike c.LexErrors c.Scanners Eq (p.scanner.skipPast '.')
      (p'.scanner.skipPast '.')) :
    c.Parsers (p.afterError e) (p'.afterError e') := by
  have hsame : c.Recoveries p.recover p.recover := by
    have hcorrespond := h.recover
    rwa [← hrecover] at hcorrespond
  unfold Parser.afterError
  rw [← recoverable_eq he, ← hrecover, ← h.afterDot]
  split
  · split
    · exact { h with expected := rfl, recover := hsame, afterDot := rfl }
    -- What was skipped is alike in both, so that both stand behind the same dot or at the end.
    · next hdot =>
      have hskip := hskip (Bool.not_eq_true _ ▸ hdot)
      cases hs : p.scanner.skipPast '.' with
      | ok _ scanner =>
        rw [hs] at hskip
        obtain ⟨_, scanner', hs', _, hscanner⟩ := hskip.of_ok
        simp only [hs']
        exact { h with
          scanner := hscanner, expected := rfl, recover := hsame, afterDot := rfl }
      | error _ scanner =>
        rw [hs] at hskip
        obtain ⟨_, scanner', hs', _, hscanner⟩ := hskip.of_error
        simp only [hs']
        exact { h with
          scanner := hscanner, expected := rfl, recover := hsame, afterDot := rfl }
  · exact { h with expected := rfl, recover := hsame, afterDot := rfl }

/-- What comes next in the first parser comes next in the second. -/
theorem exists_next_of_some {p p' q : Parser} {i : Item} (hn : p.next = (some i, q))
    (h : Option.Rel c.Items p.next.1 p'.next.1 ∧ c.Parsers p.next.2 p'.next.2) :
    ∃ i' q', p'.next = (some i', q') ∧ c.Items i i' ∧ c.Parsers q q' := by
  rw [hn] at h
  obtain ⟨hitem, hparser⟩ := h
  cases hn' : p'.next with
  | mk i? q' =>
    rw [hn'] at hitem hparser
    cases hitem with
    | some hitem => exact ⟨_, q', rfl, hitem, hparser⟩

/-- Nor does anything come next in the second where nothing does in the first. -/
theorem exists_next_of_none {p p' q : Parser} (hn : p.next = (none, q))
    (h : Option.Rel c.Items p.next.1 p'.next.1 ∧ c.Parsers p.next.2 p'.next.2) :
    ∃ q', p'.next = (none, q') ∧ c.Parsers q q' := by
  rw [hn] at h
  obtain ⟨hitem, hparser⟩ := h
  cases hn' : p'.next with
  | mk i? q' =>
    rw [hn'] at hitem hparser
    cases hitem with
    | none => exact ⟨q', rfl, hparser⟩

section Total

variable (hnever : ∀ o, ¬ c.Parts o) (hrecover : ∀ ⦃b b'⦄, c.Recoveries b b' → b = b')

include hnever hrecover

/-- Parsers with alike pursuits have alike next items, and correspond after them, if they cannot
part. -/
theorem alike_next_of_pursue {p p' : Parser}
    (h : Alike c.DocumentErrors c.Parsers Eq p.pursue p'.pursue) :
    Option.Rel c.Items p.next.1 p'.next.1 ∧ c.Parsers p.next.2 p'.next.2 := by
  rw [Parser.next_of_pursue, Parser.next_of_pursue]
  cases hp : p.pursue with
  | ok t? q =>
    rw [hp] at h
    obtain ⟨t?', q', hp', rfl, hq⟩ := h.of_ok
    rw [hp']
    cases t? with
    | none => exact ⟨.none, hq⟩
    | some t => exact ⟨.some (.triple t), hq⟩
  | error e q =>
    rw [hp] at h
    obtain ⟨e', q', hp', he, hq⟩ := h.of_error
    rw [hp']
    exact ⟨.some (.error he), parsers_afterError (hrecover hq.recover) hq he fun _ =>
      ((follows_skipPast (c := c) '.').alike hq.scanner).resolve fun o => hnever _⟩

/-- Corresponding parsers that cannot part have alike next items, and correspond after them. -/
theorem alike_next {p p' : Parser} (h : c.Parsers p p') :
    Option.Rel c.Items p.next.1 p'.next.1 ∧ c.Parsers p.next.2 p'.next.2 :=
  alike_next_of_pursue hnever hrecover ((follows_pursue.alike h).resolve hnever)

/-- All items are alike where the next ones are. The induction is the recursion of the items of the
first parser; the second is led along with it. -/
theorem alike_items_of_next {p p' : Parser}
    (h : Option.Rel c.Items p.next.1 p'.next.1 ∧ c.Parsers p.next.2 p'.next.2) :
    List.Forall₂ c.Items p.items p'.items := by
  fun_induction Parser.items p generalizing p' with
  | case1 p i q hn ih =>
    obtain ⟨i', q', hn', hitem, hparser⟩ := exists_next_of_some hn h
    rw [Parser.items_of_next hn']
    exact .cons hitem (ih (alike_next hnever hrecover hparser))
  | case2 p q hn =>
    obtain ⟨q', hn', -⟩ := exists_next_of_none hn h
    rw [Parser.items_of_next_none hn']
    exact .nil

/-- All items of corresponding parsers that cannot part are alike. -/
theorem alike_items {p p' : Parser} (h : c.Parsers p p') :
    List.Forall₂ c.Items p.items p'.items :=
  alike_items_of_next hnever hrecover (alike_next hnever hrecover h)

end Total

end RdfTurtle.Comparison
