import RdfTurtle.Document.Items
import RdfTurtle.Proofs.Reading

/-! # Reading the parts of statements

Each move of a parser reads one part of a statement: a directive, a subject, a predicate, a
semicolon, or an object up to what ends it.

* **`Parser.reads_readDeclared`** — the IRI that a directive declares.
* **`Parser.reads_statement`** — the first token of a statement, and what it begins;
  **`Parser.reads_base`**, **`Parser.reads_namespace`**, **`Parser.reads_subject`** the three kinds.
* **`Parser.reads_verb`**, **`Parser.reads_semicolon`**, **`Parser.reads_dot`** — what may stand in
  the place of a predicate.
* **`Parser.reads_object`** — an object with the token that ends it. -/

namespace RdfTurtle

open Syntax

/-- Whether a dot ends the directive. -/
def Syntax.Form.isDotted {word : List Char} : Form word → Bool
  | .dotted _ => true
  | .bare _ => false

/-- A word that is spelled has letters. -/
theorem Syntax.Spelling.chars_ne_nil {word : List Char} (hword : word ≠ [])
    (spelling : Spelling word) : spelling.chars ≠ [] := by
  intro h
  have hcase := spelling.anyCase
  rw [h] at hcase
  cases hcase
  exact hword rfl

/-- A string has its marks. -/
theorem Syntax.StringToken.text_ne_nil (s : StringToken) : s.text ≠ [] := by
  cases s <;> simp [text, marks]

/-- A number has a digit. -/
theorem Syntax.Number.text_ne_nil (n : Number) : n.text ≠ [] := by
  cases n with
  | integer sign digits => simp [text, digits.nonempty]
  | decimal sign before after => simp [text]
  | double sign mantissa mark h exponentSign exponent => simp [text]

namespace Parser

variable {iri : Strictness} {c : Context} {e : Expected} {rest : List CodePoint} {b : Blanks}

/-! ## Terminators -/

/-- The characters that end an object, each with the kind of token that it is. -/
inductive Ends : Char → Production → Prop
  | semicolon : Ends ';' .semicolon
  | comma : Ends ',' .comma
  | dot : Ends '.' .dot

/-- What ends an object is read wherever it may stand. -/
theorem accepts_ends {x : Char} {q : Production} (h : Ends x q) {r : Recognizer}
    (hr : r = .terminator ∨ r = .literalSuffix) :
    State.Accepts iri q rest (.start r) [] [x] := by
  apply State.Accepts.finish
  cases h <;> rcases hr with rfl | rfl <;> simp [State.next, Move.ofTerminator]

/-- The token that ends an object is read. -/
theorem reads_readTerminator (g : Gap) {x : Char} {q : Production} (h : Ends x q) :
    Reads iri ⟨c, e, codes g.text ++ (x : CodePoint) :: rest⟩ readTerminator
      (·.production = q) ⟨c, e, rest⟩ :=
  (reads_lexAfterBlank g.blanks (accepts_ends h (Or.inl rfl)) (by simp) (by simp)).mono
    fun _ ht => ht.1

/-! ## Directives -/

/-- The dot of a directive is read. -/
theorem reads_readDot (g : Gap) :
    Reads iri ⟨c, e, codes g.text ++ (CodePoint.ofChar '.' :: rest)⟩ readDot (fun _ => True)
      ⟨c, e, rest⟩ := by
  have hdot : State.Accepts iri .dot rest (.start .terminator) [] ['.'] :=
    accepts_ends .dot (Or.inl rfl)
  apply (reads_lexAfterBlank g.blanks hdot (by simp) (by simp)).bind
  intro token ht
  rw [if_pos ht.1]
  exact .pure trivial

variable [IriLibrary]

/-- The IRI that a directive declares is read, with the end of the directive. -/
theorem reads_readDeclared {word : List Char} (form : Form word) (g : Gap) (r : IriRef iri)
    {resolved : String} (h : resolve? c r.reference = some resolved) :
    Reads iri ⟨c, e, codes g.text ++ (codes r.text ++ (codes form.closing ++ rest))⟩
      (readDeclared form.isDotted) (·.2 = resolved) ⟨c, e, rest⟩ := by
  have haccepts : State.Accepts iri .iriRef (codes form.closing ++ rest) (.start .iriRef) []
      r.text := r.accepts (next_of_bracket (Or.inr rfl))
  apply (reads_lexAfterBlank g.blanks haccepts (by simp) (by simp [IriRef.text])).bind
  intro token ht
  apply (reads_iriRef r ht h).bind
  intro named hnamed
  cases form with
  | dotted gap =>
    rw [Form.closing, codes_append, List.append_assoc]
    exact (reads_readDot gap).bind fun _ _ => .pure hnamed
  | bare spelling => exact .pure hnamed

/-- A base is declared. -/
theorem reads_readBase {word : List Char} (form : Form word) (g : Gap) (r : IriRef iri)
    {resolved : String} {base : Iri} (h : resolve? c r.reference = some resolved)
    (hbase : IriLibrary.parse resolved.toList = .ok base) :
    Reads iri ⟨c, e, codes g.text ++ (codes r.text ++ (codes form.closing ++ rest))⟩
      (readBase form.isDotted) (fun _ => True) ⟨{ c with base? := some base }, e, rest⟩ := by
  apply (reads_readDeclared form g r h).bind
  rintro ⟨token, named⟩ hdeclared
  obtain rfl : named = resolved := hdeclared
  simp only [hbase]
  exact fun p hp => ⟨(), _, rfl, trivial, hp.awaits, hp.strictness, rfl, hp.prefixes, hp.expected⟩

/-- A namespace is declared. -/
theorem reads_readPrefix {word : List Char} (form : Form word) (before : Gap) (n : Namespace)
    (g : Gap) (r : IriRef iri) {resolved : String} (h : resolve? c r.reference = some resolved) :
    Reads iri ⟨c, e, codes before.text ++
        (codes n.text ++ (codes g.text ++ (codes r.text ++ (codes form.closing ++ rest))))⟩
      (readPrefix form.isDotted) (fun _ => True)
      ⟨{ c with prefixes := c.prefixes.insert n.name resolved }, e, rest⟩ := by
  apply (reads_lexAfterBlank before.blanks (n.accepts (Or.inr rfl)) (by simp)
    (by simp [Namespace.text])).bind
  intro token ht
  apply (reads_readDeclared form g r h).bind
  intro declared hdeclared
  have hname : namespaceName token = n.name := by
    rw [namespaceName, ht.2, Namespace.text, List.dropLast_concat]
    rfl
  obtain ⟨token', named⟩ := declared
  obtain rfl : named = resolved := hdeclared
  rw [← hname]
  intro p hp
  refine ⟨(), _, rfl, trivial, hp.awaits, hp.strictness, hp.base, ?_, hp.expected⟩
  show p.prefixes.insert _ _ = c.prefixes.insert _ _
  rw [hp.prefixes]

/-! ## The first token of a statement -/

/-- Blanks at the end of the document are passed over, and the parser has finished. -/
theorem reads_end (b : Blanks) :
    Reads iri ⟨c, .statement, codes b.text⟩ move (· = .finished) ⟨c, .nothing, []⟩ := by
  have hsolid : Solid [] := fun c hc => by cases hc
  have hread : Reads iri ⟨c, .statement, codes b.text ++ []⟩ moveStatement (· = .finished)
      ⟨c, .nothing, []⟩ := by
    apply (reads_skipBlank b hsolid).bind
    intro _ _
    apply Reads.of_get
    intro p hp
    rw [hp.awaits.atEnd]
    exact (reads_expect .nothing).bind fun _ _ => .pure rfl
  rw [List.append_nil] at hread
  intro p hp
  simp only [move, hp.expected]
  exact hread p hp

/-- A statement is begun by its first token. -/
theorem reads_statement {production : Production} {text : List Char} {finish : Place} (b : Blanks)
    (h : State.Accepts iri production rest (.start .statement) [] text) (htext : text ≠ [])
    (hread : ∀ token, Token.Is production text token →
      Reads iri ⟨c, .statement, rest⟩ (readStatement token) (fun _ => True) finish) :
    Reads iri ⟨c, .statement, codes b.text ++ (codes text ++ rest)⟩ move (· = .onward) finish := by
  have hmore : Reads iri ⟨c, .statement, codes b.text ++ (codes text ++ rest)⟩ moveStatement
      (· = .onward) finish := by
    apply (reads_skipBlank b (h.solid (by simp) htext)).bind
    intro _ _
    apply Reads.of_get
    intro p hp
    -- The token is not empty, so the document does not end here.
    have hend : p.scanner.atEnd = false := by
      rw [hp.awaits.atEnd]
      cases text with
      | nil => exact absurd rfl htext
      | cons x text => rfl
    rw [hend]
    exact (reads_lex h).bind fun token ht => (hread token ht).bind fun _ _ => .pure rfl
  intro p hp
  simp only [move, hp.expected]
  exact hmore p hp

/-- A declaration of a base. -/
theorem reads_base (b : Blanks) (form : Form ['b', 'a', 's', 'e']) (g : Gap) (r : IriRef iri)
    {resolved : String} {base : Iri} (h : resolve? c r.reference = some resolved)
    (hbase : IriLibrary.parse resolved.toList = .ok base) :
    Reads iri ⟨c, .statement, codes b.text ++ (codes form.opening ++
        (codes g.text ++ (codes r.text ++ (codes form.closing ++ rest))))⟩
      move (· = .onward) ⟨{ c with base? := some base }, .statement, rest⟩ := by
  have hread : Reads iri
      ⟨c, .statement, codes g.text ++ (codes r.text ++ (codes form.closing ++ rest))⟩
      (readBase form.isDotted) (fun _ => True)
      ⟨{ c with base? := some base }, .statement, rest⟩ :=
    reads_readBase form g r h hbase
  cases form with
  | dotted gap =>
    apply reads_statement b accepts_atBase (List.cons_ne_nil _ _)
    intro token ht
    rw [readStatement, ht.1]
    exact hread
  | bare spelling =>
    apply reads_statement b (accepts_sparqlBase spelling g.separated)
      (spelling.chars_ne_nil (List.cons_ne_nil _ _))
    intro token ht
    rw [readStatement, ht.1]
    exact hread

/-- A declaration of a namespace. -/
theorem reads_namespace (b : Blanks) (form : Form ['p', 'r', 'e', 'f', 'i', 'x'])
    (before : Gap) (n : Namespace) (g : Gap) (r : IriRef iri) {resolved : String}
    (h : resolve? c r.reference = some resolved) :
    Reads iri ⟨c, .statement, codes b.text ++ (codes form.opening ++ (codes before.text ++
        (codes n.text ++ (codes g.text ++ (codes r.text ++ (codes form.closing ++ rest))))))⟩
      move (· = .onward)
      ⟨{ c with prefixes := c.prefixes.insert n.name resolved }, .statement, rest⟩ := by
  have hread : Reads iri ⟨c, .statement, codes before.text ++
        (codes n.text ++ (codes g.text ++ (codes r.text ++ (codes form.closing ++ rest))))⟩
      (readPrefix form.isDotted) (fun _ => True)
      ⟨{ c with prefixes := c.prefixes.insert n.name resolved }, .statement, rest⟩ :=
    reads_readPrefix form before n g r h
  cases form with
  | dotted gap =>
    apply reads_statement b accepts_atPrefix (List.cons_ne_nil _ _)
    intro token ht
    rw [readStatement, ht.1]
    exact hread
  | bare spelling =>
    apply reads_statement b (accepts_sparqlPrefix spelling before.separated)
      (spelling.chars_ne_nil (List.cons_ne_nil _ _))
    intro token ht
    rw [readStatement, ht.1]
    exact hread

omit [IriLibrary] in
/-- The label of a blank node. -/
theorem label_of_is (l : Label) {token : Token} (ht : token.Is .blankNodeLabel l.text) :
    label token = String.ofList l.chars := by
  rw [label, ht.2]
  rfl

/-- A subject. -/
theorem reads_subject (b : Blanks) (s : Subject iri) {term : Term} (h : s.term? c = some term)
    (hrest : Separated rest) :
    Reads iri ⟨c, .statement, codes b.text ++ (codes s.text ++ rest)⟩ move (· = .onward)
      ⟨c, .predicate term false, rest⟩ := by
  cases s with
  | ref r =>
    obtain ⟨named, hnamed, rfl⟩ := Option.map_eq_some_iff.1 h
    -- A name is lexed in two tokens: the statement begins with the first, and `resource` reads on.
    rw [Subject.text, ← r.head_append_tail, codes_append, List.append_assoc]
    apply reads_statement b (r.accepts_head (Or.inl rfl)) r.head_ne_nil
    intro token ht
    have hread : readStatement token = (do
        let iri ← resource token
        expect (.predicate (.iri iri) false)) := by
      rw [readStatement, ht.1]
      cases r <;> rfl
    rw [hread]
    apply (reads_ref r ht hnamed hrest).bind
    rintro _ rfl
    exact reads_expect _
  | blank l =>
    injection h with h
    subst h
    have hnext : (State.start .statement).next iri '_' = some (.take .labelColon) := by
      simp [State.next]
    apply reads_statement b (l.accepts hnext hrest) (List.cons_ne_nil _ _)
    intro token ht
    rw [readStatement, ht.1, ← label_of_is l ht]
    exact reads_expect _

/-! ## In the place of a predicate -/

variable {subject predicate : Term} {continued : Bool}

/-- A token in the place of a predicate. -/
theorem reads_predicate {production : Production} {text : List Char} {finish : Place} (b : Blanks)
    (h : State.Accepts iri production rest (.start .predicate) [] text) (htext : text ≠ [])
    (hread : ∀ token, Token.Is production text token →
      Reads iri ⟨c, .predicate subject continued, rest⟩ (readPredicate subject continued token)
        (fun _ => True) finish) :
    Reads iri ⟨c, .predicate subject continued, codes b.text ++ (codes text ++ rest)⟩ move
      (· = .onward) finish := by
  have hmore : Reads iri ⟨c, .predicate subject continued, codes b.text ++ (codes text ++ rest)⟩
      (movePredicate subject continued) (· = .onward) finish := by
    apply (reads_lexAfterBlank b h (by simp) htext).bind
    intro token ht
    exact (hread token ht).bind fun _ _ => .pure rfl
  intro p hp
  simp only [move, hp.expected]
  exact hmore p hp

/-- A predicate. -/
theorem reads_verb (g : Gap) (v : Verb iri) (h : v.term? c = some predicate)
    (hrest : Separated rest) :
    Reads iri ⟨c, .predicate subject continued, codes g.text ++ (codes v.text ++ rest)⟩ move
      (· = .onward) ⟨c, .object subject predicate, rest⟩ := by
  cases v with
  | ref r =>
    obtain ⟨named, hnamed, rfl⟩ := Option.map_eq_some_iff.1 h
    rw [Verb.text, ← r.head_append_tail, codes_append, List.append_assoc]
    apply reads_predicate g.blanks (r.accepts_head (Or.inr (Or.inl rfl))) r.head_ne_nil
    intro token ht
    have hread : readPredicate subject continued token = (do
        let iri ← resource token
        expect (.object subject (.iri iri))) := by
      rw [readPredicate, ht.1]
      cases r <;> rfl
    rw [hread]
    apply (reads_ref r ht hnamed hrest).bind
    rintro _ rfl
    exact reads_expect _
  | typeWord =>
    injection h with h
    subst h
    apply reads_predicate g.blanks (accepts_typeWord hrest) (List.cons_ne_nil _ _)
    intro token ht
    rw [readPredicate, ht.1]
    exact reads_expect _

/-- A semicolon, after a predicate. -/
theorem reads_semicolon (g : Gap) :
    Reads iri ⟨c, .predicate subject true, codes g.text ++ CodePoint.ofChar ';' :: rest⟩ move
      (· = .onward) ⟨c, .predicate subject true, rest⟩ := by
  have haccepts : State.Accepts iri .semicolon rest (.start .predicate) [] [';'] :=
    .finish (by simp [State.next])
  apply reads_predicate g.blanks haccepts (List.cons_ne_nil _ _)
  intro token ht
  rw [readPredicate, ht.1]
  exact reads_expect _

/-- A dot, after a predicate. -/
theorem reads_dot (g : Gap) :
    Reads iri ⟨c, .predicate subject true, codes g.text ++ CodePoint.ofChar '.' :: rest⟩ move
      (· = .onward) ⟨c, .statement, rest⟩ := by
  have haccepts : State.Accepts iri .dot rest (.start .predicate) [] ['.'] :=
    .finish (by simp [State.next])
  apply reads_predicate g.blanks haccepts (List.cons_ne_nil _ _)
  intro token ht
  rw [readPredicate, ht.1]
  exact reads_expect _

/-! ## Objects -/

variable {x : Char} {q : Production} {term : Term}

/-- What is given for an object: its term, and a token of the kind that ends it. -/
def Gives (term : Term) (q : Production) (result : Term × Token) : Prop :=
  result.1 = term ∧ result.2.production = q

omit [IriLibrary] in
/-- After a term the token that ends the object is read. -/
theorem reads_terminated (term : Term) (g : Gap) (h : Ends x q) :
    Reads iri ⟨c, e, codes g.text ++ (x : CodePoint) :: rest⟩
      (do return (term, ← readTerminator)) (Gives term q) ⟨c, e, rest⟩ :=
  (reads_readTerminator g h).bind fun _ ht => .pure ⟨rfl, ht⟩

/-- A string is read with its suffix. -/
theorem reads_readSuffix (suffix : Suffix iri) {lexical : String} {literal : Literal}
    (hliteral : suffix.literal? c lexical = some literal) (g : Gap) (h : Ends x q) :
    Reads iri ⟨c, e, codes suffix.text ++ (codes g.text ++ (x : CodePoint) :: rest)⟩
      (readSuffix lexical) (Gives (.literal literal) q) ⟨c, e, rest⟩ := by
  cases suffix with
  | none =>
    injection hliteral with hliteral
    subst hliteral
    -- What was lexed for a suffix is already the token that ends the object.
    apply (reads_lexAfterBlank g.blanks (accepts_ends h (Or.inr rfl)) (by simp) (by simp)).bind
    intro token ht
    rw [ht.1]
    cases h <;> exact .pure ⟨rfl, ht.1⟩
  | language before l =>
    injection hliteral with hliteral
    subst hliteral
    rw [Suffix.text, codes_append, List.append_assoc]
    apply (reads_lexAfterBlank before (l.accepts g.separated) (by simp)
      (List.cons_ne_nil _ _)).bind
    intro token ht
    rw [ht.1, ht.2]
    exact reads_terminated _ g h
  | datatype before after r =>
    obtain ⟨named, hnamed, rfl⟩ := Option.map_eq_some_iff.1 hliteral
    have htext : codes (Suffix.datatype before after r).text ++
        (codes g.text ++ (x : CodePoint) :: rest) =
          codes before.text ++ (codes ['^', '^'] ++ (codes after.text ++ (codes r.head ++
            (codes r.tail ++ (codes g.text ++ (x : CodePoint) :: rest))))) := by
      simp [Suffix.text, ← r.head_append_tail]
    rw [htext]
    apply (reads_lexAfterBlank before accepts_datatypeMark (by simp)
      (List.cons_ne_nil _ _)).bind
    intro token ht
    rw [ht.1]
    apply (reads_lexAfterBlank after (r.accepts_head (Or.inr (Or.inr (Or.inr rfl)))) (by simp)
      r.head_ne_nil).bind
    intro token' ht'
    apply (reads_ref r ht' hnamed g.separated).bind
    rintro _ rfl
    exact reads_terminated _ g h

omit [IriLibrary] in
/-- The mark of a string does not follow it. -/
theorem head_ne_quote (suffix : Suffix iri) (g : Gap) (quote : Quote) :
    ∀ c ∈ (codes suffix.text ++ (codes g.text ++ rest)).head?, c ≠ quote.char := by
  have hquote : quote.char = '"' ∨ 0x23 < quote.char.toNat := by cases quote <;> decide
  cases suffix with
  | none =>
    intro c hc
    exact State.ne_of_separator (g.separated c hc) _ hquote
  | language before l =>
    rw [Suffix.text, codes_append, List.append_assoc]
    apply before.head_ne hquote
    intro c hc
    rw [← Option.some.inj hc]
    cases quote <;> simp [Quote.char]
  | datatype before after r =>
    rw [Suffix.text, codes_append, List.append_assoc]
    apply before.head_ne hquote
    intro c hc
    rw [← Option.some.inj hc]
    cases quote <;> simp [Quote.char]

/-- After the token of a string its suffix is read. -/
theorem readObject_of_string {s : StringToken} {token : Token}
    (ht : token.Is s.production s.text) :
    readObject token = readSuffix (String.ofList s.value) := by
  have hinner : token.inner s.marks = s.body := inner_of_is ht
  have hread : readObject token = readString s.marks token := by
    rw [readObject, ht.1]
    cases s <;> rfl
  rw [hread, readString, hinner, s.decode_body]

omit [IriLibrary] in
/-- A string begins with its mark wherever an object may stand. -/
theorem next_of_quote (quote : Quote) :
    (State.start .object).next iri quote.char = some (.take (.openedOnce quote)) := by
  cases quote <;> simp [State.next, Quote.char]

/-- An object makes a triple, and the token that ends it says what may come next. -/
theorem reads_readTriple {token : Token} {start : Place} {input : List CodePoint}
    (h : Reads iri start (readObject token) (Gives term q) ⟨c, e, input⟩) :
    Reads iri start (readTriple subject predicate token) (· = ⟨subject, predicate, term⟩)
      ⟨c, expectedAfter subject predicate q, input⟩ := by
  apply h.bind
  rintro ⟨object, terminator⟩ ⟨rfl, rfl⟩
  apply (reads_expect _).bind
  intro _ _
  exact .pure rfl

/-- An object that is read to the token that ends it completes a triple. -/
theorem reads_triple {production : Production} {text : List Char} (g : Gap)
    (h : State.Accepts iri production rest (.start .object) [] text) (htext : text ≠ [])
    {input : List CodePoint}
    (hread : ∀ token, Token.Is production text token →
      Reads iri ⟨c, .object subject predicate, rest⟩ (readObject token) (Gives term q)
        ⟨c, .object subject predicate, input⟩) :
    Reads iri ⟨c, .object subject predicate, codes g.text ++ (codes text ++ rest)⟩ move
      (· = .triple ⟨subject, predicate, term⟩) ⟨c, expectedAfter subject predicate q, input⟩ := by
  have hmore : Reads iri ⟨c, .object subject predicate, codes g.text ++ (codes text ++ rest)⟩
      (moveObject subject predicate) (· = .triple ⟨subject, predicate, term⟩)
      ⟨c, expectedAfter subject predicate q, input⟩ := by
    apply (reads_lexAfterBlank g.blanks h (by simp) htext).bind
    intro token ht
    apply (reads_readTriple (hread token ht)).bind
    rintro t rfl
    exact .pure rfl
  intro p hp
  simp only [move, hp.expected]
  exact hmore p hp

/-- An object of one token is read to the token that ends it. -/
theorem reads_single {production : Production} {text : List Char} (g last : Gap) (h : Ends x q)
    (haccepts : State.Accepts iri production (codes last.text ++ (x : CodePoint) :: rest)
      (.start .object) [] text) (htext : text ≠ [])
    (hread : ∀ token, Token.Is production text token →
      readObject token = do return (term, ← readTerminator)) :
    Reads iri ⟨c, .object subject predicate,
        codes g.text ++ (codes text ++ (codes last.text ++ (x : CodePoint) :: rest))⟩
      move (· = .triple ⟨subject, predicate, term⟩)
      ⟨c, expectedAfter subject predicate q, rest⟩ := by
  apply reads_triple g haccepts htext
  intro token ht
  rw [hread token ht]
  exact reads_terminated _ last h

/-- **An object is read to the token that ends it**, whatever is written behind that. -/
theorem reads_object (g : Gap) (o : Object iri) (hterm : o.term? c = some term) (last : Gap)
    (h : Ends x q) :
    Reads iri ⟨c, .object subject predicate,
        codes g.text ++ (codes o.text ++ (codes last.text ++ (x : CodePoint) :: rest))⟩
      move (· = .triple ⟨subject, predicate, term⟩)
      ⟨c, expectedAfter subject predicate q, rest⟩ := by
  cases o with
  | ref r =>
    -- As in front of a predicate, `resource` reads on behind the first token of a name.
    obtain ⟨named, hnamed, rfl⟩ := Option.map_eq_some_iff.1 hterm
    rw [Object.text, ← r.head_append_tail, codes_append, List.append_assoc]
    apply reads_triple g (r.accepts_head (Or.inr (Or.inr (Or.inl rfl)))) r.head_ne_nil
    intro token ht
    have hread : readObject token = (do
        let iri ← resource token
        return (.iri iri, ← readTerminator)) := by
      rw [readObject, ht.1]
      cases r <;> rfl
    rw [hread]
    apply (reads_ref r ht hnamed last.separated).bind
    rintro _ rfl
    exact reads_terminated _ last h
  | blank l =>
    injection hterm with hterm
    subst hterm
    have hnext : (State.start .object).next iri '_' = some (.take .labelColon) := by
      simp [State.next]
    apply reads_single g last h (l.accepts hnext last.separated) (List.cons_ne_nil _ _)
    intro token ht
    rw [readObject, ht.1, ← label_of_is l ht]
  | quoted s suffix =>
    -- What stands behind the string says what kind of literal it is.
    obtain ⟨literal, hliteral, rfl⟩ := Option.map_eq_some_iff.1 hterm
    rw [Object.text, codes_append, List.append_assoc]
    apply reads_triple g (s.accepts (next_of_quote _) (head_ne_quote suffix last s.quote))
      s.text_ne_nil
    intro token ht
    rw [readObject_of_string ht]
    exact reads_readSuffix suffix hliteral last h
  | number n =>
    injection hterm with hterm
    subst hterm
    apply reads_single g last h (n.accepts last.separated) n.text_ne_nil
    intro token ht
    have hread : readObject token = readTyped n.datatype token := by
      rw [readObject, ht.1]
      cases n <;> rfl
    rw [hread, readTyped, ht.2]
  | boolean value =>
    injection hterm with hterm
    subst hterm
    have htext : booleanText value ≠ [] := by cases value <;> exact List.cons_ne_nil _ _
    apply reads_single g last h (accepts_boolean value last.separated) htext
    intro token ht
    rw [readObject, ht.1, ← ht.2]
    rfl

end Parser

end RdfTurtle
