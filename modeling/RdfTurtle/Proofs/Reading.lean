import RdfTurtle.Document.Parser
import RdfTurtle.Proofs.Recognition.Names
import RdfTurtle.Proofs.Recognition.Words
import RdfTurtle.Proofs.Syntax.Documents
import RdfTurtle.Proofs.Unescaping

/-! # Reading tokens and names

As long as nothing fails, all that matters of a parser is what it has declared, what it expects, and
the code points that are still to come. An action is judged by what it gives and where it leaves
the parser.

* **`Place`** — what matters of a parser, and **`Parser.Stands`** a parser at a place.
* **`Parser.Reads`** — an action that succeeds at a place and leads to another;
  **`Parser.Reads.bind`** such actions in sequence.
* **`Parser.reads_lexAfterBlank`** — a token after blanks.
* **`Parser.reads_ref`** — the IRI that a name stands for. -/

namespace RdfTurtle

open Syntax

/-- What matters of a parser as long as nothing fails. -/
structure Place where
  context : Context
  expected : Expected
  input : List CodePoint

/-- The token is of kind `production` and reads `text`. -/
def Token.Is (production : Production) (text : List Char) (t : Token) : Prop :=
  t.production = production ∧ t.chars = text

namespace Parser

variable {α β : Type} {iri : Strictness} {c : Context} {e : Expected} {rest : List CodePoint}

/-- The parser is at the place, and checks IRI references as `iri` says. -/
structure Stands (p : Parser) (iri : Strictness) (place : Place) : Prop where
  awaits : p.scanner.Awaits place.input
  strictness : p.scanner.options.iri = iri
  base : p.base? = place.context.base?
  prefixes : p.prefixes = place.context.prefixes
  expected : p.expected = place.expected

/-- From `start` the action gives a value that satisfies `Q` and leads to `finish`. -/
def Reads (iri : Strictness) (start : Place) (x : Action α) (Q : α → Prop)
    (finish : Place) : Prop :=
  ∀ p : Parser, p.Stands iri start → ∃ a p', x p = .ok a p' ∧ Q a ∧ p'.Stands iri finish

namespace Reads

variable {start middle finish : Place} {x : Action α} {Q : α → Prop}

/-- Actions lead from place to place. -/
theorem bind {f : α → Action β} {Q' : β → Prop} (hx : Reads iri start x Q middle)
    (hf : ∀ a, Q a → Reads iri middle (f a) Q' finish) :
    Reads iri start (x >>= f) Q' finish := by
  intro p hp
  obtain ⟨a, p₁, h₁, ha, hp₁⟩ := hx p hp
  obtain ⟨b, p₂, h₂, hb, hp₂⟩ := hf a ha p₁ hp₁
  refine ⟨b, p₂, ?_, hb, hp₂⟩
  simp only [Bind.bind, EStateM.bind, h₁]
  exact h₂

/-- A result reads nothing. -/
theorem pure {a : α} (h : Q a) : Reads iri start (Pure.pure a) Q start :=
  fun p hp => ⟨a, p, rfl, h, hp⟩

/-- An action may look at the parser that stands at the place. -/
theorem of_get {f : Parser → Action α}
    (h : ∀ p, p.Stands iri start → Reads iri start (f p) Q finish) :
    Reads iri start (do f (← get)) Q finish :=
  fun p hp => h p hp p hp

/-- What is given may be described more loosely. -/
theorem mono {Q' : α → Prop} (hx : Reads iri start x Q finish) (h : ∀ a, Q a → Q' a) :
    Reads iri start x Q' finish := by
  intro p hp
  obtain ⟨a, p', h', ha, hp'⟩ := hx p hp
  exact ⟨a, p', h', h a ha, hp'⟩

end Reads

/-- What comes next is set. -/
theorem reads_expect (e' : Expected) {input : List CodePoint} :
    Reads iri ⟨c, e, input⟩ (expect e') (fun _ => True) ⟨c, e', input⟩ :=
  fun p hp => ⟨(), { p with expected := e' }, rfl, trivial,
    ⟨hp.awaits, hp.strictness, hp.base, hp.prefixes, rfl⟩⟩

/-! ## Tokens -/

/-- A token is read as the automaton says. -/
theorem reads_lex {r : Recognizer} {production : Production} {text : List Char}
    (h : State.Accepts iri production rest (.start r) [] text) :
    Reads iri ⟨c, e, codes text ++ rest⟩ (lex r) (Token.Is production text) ⟨c, e, rest⟩ := by
  intro p hp
  have hanswer := Scanner.answers_recognize r hp.awaits
  have hscan : (State.start r).scan p.scanner.options.iri [] (codes text ++ rest) =
      ⟨some production, codes text, [], rest⟩ := by
    rw [hp.strictness]
    exact h
  rw [hscan] at hanswer
  generalize hresult : p.scanner.recognize r = result at hanswer
  cases hanswer with
  | @accepted production' s' hproduction hawaits hextends =>
    injection hproduction with hproduction
    subst hproduction
    have hchars : s'.text.chars = text := by
      rw [hextends.text]
      exact Text.chars_append _ text
    refine ⟨.ofLexeme (s'.lexeme production),
      { p with scanner := s', afterDot := production = .dot }, ?_, ⟨rfl, hchars⟩, ?_⟩
    · unfold lex
      rw [hresult]
      rfl
    · exact ⟨hawaits, hextends.options ▸ hp.strictness, hp.base, hp.prefixes, hp.expected⟩
  | rejected hproduction => cases hproduction

/-- Blanks are passed over up to what is none. -/
theorem reads_skipBlank (b : Blanks) (hrest : Solid rest) :
    Reads iri ⟨c, e, codes b.text ++ rest⟩ skipBlank (fun _ => True) ⟨c, e, rest⟩ := by
  intro p hp
  have hanswer := Scanner.answers_recognize .blank hp.awaits
  rw [b.scan hrest] at hanswer
  generalize hresult : p.scanner.recognize .blank = result at hanswer
  cases hanswer with
  | @accepted production s' hproduction hawaits hextends =>
    refine ⟨(), { p with scanner := s' }, ?_, trivial, ?_⟩
    · unfold skipBlank
      rw [hresult]
    · exact ⟨hawaits, hextends.options ▸ hp.strictness, hp.base, hp.prefixes, hp.expected⟩
  | rejected hproduction => cases hproduction

/-- A token after blanks is read as the automaton says. -/
theorem reads_lexAfterBlank {r : Recognizer} {production : Production} {text : List Char}
    (b : Blanks) (h : State.Accepts iri production rest (.start r) [] text) (hr : r ≠ .blank)
    (htext : text ≠ []) :
    Reads iri ⟨c, e, codes b.text ++ (codes text ++ rest)⟩ (lexAfterBlank r)
      (Token.Is production text) ⟨c, e, rest⟩ :=
  (reads_skipBlank b (h.solid hr htext)).bind fun _ _ => reads_lex h

/-- What stands between the delimiters of a token. -/
theorem inner_of_is {t : Token} {production : Production} {n : Nat} {x y : Char}
    {body : List Char}
    (h : t.Is production (List.replicate n x ++ body ++ List.replicate n y)) :
    t.inner n = body := by
  have hlength : n + body.length + n - 2 * n = body.length := by omega
  rw [Token.inner, h.2, List.length_append, List.length_append, List.length_replicate,
    List.length_replicate, hlength, List.append_assoc]
  have hdrop : (List.replicate n x ++ (body ++ List.replicate n y)).drop
      (List.replicate n x).length = body ++ List.replicate n y := List.drop_left
  rw [List.length_replicate] at hdrop
  rw [hdrop, List.take_left]

section

variable [IriLibrary]

/-! ## Names -/

/-- A reference is resolved in the context. -/
theorem reads_resolve {reference : List Char} {position : Position} {resolved : String}
    (h : resolve? c reference = some resolved) {input : List CodePoint} :
    Reads iri ⟨c, e, input⟩ (resolve reference position) (· = resolved) ⟨c, e, input⟩ := by
  apply Reads.of_get
  intro p hp
  rw [hp.base]
  unfold resolve? at h
  cases hbase : c.base? with
  | none =>
    rw [hbase] at h
    injection h with h
    exact .pure h
  | some base =>
    simp only [hbase] at h ⊢
    cases hresolve : IriLibrary.resolve base reference with
    | ok resolvedIri =>
      rw [hresolve] at h
      injection h with h
      exact .pure h
    | error e =>
      rw [hresolve] at h
      cases h

/-- An IRI reference stands for what it is resolved to. -/
theorem reads_iriRef (r : IriRef iri) {token : Token} {resolved : String}
    (ht : token.Is .iriRef r.text) (h : resolve? c r.reference = some resolved)
    {input : List CodePoint} :
    Reads iri ⟨c, e, input⟩ (resource token) (· = resolved) ⟨c, e, input⟩ := by
  have hinner : token.inner 1 = r.pieces.flatMap Piece.text := inner_of_is (n := 1) ht
  unfold resource
  rw [ht.1]
  simp only [hinner, r.decode_pieces]
  exact reads_resolve h

/-- A prefixed name stands for the IRI of its namespace with the local name behind it. -/
theorem reads_expand (n : Namespace) (l : LocalName) {token : Token} {namespaceIri : String}
    (ht : token.Is .namespaceName n.text) (h : c.prefixes.find? n.name = some namespaceIri)
    (hrest : Separated rest) :
    Reads iri ⟨c, e, codes l.text ++ rest⟩ (resource token)
      (· = namespaceIri ++ String.ofList l.value) ⟨c, e, rest⟩ := by
  have hname : namespaceName token = n.name := by
    rw [namespaceName, ht.2, Namespace.text, List.dropLast_concat]
    rfl
  unfold resource
  rw [ht.1]
  -- The namespace is looked up before the local name is lexed.
  apply Reads.of_get
  intro p hp
  rw [hp.prefixes, hname]
  simp only [h]
  apply (reads_lex (l.accepts hrest)).bind
  intro localToken hlocal
  rw [hlocal.2, l.decode_text]
  exact .pure rfl

end

end Parser

namespace Syntax.Ref

variable {iri : Strictness} {rest : List CodePoint}

/-- The kind of the token that a name begins with. -/
def production : Ref iri → Production
  | .reference _ => .iriRef
  | .name .. => .namespaceName

/-- The first token of a name. -/
def head : Ref iri → List Char
  | .reference r => r.text
  | .name n _ => n.text

/-- What of a name follows its first token. -/
def tail : Ref iri → List Char
  | .reference _ => []
  | .name _ l => l.text

/-- The first token and what follows it are the name. -/
theorem head_append_tail (r : Ref iri) : r.head ++ r.tail = r.text := by
  cases r with
  | reference r => exact List.append_nil _
  | name n l => rfl

/-- The first token of a name is not empty. -/
theorem head_ne_nil (r : Ref iri) : r.head ≠ [] := by
  cases r with
  | reference r => simp [head, IriRef.text]
  | name n l => simp [head, Namespace.text]

/-- The first token of a name is read wherever an IRI may be named. -/
theorem accepts_head {r : Recognizer} (ref : Ref iri) (hr : NamesIri r) :
    State.Accepts iri ref.production rest (.start r) [] ref.head := by
  cases ref with
  | reference r => exact r.accepts (next_of_bracket (Or.inl hr))
  | name n l => exact n.accepts (Or.inl hr)

end Syntax.Ref

namespace Parser

variable {iri : Strictness} {c : Context} {e : Expected} {rest : List CodePoint}

section

variable [IriLibrary]

/-- A name stands for its IRI. -/
theorem reads_ref (ref : Ref iri) {token : Token} {named : String}
    (ht : token.Is ref.production ref.head) (h : ref.iri? c = some named)
    (hrest : Separated rest) :
    Reads iri ⟨c, e, codes ref.tail ++ rest⟩ (resource token) (· = named) ⟨c, e, rest⟩ := by
  cases ref with
  | reference r => exact reads_iriRef r ht h
  | name n l =>
    obtain ⟨namespaceIri, hfind, rfl⟩ := Option.map_eq_some_iff.1 h
    exact reads_expand n l ht hfind hrest

end

end Parser

end RdfTurtle
