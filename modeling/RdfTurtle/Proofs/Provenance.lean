import RdfTurtle.Proofs.Blanks
import RdfTurtle.Proofs.Recognition.Numbers
import RdfTurtle.Proofs.WellFormed
import RdfTurtle.Iri.Standard

/-! # What yielded literals and declared names are read from

A literal without quotes has the spelling of its token and the datatype of the token's kind. A
namespace is declared under the name that stands before its colon. Nothing else makes literals or
declares names, whatever was read before and however often the parser has recovered from errors.

* **`Literal.ReadFrom`** — a literal and the token that it is read from.
* **`PrefixMap.Named`** — names that the grammar admits.
* **`Parser.Results`**, **`Parser.Names`** — what an action gives and declares when it succeeds.
* **`Parser.origin_of_move`** — the token that a yielded object is read from.
* **`Parser.Reached.named`** — all that is declared has such a name.
* **`yields_wellFormed`** — whatever is reached yields and declares. -/

namespace RdfTurtle

open Syntax

/-- The literal that a token in the place of an object is read as: between quotes the characters
that stand there, escapes being decoded, and otherwise the token itself with the datatype of its
kind. -/
inductive Literal.ReadFrom (token : Token) : Literal → Prop
  | quoted {l : Literal} {q : Quote} {n : Nat}
    (hkind : token.production = .shortString q ∧ n = 1 ∨ token.production = .longString q ∧ n = 3)
    (hlexical : Escape.string? (token.inner n) = some l.lexical.toList) : ReadFrom token l
  | number (n : Number) (hkind : token.production = n.production) (htext : token.chars = n.text) :
    ReadFrom token (.typed (String.ofList n.text) n.datatype)
  | boolean (b : Bool) (hkind : token.production = .boolean) (htext : token.chars = booleanText b) :
    ReadFrom token (.typed (String.ofList (booleanText b)) Vocabulary.xsdBoolean)

/-- The name of every declared namespace is empty or one of the grammar (`PN_PREFIX`). -/
def PrefixMap.Named (m : PrefixMap) : Prop :=
  ∀ e ∈ m.entries, e.1 = "" ∨ IsName CharClass.nameStart CharClass.nameChar e.1.toList

/-- Without namespaces there is no name to check. -/
theorem PrefixMap.named_empty : PrefixMap.empty.Named := fun _ h => by cases h

/-- What is declared under a name of the grammar leaves only such names. -/
theorem PrefixMap.Named.insert {m : PrefixMap} (h : m.Named) (n : Namespace) (iri : String) :
    (m.insert n.name iri).Named := by
  intro e he
  rcases mem_insertInto he with rfl | he
  · by_cases hnil : n.chars = []
    · exact Or.inl (by rw [Namespace.name, hnil])
    · refine Or.inr ?_
      rw [Namespace.name, String.toList_ofList]
      exact n.isName hnil
  · exact h e he

namespace Parser

variable {α β : Type} {Q : α → Prop} {p p' q : Parser}

/-! ## What actions give -/

/-- Whatever the action gives satisfies `Q`. -/
def Results (x : Action α) (Q : α → Prop) : Prop := ∀ ⦃p a p'⦄, x p = .ok a p' → Q a

namespace Results

/-- What comes last decides. -/
theorem after {x : Action β} {f : β → Action α} (hf : ∀ b, Results (f b) Q) :
    Results (x >>= f) Q := by
  intro p a p' h
  obtain ⟨b, p₁, -, h⟩ := ok_of_bind h
  exact hf b h

/-- A result is given as it is. -/
theorem pure {a : α} (h : Q a) : Results (Pure.pure a) Q := by
  intro p b p' h'
  injection h' with ha
  exact ha ▸ h

/-- What fails gives nothing. -/
theorem throw (e : DocumentError) : Results (MonadExcept.throw e) Q := fun _ _ _ h => by cases h

end Results

section

variable [IriLibrary]

/-- The object is no literal, or one that is read from the token. -/
def FromToken (token : Token) (result : Term × Token) : Prop :=
  ∀ l, result.1 = .literal l → l.ReadFrom token

/-- What may follow a string leaves its characters as they are. -/
theorem results_readSuffix (lexical : String) :
    Results (readSuffix lexical) fun result =>
      ∃ l, result.1 = .literal l ∧ l.lexical = lexical := by
  apply Results.after
  intro suffix
  split
  · exact .after fun _ => .pure ⟨_, rfl, rfl⟩
  · exact .after fun _ => .after fun _ => .after fun _ => .pure ⟨_, rfl, rfl⟩
  · exact .pure ⟨_, rfl, rfl⟩

/-- A literal that a string begins has the characters of the string. -/
theorem results_readString {q : Quote} {n : Nat} {token : Token}
    (hkind : token.production = .shortString q ∧ n = 1 ∨ token.production = .longString q ∧ n = 3) :
    Results (readString n token) (FromToken token) := by
  unfold readString
  split
  · next lexical hlexical =>
    intro p result p' h l hl
    obtain ⟨l', hl', hsame⟩ := results_readSuffix _ h
    have heq : l' = l := Term.literal.inj (hl'.symm.trans hl)
    refine .quoted hkind ?_
    rw [← heq, hsame, String.toList_ofList, hlexical]
  · exact .throw _

/-- A token that is a number or a boolean reads as one. -/
structure Unquoted (token : Token) : Prop where
  number : token.production.family = .number →
    ∃ n : Number, n.production = token.production ∧ token.chars = n.text
  boolean : token.production = .boolean → ∃ b : Bool, token.chars = booleanText b

omit [IriLibrary] in
/-- A number stands for itself, with the datatype of its kind. -/
theorem results_number {token : Token} {kind : Production} {datatype : String}
    (ht : Unquoted token) (hkind : token.production = kind) (hnumber : kind.family = .number)
    (hdatatype : ∀ n : Number, n.production = kind → n.datatype = datatype) :
    Results (readTyped datatype token) (FromToken token) := by
  subst hkind
  obtain ⟨n, hn, htext⟩ := ht.number hnumber
  refine .after fun _ => .pure fun l hl => ?_
  obtain rfl := Term.literal.inj hl
  rw [htext, ← hdatatype n hn]
  exact .number n hn.symm htext

/-- **A literal in the place of an object is read from the token there.** -/
theorem results_readObject {token : Token} (ht : Unquoted token) :
    Results (readObject token) (FromToken token) := by
  have hiri (iri : String) (t : Token) : FromToken token (.iri iri, t) := fun _ hl => by cases hl
  have hblank (label : String) (t : Token) : FromToken token (.blank label, t) :=
    fun _ hl => by cases hl
  unfold readObject
  split
  · exact .after fun _ => .after fun _ => .pure (hiri _ _)
  · exact .after fun _ => .after fun _ => .pure (hiri _ _)
  · exact .after fun _ => .pure (hblank _ _)
  · next hkind => exact results_number ht hkind rfl fun n h => by cases n <;> cases h; rfl
  · next hkind => exact results_number ht hkind rfl fun n h => by cases n <;> cases h; rfl
  · next hkind => exact results_number ht hkind rfl fun n h => by cases n <;> cases h; rfl
  · next hkind =>
    obtain ⟨b, htext⟩ := ht.boolean hkind
    refine .after fun _ => .pure fun l hl => ?_
    obtain rfl := Term.literal.inj hl
    rw [htext]
    exact .boolean b hkind htext
  · next hkind => exact results_readString (Or.inl ⟨hkind, rfl⟩)
  · next hkind => exact results_readString (Or.inr ⟨hkind, rfl⟩)
  · exact .throw _

/-! ## Where objects come from -/

omit [IriLibrary] in
/-- The token is read behind blanks. -/
theorem path_of_lexAfterBlank {r : Recognizer} {token : Token}
    (h : lexAfterBlank r p = .ok token p') :
    ∃ iri cs, State.Path iri token.production (.start r) [] cs ∧
      ∀ text : List Char, cs = codes text → token.chars = text := by
  obtain ⟨_, _, -, h⟩ := ok_of_bind h
  exact path_of_lex h

omit [IriLibrary] in
/-- A token in the place of an object reads as its kind says. -/
theorem unquoted_of_lexAfterBlank {token : Token} (h : lexAfterBlank .object p = .ok token p') :
    Unquoted token := by
  obtain ⟨iri, cs, hpath, hchars⟩ := path_of_lexAfterBlank h
  refine ⟨fun hkind => ?_, fun hkind => ?_⟩
  · obtain ⟨n, hn, hcs⟩ := State.number_of_path hpath hkind
    exact ⟨n, hn, hchars _ hcs⟩
  · rw [hkind] at hpath
    obtain ⟨b, hcs⟩ := State.boolean_of_path hpath
    exact ⟨b, hchars _ hcs⟩

/-- **The object of a triple is read from the token behind the predicate.** -/
theorem origin_of_move {t : Triple} (h : p.move = .ok (.triple t) p') :
    ∃ token r, lexAfterBlank .object p = .ok token r ∧
      ∀ l, t.object = .literal l → l.ReadFrom token := by
  cases moved_of_move h with
  | @object r _ token _ _ _ _ htoken htriple =>
    obtain ⟨⟨object, terminator⟩, r₂, hobject, htriple⟩ := ok_of_bind htriple
    obtain ⟨_, _, -, htriple⟩ := ok_of_bind htriple
    injection htriple with htriple
    have hread := results_readObject (unquoted_of_lexAfterBlank htoken) hobject
    refine ⟨token, r, htoken, fun l hl => hread l ?_⟩
    rw [← htriple] at hl
    exact hl

/-- What a parser reaches by moves that lead onward. -/
def Onward : Parser → Parser → Prop := Relation.ReflTransGen fun p q => p.move = .ok .onward q

/-- A triple that is the next item is completed by a move, after moves that lead to it. -/
theorem exists_move_of_next {t : Triple} (h : p.next = (some (.triple t), p')) :
    ∃ q, p.Onward q ∧ q.move = .ok (.triple t) p' := by
  fun_induction next p with
  | case1 p u p₁ hmove =>
    injection h with hi hp
    subst hp
    obtain rfl := Item.triple.inj (Option.some.inj hi)
    exact ⟨p, .refl, hmove⟩
  | case2 p p₁ hmove ih =>
    obtain ⟨q, honward, hq⟩ := ih h
    exact ⟨q, .head hmove honward, hq⟩
  | case3 p p₁ hmove => cases h
  | case4 p e p₁ hmove => cases h

end

/-! ## Declared names -/

/-- The action declares only under names of the grammar. -/
def Names (x : Action α) : Prop :=
  ∀ ⦃p a p'⦄, p.prefixes.Named → x p = .ok a p' → p'.prefixes.Named

namespace Names

/-- A sequence declares what its parts declare. -/
theorem bind {x : Action α} {f : α → Action β} (hx : Names x) (hf : ∀ a, Names (f a)) :
    Names (x >>= f) := by
  intro p b p' hp h
  obtain ⟨a, p₁, h₁, h₂⟩ := ok_of_bind h
  exact hf a (hx hp h₁) h₂

/-- Reading tokens declares nothing. -/
theorem of_scans {x : Action α} (hx : Scans x Q) : Names x := by
  intro p a p' hp h
  obtain ⟨_, hcourse⟩ := hx.course h
  rw [hcourse.knows.2]
  exact hp

/-- A result declares nothing. -/
theorem pure (a : α) : Names (Pure.pure a : Action α) :=
  of_scans (scans_pure a (Q := fun _ => True))

/-- Nor does an error. -/
theorem throw (e : DocumentError) : Names (MonadExcept.throw e : Action α) :=
  fun _ _ _ _ h => by cases h

/-- Nor does looking at the state. -/
theorem of_get : Names (MonadState.get : Action Parser) := by
  intro p q p' hp h
  injection h with _ hp'
  exact hp' ▸ hp

/-- What is declared is not changed. -/
theorem of_modify {f : Parser → Parser} (hf : ∀ p, (f p).prefixes = p.prefixes) :
    Names (modify f : Action PUnit) := by
  intro p _ p' hp h
  injection h with _ hp'
  rw [← hp', hf]
  exact hp

end Names

/-- To expect something declares nothing. -/
theorem names_expect (e : Expected) : Names (expect e) := .of_modify fun _ => rfl

variable [IriLibrary]

/-- A base is no namespace. -/
theorem names_readBase (dotted : Bool) : Names (readBase dotted) := by
  apply (Names.of_scans (scans_readDeclared dotted)).bind
  intro declared
  dsimp only
  split
  · exact .of_modify fun _ => rfl
  · exact .throw _

omit [IriLibrary] in
/-- The token in the place of a namespace is one with its colon, as nothing else is recognized
there. -/
theorem namespace_of_lexAfterBlank {name : Token}
    (h : lexAfterBlank .namespaceName p = .ok name q) :
    ∃ n : Namespace, name.chars = n.text ∧ namespaceName name = n.name := by
  obtain ⟨_, cs, hpath, hchars⟩ := path_of_lexAfterBlank h
  obtain ⟨n, hn⟩ := State.namespace_of_path hpath
  refine ⟨n, hchars _ hn, ?_⟩
  rw [namespaceName, hchars _ hn, Namespace.text, List.dropLast_concat, Namespace.name]

/-- A namespace is declared under the name that was read. -/
theorem names_readPrefix (dotted : Bool) : Names (readPrefix dotted) := by
  intro p u p' hp h
  obtain ⟨name, p₁, hname, h⟩ := ok_of_bind h
  obtain ⟨⟨token, iri⟩, p₂, hdeclared, h⟩ := ok_of_bind h
  injection h with _ hp'
  subst hp'
  obtain ⟨n, -, hsame⟩ := namespace_of_lexAfterBlank hname
  have hp₁ : p₁.prefixes.Named := Names.of_scans (scans_lexAfterBlank _) hp hname
  have hp₂ : p₂.prefixes.Named := Names.of_scans (scans_readDeclared dotted) hp₁ hdeclared
  show (p₂.prefixes.insert (namespaceName name) iri).Named
  rw [hsame]
  exact hp₂.insert n iri

/-- A name declares nothing in its place. -/
theorem names_named (token : Token) (e : String → Expected) :
    Names (do let iri ← resource token; expect (e iri)) :=
  (Names.of_scans (scans_resource token)).bind fun _ => names_expect _

/-- Only a directive declares a namespace, and only under its name. -/
theorem names_readStatement (token : Token) : Names (readStatement token) := by
  unfold readStatement
  split
  · exact names_readBase true
  · exact names_readBase false
  · exact names_readPrefix true
  · exact names_readPrefix false
  · exact names_named token _
  · exact names_named token _
  · exact names_expect _
  · exact .throw _

/-- Behind a token in the place of a predicate nothing is declared. -/
theorem names_readPredicate (subject : Term) (continued : Bool) (token : Token) :
    Names (readPredicate subject continued token) := by
  unfold readPredicate
  split
  · split
    · exact names_expect _
    · exact .throw _
  · split
    · exact names_expect _
    · exact .throw _
  · exact names_expect _
  · exact names_named token _

/-- Nor while a triple is completed. -/
theorem names_readTriple (subject predicate : Term) (token : Token) :
    Names (readTriple subject predicate token) :=
  (Names.of_scans (scans_readObject token)).bind fun _ => (names_expect _).bind fun _ => .pure _

/-- A move in the place of a statement declares only under names of the grammar. -/
theorem names_moveStatement : Names moveStatement := by
  refine (Names.of_scans scans_skipBlank).bind fun _ => Names.of_get.bind fun p => ?_
  split
  · exact (names_expect _).bind fun _ => .pure _
  · exact (Names.of_scans (scans_lex _)).bind fun token =>
      (names_readStatement token).bind fun _ => .pure _

/-- **A move declares only under names of the grammar.** -/
theorem names_move : Names move := by
  intro p o p' hp h
  unfold move at h
  -- One case for each thing that may be expected.
  split at h
  · exact Names.pure _ hp h
  · exact names_moveStatement hp h
  · exact ((Names.of_scans (scans_lexAfterBlank _)).bind fun token =>
      (names_readPredicate _ _ token).bind fun _ => .pure _) hp h
  · exact ((Names.of_scans (scans_lexAfterBlank _)).bind fun token =>
      (names_readTriple _ _ token).bind fun _ => .pure _) hp h

/-- A move that fails declares nothing. -/
theorem knows_of_move_error {e : DocumentError} (h : p.move = .error e q) : Knows p q := by
  rcases p.proceeds_move with hproceeds | ⟨p', hfinished, -⟩
  · rw [h] at hproceeds
    cases hproceeds with
    | trips trip =>
      cases trip with
      | thrown course => exact course.knows
      | refused course _ refused => exact course.knows.trans refused.knows
  · rw [h] at hfinished
    cases hfinished

/-- **All that is declared has a name of the grammar**, however a parser is reached. -/
theorem Reached.named (h : p.Reached q) (hp : p.prefixes.Named) : q.prefixes.Named := by
  induction h with
  | start => exact hp
  | move _ hm ih => exact names_move ih hm
  | @recovery q r e _ hm ih =>
    rw [(knows_afterError r e).2, (knows_of_move_error hm).2]
    exact ih

/-- What is remembered may stand in a triple, however a parser is reached. -/
theorem Reached.wellFormed (h : p.Reached q) (hp : p.expected.WellFormed) :
    q.expected.WellFormed := by
  induction h with
  | start => exact hp
  | move _ hm ih => exact (upholds_move ih hm).2
  | @recovery q r e _ hm ih => exact wellFormed_afterError r e

end Parser

/-- **Whatever is reached has declared names of the grammar and yields well-formed triples**, and a
literal among the objects is read from the token in its place: it is a string, or it is spelled as a
number or a boolean and has the datatype of its kind. -/
theorem yields_wellFormed [IriLibrary] {source : Source} {options : ParserOptions} {p₀ p : Parser}
    (h₀ : Parser.create source options = .ok p₀) (h : p₀.Reached p) :
    p.prefixes.Named ∧
      ∀ t p', p.next = (some (.triple t), p') →
        t.WellFormed ∧
          ∃ q token r, p.Onward q ∧ q.move = .ok (.triple t) p' ∧
            Parser.lexAfterBlank .object q = .ok token r ∧
            ∀ l, t.object = .literal l → l.ReadFrom token := by
  have hnamed : p₀.prefixes.Named := by
    obtain ⟨_, _, -, -, rfl⟩ := Parser.exists_of_create h₀
    exact PrefixMap.named_empty
  have hexpected : p₀.expected.WellFormed := by
    rw [Parser.expected_of_create h₀]
    trivial
  refine ⟨h.named hnamed, fun t p' hnext => ?_⟩
  obtain ⟨q, honward, hmove⟩ := Parser.exists_move_of_next hnext
  obtain ⟨token, r, htoken, hread⟩ := Parser.origin_of_move hmove
  exact ⟨(Parser.wellFormed_of_next (h.wellFormed hexpected) hnext).2 t rfl,
    q, token, r, honward, hmove, htoken, hread⟩

section

open scoped Iri.Standard

/-- A name with a dot inside is declared, and a double is yielded as it is spelled. -/
theorem yields_wellFormed_double :
    ∃ p₀, Parser.create (.memory "@prefix a.b: <u:> . _:x a.b:p +1.5e3 .".toUTF8.toList) {} =
        .ok p₀ ∧
      p₀.next.2.prefixes.entries = [("a.b", "u:")] ∧ p₀.next.2.prefixes.Named ∧
      ∃ t, p₀.next = (some (.triple t), p₀.next.2) ∧ t.WellFormed ∧
        t.object = .literal (.typed "+1.5e3" Vocabulary.xsdDouble) ∧
        ∃ q token r, p₀.Onward q ∧ Parser.lexAfterBlank .object q = .ok token r ∧
          Literal.ReadFrom token (.typed "+1.5e3" Vocabulary.xsdDouble) := by
  have hruns : (Parser.create (.memory "@prefix a.b: <u:> . _:x a.b:p +1.5e3 .".toUTF8.toList)
      {}).map (fun p => (p.next.1, p.next.2.prefixes.entries)) =
        .ok (some (.triple
          ⟨.blank "x", .iri "u:p", .literal (.typed "+1.5e3" Vocabulary.xsdDouble)⟩),
          [("a.b", "u:")]) := by
    decide +kernel
  obtain ⟨p₀, h, hruns⟩ := ok_of_map hruns
  injection hruns with hitem hentries
  have hnext : p₀.next = (some (.triple _), p₀.next.2) := Prod.ext hitem rfl
  obtain ⟨hwellFormed, q, token, r, honward, -, htoken, hread⟩ :=
    (yields_wellFormed h .start).2 _ _ hnext
  exact ⟨p₀, h, hentries, (yields_wellFormed h (Parser.reached_next p₀)).1, _, hnext, hwellFormed,
    rfl, q, token, r, honward, htoken, hread _ rfl⟩

end

end RdfTurtle
