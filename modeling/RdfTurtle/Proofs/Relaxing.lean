import RdfTurtle.Proofs.Recognition.References
import RdfTurtle.Proofs.Settings
import RdfTurtle.Iri.Standard

/-! # The check on IRI references

The check on IRI references only ever ends a token with an error. So whatever is read with the check
is read without it in the same way, and a document without errors comes to the same.

* **`Survives`** — an action that does the same on changed states, wherever it succeeds.
* **`State.next_permissive`** — a move that the check admits is made without it.
* **`Scanner.survives_recognize`** — tokens that are accepted with the check.
* **`Parser.account_relax`** — documents without errors.
* **`references_checked`** — references with the check and without, and what the check changes. -/

namespace RdfTurtle

open Computability
open Quoted (mark)

/-! ## Actions that survive a change of the state -/

section Survives

variable {ε σ α β : Type} {f : σ → σ}

/-- Where the action succeeds, it comes to the same from the state that `f` gives, and leads to the
state that `f` gives. -/
def Survives (f : σ → σ) (x : EStateM ε σ α) : Prop :=
  ∀ ⦃s a t⦄, x s = .ok a t → x (f s) = .ok a (f t)

namespace Survives

/-- A result alone survives. -/
theorem pure (a : α) : Survives f (Pure.pure a : EStateM ε σ α) := by
  intro s b t h
  cases h
  rfl

/-- What never succeeds survives. -/
theorem throw (e : ε) : Survives f (MonadExcept.throw e : EStateM ε σ α) :=
  fun _ _ _ h => by cases h

/-- A sequence survives if its parts do. -/
theorem bind {x : EStateM ε σ α} {g : α → EStateM ε σ β} (hx : Survives f x)
    (hg : ∀ a, Survives f (g a)) : Survives f (x >>= g) := by
  intro s b t h
  obtain ⟨a, s₁, hs, ht⟩ := ok_of_bind h
  simp only [Bind.bind, EStateM.bind, hx hs]
  exact hg a ht

/-- What reads the state first survives if it does not see the change. -/
theorem of_get {g : σ → EStateM ε σ α} (hsame : ∀ s, g (f s) = g s)
    (hg : ∀ s, Survives f (g s)) : Survives f (do g (← get)) := by
  intro s a t h
  have ht : g s s = .ok a t := h
  change g (f s) (f s) = .ok a (f t)
  rw [hsame]
  exact hg s ht

/-- A change of the state survives if it can be made before or after `f`. -/
theorem of_modify {g : σ → σ} (h : ∀ s, g (f s) = f (g s)) :
    Survives f (modify g : EStateM ε σ PUnit) := by
  intro s _ t ht
  injection ht with _ ht
  rw [← ht, ← h]
  rfl

end Survives

end Survives

/-! ## Tokens -/

namespace State

variable {iri : Strictness} {st : State} {c : CodePoint} {m : Move}

/-- Only between angle brackets does a move depend on the check. -/
theorem next_congr (hst : st ≠ .body .iri) (iri iri' : Strictness) (c : CodePoint) :
    st.next iri c = st.next iri' c := by
  cases st with
  | start r => cases r <;> rfl
  | spelling x letters p => cases letters <;> rfl
  | keyword k letters => cases letters <;> rfl
  | body b => cases b <;> first | rfl | exact absurd rfl hst
  | escape b => cases b <;> rfl
  | _ => rfl

/-- A move that the check admits is made without it. -/
theorem next_permissive (h : st.next iri c = some m) : st.next .permissive c = some m := by
  by_cases hst : st = .body .iri
  · subst hst
    simp only [next] at h ⊢
    split at h
    · cases h
    · rw [if_neg (fun hcheck => by cases hcheck.1)]
      exact h
  · rw [next_congr hst .permissive iri, h]

/-- Where a token is complete the check makes no difference. -/
theorem next_of_accepting (h : st.accepting ≠ none) (c : CodePoint) :
    st.next .permissive c = st.next iri c := by
  refine next_congr ?_ _ _ c
  rintro rfl
  exact h rfl

end State

namespace Scanner

/-- The scanner without the check. -/
def relax (s : Scanner) : Scanner := { s with options := { s.options with iri := .permissive } }

/-- Giving back does not look at the check. -/
theorem relax_giveBack (s : Scanner) (ls : List Lookahead) :
    (s.giveBack ls).relax = s.relax.giveBack ls := by
  cases ls <;> rfl

/-- One code point is read with the check as without it. -/
theorem survives_step : Survives relax step := by
  intro s _ t h
  rcases of_step_ok h with ⟨current, putBack, hp, rfl⟩ | ⟨hp, current, decoder, hnext, rfl⟩
  · exact step_of_putBack (s := s.relax) hp
  · exact step_of_next (s := s.relax) hp hnext

/-- A code point is passed over with the check as without it. -/
theorem survives_advance : Survives relax advance := by
  intro s _ t h
  have hend : s.relax.atEnd = s.atEnd := rfl
  unfold advance at h ⊢
  rw [hend]
  split_ifs at h ⊢
  exact survives_step h

/-- A code point is taken with the check as without it. -/
theorem survives_take (deferred : List Lookahead) : Survives relax (take deferred) :=
  fun s _ _ h => survives_step (s := s.keep (deferred ++ [s.current])) h

/-- A token that is accepted where it ends is accepted there without the check. -/
theorem survives_conclude (st : State) (deferred : List Lookahead) :
    Survives relax (conclude st deferred) := by
  intro s l t h
  unfold conclude at h ⊢
  split at h
  · injection h with hl ht
    subst hl ht
    rw [relax_giveBack]
    rfl
  · cases h

/-- A move that the check admits is made without it. -/
theorem move?_relax {s : Scanner} {st : State} {m : Move} (h : s.move? st = some m) :
    s.relax.move? st = some m := by
  obtain ⟨c, hc, hnext⟩ := codePoint_of_move h
  exact Option.bind_eq_some_iff.2 ⟨c, hc, State.next_permissive hnext⟩

/-- **A token that is read with the check is read without it.** -/
theorem survives_run (st : State) (deferred : List Lookahead) :
    Survives relax (run st deferred) := by
  intro s l t h
  fun_induction run st deferred s with
  | case1 st deferred s hm =>
    -- No move: the token is complete, and then there is none without the check either.
    have haccepting : st.accepting ≠ none := by
      intro hnone
      simp only [conclude, hnone] at h
      cases h
    have hnone : s.relax.move? st = none := by
      rw [← hm, move?, move?]
      exact congrArg _ (funext fun c => State.next_of_accepting haccepting c)
    rw [run_of_none hnone]
    exact survives_conclude st deferred h
  | case2 st deferred s p hm s' hs =>
    injection h with hl ht
    subst hl ht
    rw [run_of_finish (move?_relax hm)]
    simp only [bind, EStateM.bind, survives_take deferred hs]
    rfl
  | case4 st deferred s st' hm s' hs ih =>
    rw [run_of_take (move?_relax hm)]
    simp only [bind, EStateM.bind, survives_take deferred hs]
    exact ih h
  | case6 st deferred s st' hm s' hs ih =>
    rw [run_of_skip (move?_relax hm)]
    simp only [bind, EStateM.bind, survives_step hs]
    exact ih h
  | case8 st deferred s st' hm s' hs ih =>
    rw [run_of_defer (move?_relax hm)]
    simp only [bind, EStateM.bind, survives_step hs]
    exact ih h
  | case3 | case5 | case7 | case9 => cases h

/-- **A token that is accepted with the check is accepted without it.** -/
theorem survives_recognize (r : Recognizer) : Survives relax (recognize r) :=
  fun s _ _ h => survives_run (.start r) [] (s := s.clear) h

end Scanner

/-! ## Documents -/

namespace Parser

/-- The parser without the check. -/
def relax (p : Parser) : Parser := { p with scanner := p.scanner.relax }

/-- A token that the parser reads with the check is read without it. -/
theorem survives_lex (r : Recognizer) : Survives relax (lex r) := by
  intro p token q h
  obtain ⟨l, s, hl, rfl, rfl⟩ := of_lex_ok h
  have hrelaxed : p.relax.scanner.recognize r = .ok l s.relax := Scanner.survives_recognize r hl
  unfold lex
  rw [hrelaxed]
  rfl

/-- Blanks are passed over with the check as without it. -/
theorem survives_skipBlank : Survives relax skipBlank := by
  intro p token q h
  obtain ⟨l, s, hl, rfl⟩ := of_skipBlank_ok h
  have hrelaxed : p.relax.scanner.recognize .blank = .ok l s.relax :=
    Scanner.survives_recognize .blank hl
  unfold skipBlank
  rw [hrelaxed]
  rfl

/-- So is a token behind blanks. -/
theorem survives_lexAfterBlank (r : Recognizer) : Survives relax (lexAfterBlank r) :=
  survives_skipBlank.bind fun _ => survives_lex r

/-- What is expected next has nothing to do with the check. -/
theorem survives_expect (expected : Expected) : Survives relax (expect expected) :=
  .of_modify fun _ => rfl

variable [IriLibrary]

/-- Resolving a reference has nothing to do with the check. -/
theorem survives_resolve (reference : List Char) (position : Position) :
    Survives relax (resolve reference position) := by
  refine .of_get (fun _ => rfl) fun p => ?_
  split
  · exact .pure _
  · split
    · exact .pure _
    · exact .throw _

omit [IriLibrary] in
/-- A prefixed name is expanded alike. -/
theorem survives_expand (token : Token) : Survives relax (expand token) := by
  refine .of_get (fun _ => rfl) fun p => ?_
  split
  · exact .throw _
  · exact (survives_lex _).bind fun _ => .pure _

/-- So is the IRI that a token stands for. -/
theorem survives_resource (token : Token) : Survives relax (resource token) := by
  unfold resource
  split
  · split
    · exact survives_resolve _ _
    · exact .throw _
  · exact survives_expand token
  · exact .throw _

omit [IriLibrary] in
/-- The dot of a directive is read alike. -/
theorem survives_readDot : Survives relax readDot := by
  refine (survives_lexAfterBlank _).bind fun token => ?_
  split
  · exact .pure _
  · exact .throw _

/-- The IRI of a directive is read alike. -/
theorem survives_readDeclared (dotted : Bool) : Survives relax (readDeclared dotted) := by
  refine (survives_lexAfterBlank _).bind fun token => (survives_resource token).bind fun iri => ?_
  split
  · exact survives_readDot.bind fun _ => .pure _
  · exact .pure _

/-- A base that is declared with the check is declared without it. -/
theorem survives_readBase (dotted : Bool) : Survives relax (readBase dotted) := by
  refine (survives_readDeclared dotted).bind fun declared => ?_
  dsimp only
  split
  · exact .of_modify fun _ => rfl
  · exact .throw _

/-- So is a namespace. -/
theorem survives_readPrefix (dotted : Bool) : Survives relax (readPrefix dotted) :=
  (survives_lexAfterBlank _).bind fun _ => (survives_readDeclared dotted).bind fun _ =>
    .of_modify fun _ => rfl

/-- The first token of a statement begins the same statement. -/
theorem survives_readStatement (token : Token) : Survives relax (readStatement token) := by
  unfold readStatement
  split
  · exact survives_readBase true
  · exact survives_readBase false
  · exact survives_readPrefix true
  · exact survives_readPrefix false
  · exact (survives_resource token).bind fun _ => survives_expect _
  · exact (survives_resource token).bind fun _ => survives_expect _
  · exact survives_expect _
  · exact .throw _

/-- What stands in the place of a predicate is read alike. -/
theorem survives_readPredicate (subject : Term) (continued : Bool) (token : Token) :
    Survives relax (readPredicate subject continued token) := by
  unfold readPredicate
  split
  · split
    · exact survives_expect _
    · exact .throw _
  · split
    · exact survives_expect _
    · exact .throw _
  · exact survives_expect _
  · exact (survives_resource token).bind fun _ => survives_expect _

omit [IriLibrary] in
/-- What ends an object is read alike. -/
theorem survives_readTerminator : Survives relax readTerminator := survives_lexAfterBlank _

/-- What follows a string is read alike. -/
theorem survives_readSuffix (lexical : String) : Survives relax (readSuffix lexical) := by
  refine (survives_lexAfterBlank _).bind fun suffix => ?_
  split
  · exact survives_readTerminator.bind fun _ => .pure _
  · exact (survives_lexAfterBlank _).bind fun token => (survives_resource token).bind fun _ =>
      survives_readTerminator.bind fun _ => .pure _
  · exact .pure _

/-- A string is read alike. -/
theorem survives_readString (n : Nat) (token : Token) : Survives relax (readString n token) := by
  unfold readString
  split
  · exact survives_readSuffix _
  · exact .throw _

omit [IriLibrary] in
/-- A literal of a known datatype is read alike. -/
theorem survives_readTyped (datatype : String) (token : Token) :
    Survives relax (readTyped datatype token) :=
  survives_readTerminator.bind fun _ => .pure _

/-- An object is read alike. -/
theorem survives_readObject (token : Token) : Survives relax (readObject token) := by
  unfold readObject
  split
  · exact (survives_resource token).bind fun _ => survives_readTerminator.bind fun _ => .pure _
  · exact (survives_resource token).bind fun _ => survives_readTerminator.bind fun _ => .pure _
  · exact survives_readTerminator.bind fun _ => .pure _
  · exact survives_readTyped _ token
  · exact survives_readTyped _ token
  · exact survives_readTyped _ token
  · exact survives_readTyped _ token
  · exact survives_readString 1 token
  · exact survives_readString 3 token
  · exact .throw _

/-- A triple that is completed with the check is completed without it. -/
theorem survives_readTriple (subject predicate : Term) (token : Token) :
    Survives relax (readTriple subject predicate token) :=
  (survives_readObject token).bind fun _ => (survives_expect _).bind fun _ => .pure _

/-- A move in the place of a statement is made alike. -/
theorem survives_moveStatement : Survives relax moveStatement := by
  refine survives_skipBlank.bind fun _ => .of_get (fun _ => rfl) fun p => ?_
  split
  · exact (survives_expect _).bind fun _ => .pure _
  · exact (survives_lex _).bind fun token => (survives_readStatement token).bind fun _ => .pure _

/-- **A move without an error is made without the check.** -/
theorem survives_move : Survives relax move := by
  intro p o q h
  have hexpected : p.relax.expected = p.expected := rfl
  unfold move at h ⊢
  rw [hexpected]
  split at h
  · injection h with ho hq
    subst ho hq
    rfl
  · exact survives_moveStatement h
  · exact (survives_lexAfterBlank _).bind (fun _ => (survives_readPredicate ..).bind fun _ =>
      .pure _) h
  · exact (survives_lexAfterBlank _).bind (fun _ => (survives_readTriple ..).bind fun _ =>
      .pure _) h

/-- What comes next, unless it is an error, comes next without the check. -/
theorem next_relax {p q : Parser} {i? : Option Item} (h : next p = (i?, q))
    (hnone : ∀ e, i? ≠ some (.error e)) : next p.relax = (i?, q.relax) := by
  fun_induction next p with
  | case1 p t p' hm =>
    injection h with hi hq
    subst hi hq
    exact next_of_triple (survives_move hm)
  | case2 p p' hm ih =>
    rw [next_of_onward (survives_move hm)]
    exact ih h
  | case3 p p' hm =>
    injection h with hi hq
    subst hi hq
    exact next_of_finished (survives_move hm)
  | case4 p e p' hm =>
    injection h with hi
    exact absurd hi.symm (hnone e)

/-- The rest of a document without errors is the same without the check, and comes to the same
end. -/
theorem items_relax {p : Parser} (h : ∀ e, Item.error e ∉ p.items) :
    p.relax.items = p.items ∧ p.relax.finish = p.finish.relax := by
  fun_induction items p with
  | case1 p i p' hnext ih =>
    have hrelaxed := next_relax hnext fun e he => h e (by rw [Option.some.inj he]; simp)
    obtain ⟨hitems, hfinish⟩ := ih fun e he => h e (List.mem_cons_of_mem _ he)
    rw [items_of_next hrelaxed, finish_of_next hrelaxed, finish_of_next hnext, hitems]
    exact ⟨rfl, hfinish⟩
  | case2 p p' hnext =>
    have hrelaxed := next_relax hnext (by simp)
    rw [items_of_next_none hrelaxed, finish_of_next_none hrelaxed, finish_of_next_none hnext]
    exact ⟨rfl, rfl⟩

/-- **A document without errors comes to the same without the check.** -/
theorem account_relax {p : Parser} (h : ∀ e, Item.error e ∉ p.items) :
    p.relax.account = p.account := by
  obtain ⟨hitems, hfinish⟩ := items_relax h
  rw [account, account, yield, yield, hitems, hfinish]
  rfl

omit [IriLibrary] in
/-- A byte order mark is passed over with the check as without it. -/
theorem skipMark_relax {s t : Scanner} (h : skipMark s = .ok t) :
    skipMark s.relax = .ok t.relax := by
  have hcurrent : s.relax.current = s.current := rfl
  unfold skipMark at h ⊢
  rw [hcurrent]
  split_ifs at h ⊢
  · split at h
    · next hs =>
      injection h with h
      rw [Scanner.survives_advance hs, h]
    · cases h
  · injection h with h
    rw [h]

/-- Before its first token a parser does not see the check. -/
theorem create_relax {source : Source} {base? : Option String} {recover : Bool} {bufferSize : Nat}
    {utf8 iri : Strictness} {encoding : TextEncoding} {p : Parser}
    (h : create source ⟨base?, recover, ⟨bufferSize, utf8, iri, encoding⟩⟩ = .ok p) :
    create source ⟨base?, recover, ⟨bufferSize, utf8, .permissive, encoding⟩⟩ = .ok p.relax := by
  have hscanner : Scanner.ofSource source ⟨bufferSize, utf8, .permissive, encoding⟩ =
      (Scanner.ofSource source ⟨bufferSize, utf8, iri, encoding⟩).map Scanner.relax := by
    have hdecoder : Decoder.ofSource source ⟨bufferSize, utf8, .permissive, encoding⟩ =
        .ofSource source ⟨bufferSize, utf8, iri, encoding⟩ := rfl
    unfold Scanner.ofSource
    rw [hdecoder]
    cases (Decoder.ofSource source ⟨bufferSize, utf8, iri, encoding⟩).next <;> rfl
  unfold create at h ⊢
  -- The base is resolved before anything is read, and only a mark is read after it.
  cases hbase : initialBase? base? with
  | error e =>
    rw [hbase] at h
    cases h
  | ok base =>
    rw [hbase] at h
    cases hs : Scanner.ofSource source ⟨bufferSize, utf8, iri, encoding⟩ with
    | error e =>
      simp only [bind, Except.bind, hs] at h
      cases h
    | ok s =>
      simp only [bind, Except.bind, hs, hscanner, Except.map] at h ⊢
      split at h
      · next t ht =>
        injection h with h
        rw [skipMark_relax ht, ← h]
        rfl
      · cases h

end Parser

/-- **References with the check and without.** Where nothing fails to decode, the references of the
grammar are accepted wherever one stands in front, and nothing else is; with the check no code point
that it forbids may stand for itself. A reference that only the check is against is rejected at the
first such code point, which the error names with its place. And a document that has no errors with
the check, whatever its source and the other options are, comes to the same without it: to the same
items, base and namespaces, and to the same lookahead at its end. -/
theorem references_checked [IriLibrary] :
    (∀ (s : Scanner) (cs : List CodePoint), s.Awaits cs →
      (∀ text rest, cs = text ++ rest →
        (s.Takes .iriRef .iriRef text ↔ text ∈ Bracketed.iriRef s.options.iri)) ∧
      (∀ l s', s.recognize .iriRef = .ok l s' →
        ∃ text rest, cs = text ++ rest ∧ s'.Awaits rest ∧ s.Takes .iriRef .iriRef text) ∧
      (s.options.iri = .strict → ∀ text rest, cs = text ++ rest →
        text ∈ Bracketed.iriRef .permissive → text ∉ Bracketed.iriRef .strict →
        ∃ before c after position s', text = before ++ c :: after ∧
          before ∈ mark '<' * (Bracketed.piece .strict)∗ ∧ Bracketed.Forbidden c ∧
          c :: after ∈ (Bracketed.piece .permissive)∗ * mark '>' ∧
          s.recognize .iriRef = .error ⟨.unexpectedCharacter c, position⟩ s' ∧
          s.prospect.lookaheads[before.length]? = some ⟨some c, position⟩)) ∧
    ∀ (source : Source) (base? : Option String) (recover : Bool) (bufferSize : Nat)
      (utf8 : Strictness) (encoding : TextEncoding) (p : Parser),
      Parser.create source ⟨base?, recover, ⟨bufferSize, utf8, .strict, encoding⟩⟩ = .ok p →
      (∀ e, Item.error e ∉ p.items) →
      (Parser.create source ⟨base?, recover, ⟨bufferSize, utf8, .permissive, encoding⟩⟩).map
        Parser.account = .ok p.account := by
  refine ⟨fun s cs h => ⟨fun text rest hcs => ?_, fun l s' hl => ?_, ?_⟩, ?_⟩
  · exact Scanner.takes_iriRef_iff h hcs
  · exact Scanner.exists_takes_iriRef h hl
  · rintro hiri text rest rfl hmem hcheck
    exact Scanner.exists_rejected_of_forbidden h hiri hmem hcheck
  · intro source base? recover bufferSize utf8 encoding p hp herrors
    rw [Parser.create_relax hp]
    exact congrArg Except.ok (Parser.account_relax herrors)

section

open scoped Iri.Standard

/-- With the check: a blank that an escape names, a blank that stands for itself, and a document
with references. -/
theorem references_checked_blank :
    (∃ s : Scanner, s.Awaits (codes "<a\\u0020>.".toList) ∧ s.options.iri = .strict ∧
      s.Takes .iriRef .iriRef (codes "<a\\u0020>".toList)) ∧
    (∃ s : Scanner, s.Awaits (codes "<a b c>.".toList) ∧ s.options.iri = .strict ∧
      ∃ c position s', s.recognize .iriRef = .error ⟨.unexpectedCharacter c, position⟩ s') ∧
    ∃ p, Parser.create (.memory "<s> <p> <\\u003C> .".toUTF8.toList)
        ⟨none, false, ⟨8, .strict, .strict, .utf8⟩⟩ = .ok p ∧ (∀ e, Item.error e ∉ p.items) ∧
      (Parser.create (.memory "<s> <p> <\\u003C> .".toUTF8.toList)
        ⟨none, false, ⟨8, .strict, .permissive, .utf8⟩⟩).map Parser.account = .ok p.account := by
  refine ⟨?_, ?_, ?_⟩
  · obtain ⟨s, -, h, hoptions⟩ := Scanner.awaits_ofSource (.memory _) { iri := .strict }
    refine ⟨s, h, by rw [hoptions], ((references_checked.1 s _ h).1 _ (codes ['.']) rfl).2 ?_⟩
    rw [hoptions, ← State.words_iriRef, State.mem_words_iff_takes (by decide)]
    exact ⟨by decide_cbv, by decide_cbv⟩
  · obtain ⟨s, -, h, hoptions⟩ := Scanner.awaits_ofSource (.memory _) { iri := .strict }
    refine ⟨s, h, by rw [hoptions], ?_⟩
    have hmem : codes "<a b c>".toList ∈ Bracketed.iriRef .permissive := by
      rw [← State.words_iriRef, State.mem_words_iff_takes (by decide)]
      exact ⟨by decide_cbv, by decide_cbv⟩
    have hcheck : codes "<a b c>".toList ∉ Bracketed.iriRef .strict := by
      rw [← State.words_iriRef, State.mem_words_iff_takes (by decide)]
      rintro ⟨hproduction, -⟩
      exact absurd hproduction (by decide_cbv)
    obtain ⟨-, c, -, position, s', -, -, -, -, hs', -⟩ :=
      (references_checked.1 s _ h).2.2 (by rw [hoptions]) _ (codes ['.']) rfl hmem hcheck
    exact ⟨c, position, s', hs'⟩
  · have hitems : (Parser.create (.memory "<s> <p> <\\u003C> .".toUTF8.toList)
        ⟨none, false, ⟨8, .strict, .strict, .utf8⟩⟩).map Parser.items =
          .ok [.triple ⟨.iri "s", .iri "p", .iri "<"⟩] := by decide +kernel
    obtain ⟨p, hp, hitems⟩ := ok_of_map hitems
    have herrors : ∀ e, Item.error e ∉ p.items := by simp [hitems]
    exact ⟨p, hp, herrors, references_checked.2 _ _ _ _ _ _ p hp herrors⟩

end

end RdfTurtle
