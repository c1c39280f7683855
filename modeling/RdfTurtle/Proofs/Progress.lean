import RdfTurtle.Proofs.Conservation

/-! # The progress of a parser

Every move that goes on reads a token that is not empty and does not end with a line feed. An error
is that of a token that the move has read, or of the place where it cannot read one.

* **`Prospect.Further`**, **`Prospect.Marks`** — how far has been read, and the places on the way.
* **`Parser.Minds`** — an action that reads tokens, for a parser that keeps the places of those it
  has read.
* **`Parser.advances_move`** — what every move has read, or whom it blames. -/

namespace RdfTurtle

namespace Prospect

variable {p q r : Prospect} {position : Position}

/-- Tokens have been read from `q` up to `p`, the last of which does not end with a line feed. -/
def Further (q p : Prospect) : Prop :=
  ∃ read last, q = ⟨read ++ last :: p.lookaheads, p.ending⟩ ∧
    last.codePoint? ≠ some (CodePoint.ofChar '\n')

/-- The position is that of `p`, or that of something before it that is not before `q`. -/
def Marks (q p : Prospect) (position : Position) : Prop :=
  ∃ r : Prospect, p.EndOf r ∧ r.EndOf q ∧ r.position = position

/-- What is to come then is the end of what was to come. -/
theorem Further.endOf (h : q.Further p) : p.EndOf q := by
  obtain ⟨read, last, rfl, -⟩ := h
  exact ⟨⟨read ++ [last], by simp⟩, rfl⟩

/-- What was read before is read with the rest. -/
theorem Further.of_endOf (h : q.Further p) (hq : q.EndOf r) : r.Further p := by
  obtain ⟨read, last, rfl, hlast⟩ := h
  obtain ⟨⟨before, hbefore⟩, hending⟩ := hq
  refine ⟨before ++ read, last, ?_, hlast⟩
  rw [List.append_assoc, hbefore]
  exact congrArg (Prospect.mk _) hending.symm

/-- Reading on goes further. -/
theorem Further.trans (h : r.Further q) (h' : q.Further p) : r.Further p := h'.of_endOf h.endOf

/-- Places on the way stay so when more is read. -/
theorem Marks.onward {p' : Prospect} (h : q.Marks p position) (hp : p'.EndOf p) :
    q.Marks p' position := by
  obtain ⟨r, hr, hq, hposition⟩ := h
  exact ⟨r, hp.trans hr, hq, hposition⟩

end Prospect

namespace Scanner

/-- A token that is read has a place, and it is not empty where it may not be. -/
theorem further_of_recognize {r : Recognizer} {s s' : Scanner} {l : Lexeme} (hr : r ≠ .blank)
    (h : recognize r s = .ok l s') :
    (s'.prospect = s.prospect ∧ r.nullable = true ∨ s.prospect.Further s'.prospect) ∧
      l.position = s.prospect.position := by
  have hconsumes := consumes_recognize hr s
  rw [h] at hconsumes
  cases hconsumes with
  | accepted kept rest split left text spelled position path =>
    refine ⟨?_, position.trans s.position_prospect.symm⟩
    have hst : (State.start r).family ≠ some .blank := by
      cases r <;> first | exact absurd rfl hr | decide
    have hlast := State.getLast?_of_path path trivial hst
    -- Nothing is taken only of a token that may be empty; what is taken last ends the token.
    rcases List.eq_nil_or_concat kept with rfl | ⟨read, last, rfl⟩
    · refine Or.inl ⟨left.trans ?_, ?_⟩
      · rw [← List.nil_append rest, ← split]
      · cases hnullable : r.nullable with
        | true => rfl
        | false => exact absurd rfl (State.ne_nil_of_path path (Or.inl ⟨r, rfl, hnullable⟩))
    · refine Or.inr ⟨read, last, ?_, fun hfeed => ?_⟩
      · rw [left]
        dsimp only
        rw [List.append_cons, ← List.concat_eq_append, ← split]
      · rw [List.concat_eq_append, Lookahead.codes_append, Lookahead.codes_singleton hfeed,
          List.getLast?_concat] at hlast
        exact hlast rfl

end Scanner

namespace Parser

variable {α β : Type} {o : Prospect} {ts us : List Token} {p q : Parser}

/-! ## Tokens that have been read -/

/-- The parser has read tokens from where `o` was to come, among them `ts`. -/
structure Holds (o : Prospect) (ts : List Token) (p : Parser) : Prop where
  further : o.Further p.scanner.prospect
  marks : ∀ t ∈ ts, o.Marks p.scanner.prospect t.position

/-- How a parser fails that began where `o` was to come: a token that it has read is to blame, or it
cannot read on. -/
inductive Blames (o : Prospect) : DocumentError → Parser → Prop
  | token {e : DocumentError} {q : Parser} (plain : e.Plain)
    (further : o.Further q.scanner.prospect) (marks : o.Marks q.scanner.prospect e.position) :
    Blames o e q
  | refused {e : DocumentError} {p q : Parser} (rest : p.scanner.prospect.EndOf o)
    (refused : Refuses p e q) : Blames o e q

/-- What comes of an action: the parser holds more tokens, or fails. -/
inductive Minded (o : Prospect) (ts : α → List Token) : EStateM.Result DocumentError Parser α → Prop
  | gives {a : α} {q : Parser} (holds : Holds o (ts a) q) : Minded o ts (.ok a q)
  | blames {e : DocumentError} {q : Parser} (blames : Blames o e q) : Minded o ts (.error e q)

/-- A parser that holds `ts` holds them after the action too, and the tokens `new` of what that
gives. -/
def Minds (ts : List Token) (x : Action α) (new : α → List Token) : Prop :=
  ∀ ⦃o p⦄, Holds o ts p → Minded o (fun a => new a ++ ts) (x p)

/-- A parser that holds tokens holds some of them. -/
theorem Holds.mono (h : Holds o ts p) (hus : us ⊆ ts) : Holds o us p :=
  ⟨h.further, fun t ht => h.marks t (hus ht)⟩

/-- After an action that gives tokens another one may blame them. -/
theorem Minded.bind {x : Action α} {f : α → Action β} {held : α → List Token}
    {held' : β → List Token} (hx : Minded o held (x p))
    (hf : ∀ a q, Holds o (held a) q → Minded o held' (f a q)) :
    Minded o held' ((x >>= f) p) := by
  simp only [Bind.bind, EStateM.bind]
  cases hxp : x p with
  | ok a q =>
    rw [hxp] at hx
    cases hx with
    | gives holds => exact hf a q holds
  | error e q =>
    rw [hxp] at hx
    cases hx with
    | blames blames => exact .blames blames

/-- A sequence holds the tokens of both of its parts. -/
theorem Minds.bind {x : Action α} {f : α → Action β} {new : α → List Token}
    {new' : β → List Token} (hx : Minds ts x new) (hf : ∀ a, Minds (new a ++ ts) (f a) new') :
    Minds ts (x >>= f) new' := by
  intro o p hp
  refine (hx hp).bind fun a q hq => ?_
  have hminded := hf a hq
  generalize f a q = result at hminded
  cases hminded with
  | gives holds =>
    refine .gives (holds.mono ?_)
    rw [List.append_subset]
    exact ⟨List.subset_append_left _ _,
      fun t ht => List.mem_append_right _ (List.mem_append_right _ ht)⟩
  | blames blames => exact .blames blames

/-- A result gives tokens that are held already. -/
theorem Minds.pure {a : α} {new : α → List Token} (h : new a ⊆ ts) :
    Minds ts (Pure.pure a) new := by
  intro o p hp
  exact .gives (hp.mono (List.append_subset.2 ⟨h, List.Subset.refl _⟩))

/-- A token that is held may be blamed. -/
theorem Minds.throw {e : DocumentError} {new : α → List Token} (plain : e.Plain)
    (h : ∃ t ∈ ts, e.position = t.position) : Minds ts (MonadExcept.throw e) new := by
  intro o p hp
  obtain ⟨t, ht, hposition⟩ := h
  exact .blames (.token plain hp.further (hposition ▸ hp.marks t ht))

/-- A token that may not stand in its place is to blame itself. -/
theorem Minds.unexpected {t : Token} {new : α → List Token} (h : t ∈ ts) :
    Minds ts (MonadExcept.throw t.unexpected) new := .throw trivial ⟨t, h, rfl⟩

/-- What does not touch the scanner reads nothing. -/
theorem Minds.of_modify {f : Parser → Parser} (hf : ∀ p, (f p).scanner = p.scanner) :
    Minds ts (modify f) fun _ => [] := by
  intro o p hp
  refine .gives (?_ : Holds o ts (f p))
  exact ⟨by rw [hf]; exact hp.further, fun t ht => by rw [hf]; exact hp.marks t ht⟩

/-! ## Reading tokens -/

/-- A token is read where the parser stands, unless it may be empty. -/
theorem further_of_lex {r : Recognizer} {t : Token} (hr : r ≠ .blank) (h : p.lex r = .ok t q) :
    (q.scanner.prospect = p.scanner.prospect ∧ r.nullable = true ∨
      p.scanner.prospect.Further q.scanner.prospect) ∧
        t.position = p.scanner.prospect.position := by
  obtain ⟨l, scanner, hl, rfl, rfl⟩ := of_lex_ok h
  exact Scanner.further_of_recognize hr hl

/-- The first token of a move is read from where the move began. -/
theorem minded_lex {r : Recognizer} {y : Token → Action α} {new : α → List Token}
    (hr : r.nullable = false) (hp : p.scanner.prospect.EndOf o) (hy : ∀ t, Minds [t] (y t) new) :
    Minded o (fun a => new a ++ []) ((lex r >>= y) p) := by
  have hblank : r ≠ .blank := by
    rintro rfl
    cases hr
  simp only [Bind.bind, EStateM.bind]
  cases hlex : p.lex r with
  | error e q => exact .blames (.refused hp (Or.inr ⟨r, hlex⟩))
  | ok t q =>
    obtain ⟨hread, hposition⟩ := further_of_lex hblank hlex
    have hfurther := hread.resolve_left fun h => by rw [hr] at h; cases h.2
    have hholds : Holds o [t] q := by
      refine ⟨hfurther.of_endOf hp, fun u hu => ?_⟩
      rw [List.mem_singleton.1 hu]
      exact ⟨_, hfurther.endOf, hp, hposition.symm⟩
    have hminded := hy t hholds
    dsimp only
    generalize y t q = result at hminded
    cases hminded with
    | gives holds => exact .gives (holds.mono (by simp))
    | blames blames => exact .blames blames

/-- So it is behind blanks. -/
theorem minded_lexAfterBlank {r : Recognizer} {y : Token → Action α} {new : α → List Token}
    (hr : r.nullable = false) (hp : p.scanner.prospect.EndOf o) (hy : ∀ t, Minds [t] (y t) new) :
    Minded o (fun a => new a ++ []) ((lexAfterBlank r >>= y) p) := by
  have hassoc : (lexAfterBlank r >>= y) p = (skipBlank >>= fun _ => lex r >>= y) p := by
    simp only [lexAfterBlank, bind, EStateM.bind]
    cases p.skipBlank <;> rfl
  rw [hassoc]
  simp only [Bind.bind, EStateM.bind]
  cases hblank : p.skipBlank with
  | error e q => exact .blames (.refused hp (Or.inl hblank))
  | ok u q => exact minded_lex hr ((leaves_skipBlank hblank).trans hp) hy

/-- What is held is held when more has been read. -/
theorem Holds.onward (h : Holds o ts p) (hq : p.scanner.prospect.Further q.scanner.prospect) :
    Holds o ts q :=
  ⟨h.further.trans hq, fun t ht => (h.marks t ht).onward hq.endOf⟩

/-- A token that may not be empty is held once it is read, whatever blanks stand before it. -/
theorem minds_lexAfterBlank {r : Recognizer} (hr : r.nullable = false) :
    Minds ts (lexAfterBlank r) fun t => [t] := by
  have hblank : r ≠ .blank := by
    rintro rfl
    cases hr
  intro o p hp
  have hend := hp.further.endOf
  simp only [lexAfterBlank, bind, EStateM.bind]
  cases hskip : p.skipBlank with
  | error e q => exact .blames (.refused hend (Or.inl hskip))
  | ok u p₁ =>
    have hrest := leaves_skipBlank hskip
    dsimp only
    cases hlex : p₁.lex r with
    | error e q => exact .blames (.refused (hrest.trans hend) (Or.inr ⟨r, hlex⟩))
    -- The new token is marked where it was read, the others are marked as before.
    | ok t q =>
      obtain ⟨hread, hposition⟩ := further_of_lex hblank hlex
      have hfurther := hread.resolve_left fun h => by rw [hr] at h; cases h.2
      obtain ⟨hq, hts⟩ := hp.onward (hfurther.of_endOf hrest)
      refine .gives ⟨hq, fun u hu => ?_⟩
      rcases List.mem_append.1 hu with hu | hu
      · rw [List.mem_singleton.1 hu]
        exact ⟨_, hfurther.endOf, hrest.trans hend, hposition.symm⟩
      · exact hts u hu

/-- A local name may be empty. -/
theorem minds_lex_localName : Minds ts (lex .localName) fun _ => [] := by
  intro o p hp
  cases hlex : p.lex .localName with
  | error e q => exact .blames (.refused hp.further.endOf (Or.inr ⟨_, hlex⟩))
  | ok t q =>
    obtain ⟨⟨hsame, -⟩ | hfurther, -⟩ := further_of_lex (by decide) hlex
    · exact .gives ⟨hsame ▸ hp.further, hsame ▸ hp.marks⟩
    · exact .gives (hp.onward hfurther)

/-! ## Statements -/

/-- Nothing is read in order to expect something. -/
theorem minds_expect (expected : Expected) : Minds ts (expect expected) fun _ => [] :=
  .of_modify fun _ => rfl

variable [IriLibrary]

/-- A reference that cannot be resolved is blamed on its token. -/
theorem minds_resolve {t : Token} (ht : t ∈ ts) (reference : List Char) :
    Minds ts (resolve reference t.position) fun _ => [] := by
  intro o p hp
  have hblame {e : DocumentError} (plain : e.Plain) (hposition : e.position = t.position) :
      Blames o e p := .token plain hp.further (hposition ▸ hp.marks t ht)
  simp only [resolve, bind, EStateM.bind]
  simp only [get_apply]
  cases p.base? with
  | none => exact .gives hp
  | some base =>
    dsimp only
    cases IriLibrary.resolve base reference with
    | ok iri => exact .gives hp
    | error e => exact .blames (hblame trivial rfl)

omit [IriLibrary] in
/-- So is a name whose namespace is not declared. -/
theorem minds_expand {t : Token} (ht : t ∈ ts) : Minds ts (expand t) fun _ => [] := by
  intro o p hp
  simp only [expand, bind, EStateM.bind]
  simp only [get_apply]
  cases p.prefixes.find? (namespaceName t) with
  | none => exact .blames (.token trivial hp.further (hp.marks t ht))
  | some iri =>
    exact minds_lex_localName.bind (fun rest => Minds.pure (List.nil_subset _)) hp

/-- The token of an IRI is to blame if it stands for none. -/
theorem minds_resource {t : Token} (ht : t ∈ ts) : Minds ts (resource t) fun _ => [] := by
  unfold resource
  split
  · split
    · exact minds_resolve ht _
    · exact .throw trivial ⟨t, ht, rfl⟩
  · exact minds_expand ht
  · exact .unexpected ht

omit [IriLibrary] in
/-- Where a directive should end, the token that stands there is to blame. -/
theorem minds_readDot : Minds ts readDot fun _ => [] := by
  apply (minds_lexAfterBlank rfl).bind
  intro t
  split
  · exact .pure (List.nil_subset _)
  · exact .unexpected List.mem_cons_self

/-- The token of what a directive declares is held after it. -/
theorem minds_readDeclared (dotted : Bool) :
    Minds ts (readDeclared dotted) fun declared => [declared.1] := by
  apply (minds_lexAfterBlank rfl).bind
  intro t
  apply (minds_resource List.mem_cons_self).bind
  intro iri
  have hpure : Minds ([t] ++ ts) (pure (t, iri)) fun declared => [declared.1] := .pure (by simp)
  cases dotted with
  | false => exact hpure
  | true => exact minds_readDot.bind fun _ => hpure

/-- A base that is refused is blamed on its reference. -/
theorem minds_readBase (dotted : Bool) : Minds ts (readBase dotted) fun _ => [] := by
  apply (minds_readDeclared dotted).bind
  rintro ⟨t, iri⟩
  dsimp only
  split
  · exact .of_modify fun _ => rfl
  · exact .throw trivial ⟨t, List.mem_cons_self, rfl⟩

/-- A namespace that is refused is blamed on a token of its directive. -/
theorem minds_readPrefix (dotted : Bool) : Minds ts (readPrefix dotted) fun _ => [] := by
  apply (minds_lexAfterBlank rfl).bind
  intro name
  exact (minds_readDeclared dotted).bind fun _ => .of_modify fun _ => rfl

/-- An IRI is named, and what comes next is set. -/
theorem minds_named {t : Token} (ht : t ∈ ts) (expected : String → Expected) :
    Minds ts (do let iri ← resource t; expect (expected iri)) fun _ => [] :=
  (minds_resource ht).bind fun _ => minds_expect _

/-- What fails behind the first token of a statement is blamed on it or on what follows. -/
theorem minds_readStatement (t : Token) : Minds [t] (readStatement t) fun _ => [] := by
  unfold readStatement
  split
  · exact minds_readBase true
  · exact minds_readBase false
  · exact minds_readPrefix true
  · exact minds_readPrefix false
  · exact minds_named List.mem_cons_self _
  · exact minds_named List.mem_cons_self _
  · exact minds_expect _
  · exact .unexpected List.mem_cons_self

/-- So is what fails behind a token in the place of a predicate. -/
theorem minds_readPredicate (subject : Term) (continued : Bool) (t : Token) :
    Minds [t] (readPredicate subject continued t) fun _ => [] := by
  unfold readPredicate
  split
  · split
    · exact minds_expect _
    · exact .unexpected List.mem_cons_self
  · split
    · exact minds_expect _
    · exact .unexpected List.mem_cons_self
  · exact minds_expect _
  · exact minds_named List.mem_cons_self _

omit [IriLibrary] in
/-- A term that is known is an object once the token after it is read. -/
theorem minds_ended (term : Term) :
    Minds ts (do return (term, ← readTerminator)) fun _ => [] :=
  (minds_lexAfterBlank rfl).bind fun _ => .pure (List.nil_subset _)

/-- An object that a name stands for. -/
theorem minds_namedTerm {t : Token} (ht : t ∈ ts) (term : String → Term) :
    Minds ts (do let iri ← resource t; return (term iri, ← readTerminator)) fun _ => [] :=
  (minds_resource ht).bind fun _ => minds_ended _

/-- What follows a string is blamed on what follows it. -/
theorem minds_readSuffix (lexical : String) : Minds ts (readSuffix lexical) fun _ => [] := by
  apply (minds_lexAfterBlank rfl).bind
  intro t
  split
  · exact minds_ended _
  · apply (minds_lexAfterBlank rfl).bind
    exact fun d => minds_namedTerm List.mem_cons_self
      fun datatype => .literal ⟨lexical, some datatype, none⟩
  · exact .pure (List.nil_subset _)

/-- A string that cannot be decoded is to blame. -/
theorem minds_readString (n : Nat) {t : Token} (ht : t ∈ ts) :
    Minds ts (readString n t) fun _ => [] := by
  unfold readString
  split
  · exact minds_readSuffix _
  · exact .throw trivial ⟨t, ht, rfl⟩

/-- What fails behind a token in the place of an object is blamed on it or on what follows. -/
theorem minds_readObject (t : Token) : Minds [t] (readObject t) fun _ => [] := by
  have ht : t ∈ [t] := List.mem_cons_self
  unfold readObject
  split
  · exact minds_namedTerm ht .iri
  · exact minds_namedTerm ht .iri
  · exact minds_ended _
  · exact minds_ended _
  · exact minds_ended _
  · exact minds_ended _
  · exact minds_ended _
  · exact minds_readString 1 ht
  · exact minds_readString 3 ht
  · exact .unexpected ht

/-- So is what fails before the triple is complete. -/
theorem minds_readTriple (subject predicate : Term) (t : Token) :
    Minds [t] (readTriple subject predicate t) fun _ => [] := by
  apply (minds_readObject t).bind
  rintro ⟨object, terminator⟩
  exact (minds_expect _).bind fun _ => .pure (List.nil_subset _)

/-! ## Moves -/

/-- What comes of a move that does not find the end: a token has been read, or one is to blame. -/
inductive Advances (p : Parser) : EStateM.Result DocumentError Parser α → Prop
  | onward {a : α} {q : Parser} (further : p.scanner.prospect.Further q.scanner.prospect) :
    Advances p (.ok a q)
  | trips {e : DocumentError} {q : Parser} (blames : Blames p.scanner.prospect e q) :
    Advances p (.error e q)

/-- **Every move reads a token or blames one**, unless the document has ended. -/
theorem advances_move (p : Parser) :
    Advances p p.move ∨ ∃ p', p.move = .ok .finished p' := by
  have hadvances {r : EStateM.Result DocumentError Parser Outcome}
      (h : Minded p.scanner.prospect (fun _ => [] ++ []) r) : Advances p r := by
    cases h with
    | gives holds => exact .onward holds.further
    | blames blames => exact .trips blames
  have hstart := Prospect.EndOf.refl p.scanner.prospect
  have hbegin {q : Parser} (hq : q.scanner.prospect.EndOf p.scanner.prospect) :
      Advances p ((do readStatement (← lex .statement); return Outcome.onward : Action Outcome)
        q) := by
    refine hadvances (minded_lex rfl hq fun t => ?_)
    exact (minds_readStatement t).bind fun _ => .pure (List.nil_subset _)
  -- Only before a statement the document may end instead.
  unfold move
  split
  · exact Or.inr ⟨p, rfl⟩
  · rw [moveStatement_eq]
    simp only [bind, EStateM.bind]
    cases hskip : p.skipBlank with
    | error e q => exact Or.inl (.trips (.refused hstart (Or.inl hskip)))
    | ok u q =>
      simp only [beginStatement, bind, EStateM.bind]
      simp only [get_apply]
      split
      · exact Or.inr ⟨_, rfl⟩
      · exact Or.inl (hbegin (leaves_skipBlank hskip))
  · refine Or.inl (hadvances (minded_lexAfterBlank rfl hstart fun t => ?_))
    exact (minds_readPredicate _ _ t).bind fun _ => .pure (List.nil_subset _)
  · refine Or.inl (hadvances (minded_lexAfterBlank rfl hstart fun t => ?_))
    exact (minds_readTriple _ _ t).bind fun _ => .pure (List.nil_subset _)

end Parser

end RdfTurtle
