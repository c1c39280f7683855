import RdfTurtle.Proofs.Recognition.Keywords
import RdfTurtle.Proofs.Recognition.Words

/-! # Recognizers that choose among kinds of token

Where several kinds of token may stand, the first code point tells which of them begins. From there
on the token is read as where it alone may stand, even if a keyword is spelled alike: as soon as the
letters differ, or a name goes on behind them, it is a prefixed name.

* **`Recognizer.Shares`**, **`Recognizer.Offers`** — the kinds of token and the keywords of a place.
* **`State.takes_shared`** — a kind of token is taken alike wherever it may stand.
* **`State.takes_start`** — where the automaton takes a keyword.
* **`Scanner.composites_agree`** — the same of the recognizers. -/

namespace RdfTurtle

/-- The recognizer `r` has tokens of kind `p` read as the recognizer `d` reads them. -/
inductive Recognizer.Shares : Recognizer → Production → Recognizer → Prop
  | namespaceName {r : Recognizer} (h : Syntax.NamesIri r) : Shares r .namespaceName .namespaceName
  | iriRef {r : Recognizer} (h : Syntax.NamesIri r) : Shares r .iriRef .iriRef
  | subjectLabel : Shares .statement .blankNodeLabel .blankNodeLabel
  | objectLabel : Shares .object .blankNodeLabel .blankNodeLabel
  | shortString (q : Quote) : Shares .object (.shortString q) .string
  | longString (q : Quote) : Shares .object (.longString q) .string
  | integer : Shares .object .integer .number
  | decimal : Shares .object .decimal .number
  | double : Shares .object .double .number
  | languageTag : Shares .literalSuffix .languageTag .languageTag
  | semicolon : Shares .literalSuffix .semicolon .terminator
  | comma : Shares .literalSuffix .comma .terminator
  | dot : Shares .literalSuffix .dot .terminator

/-- Blanks are not shared. -/
theorem Recognizer.Shares.ne_blank {r d : Recognizer} {p : Production} (h : r.Shares p d) :
    r ≠ .blank ∧ d ≠ .blank := by
  rcases h with (rfl | rfl | rfl | rfl) | (rfl | rfl | rfl | rfl) <;> decide

/-- The keyword may stand in the place. -/
inductive Recognizer.Offers : Recognizer → Keyword → Prop
  | sparqlBase : Offers .statement .sparqlBase
  | sparqlPrefix : Offers .statement .sparqlPrefix
  | typeWord : Offers .predicate .typeWord
  | trueWord : Offers .object .trueWord
  | falseWord : Offers .object .falseWord

/-- The code points with which tokens of a sort begin. -/
def Family.Begins : Family → CodePoint → Prop
  | .word, c => c = '@' ∨ c = ':' ∨ c ∈ CharClass.nameStart
  | .label, c => c = '_'
  | .iri, c => c = '<'
  | .string, c => ∃ q : Quote, c = q.char
  | .number, c => c ∈ CharClass.sign ∨ c ∈ CharClass.digit ∨ c = '.'
  | .tag, c => c = '@'
  | .mark, c => c = '^'
  | .terminator, c => c = ';' ∨ c = ',' ∨ c = '.'
  | .localName, _ | .blank, _ => True

namespace State

variable {iri : Strictness} {p : Production} {r d : Recognizer} {c : CodePoint} {k : Keyword}
  {cs text : List CodePoint}

/-- The first code point of a token tells of which sorts it may be. -/
theorem family_of_start (r : Recognizer) (c : CodePoint) :
    Move.Only (fun m => ∃ f, m.family = some f ∧ f.Begins c) ((State.start r).next iri c) := by
  have hword (k : Keyword) (h : k.Reads k.head c) : Family.word.Begins c :=
    Or.inr (Or.inr (Keyword.nameStart_of_reads List.mem_cons_self h))
  cases r <;> repeat' refine Move.Only.ite (fun _ => ?_) fun _ => ?_
  all_goals first
    | exact .none
    | exact .some ⟨_, rfl, trivial⟩
    | exact .some ⟨_, rfl, ‹_›⟩
    | exact .some ⟨_, rfl, Or.inl ‹_›⟩
    | exact .some ⟨_, rfl, Or.inr (Or.inl ‹_›)⟩
    | exact .some ⟨_, rfl, Or.inr (Or.inr ‹_›)⟩
    | exact .some ⟨_, rfl, .double, ‹_›⟩
    | exact .some ⟨_, rfl, .single, ‹_›⟩
    | exact .some ⟨_, rfl, hword .sparqlBase ‹_›⟩
    | exact .some ⟨_, rfl, hword .sparqlPrefix ‹_›⟩
    | exact .some ⟨_, rfl, hword .typeWord (Or.inl ‹_›)⟩
    | exact .some ⟨_, rfl, hword .trueWord (Or.inl ‹_›)⟩
    | exact .some ⟨_, rfl, hword .falseWord (Or.inl ‹_›)⟩

/-- A recognizer takes no token of a sort that does not begin with the first code point. -/
theorem begins_of_takes (hr : r.nullable = false)
    (h : ((State.start r).scan iri [] (c :: cs)).Takes p text) : p.family.Begins c := by
  have haccepting : (State.start r).accepting = none :=
    accepting_of_untaken (Or.inl ⟨r, rfl, hr⟩)
  cases hnext : (State.start r).next iri c with
  | none =>
    rw [takes_of_stuck hnext, haccepting] at h
    cases h.1
  | some m =>
    obtain ⟨f, hfamily, hbegins⟩ := family_of_start r c m hnext
    -- The first move fixes the sort, and no later one changes it.
    have hsome : p.family = f := by
      cases m with
      | finish p' =>
        rw [takes_of_finish hnext] at h
        rw [h.1]
        exact Option.some.inj hfamily
      | take st =>
        rw [takes_of_take hnext] at h
        obtain ⟨more, -, hmore⟩ := h
        exact family_of_path (path_of_takes hmore) hfamily
      | skip st =>
        rw [scan_of_skip hnext] at h
        exact family_of_path (path_of_takes h) hfamily
      | defer st =>
        rw [takes_of_defer hnext] at h
        exact family_of_path (path_of_takes h) hfamily
    rwa [hsome]

/-! ## Words -/

/-- The rest of a word without variants is only one kind of token. -/
theorem production_of_spelling {x : Char} {letters : List Char} {p' : Production}
    (h : Path iri p (.spelling x letters p') [] cs) : p = p' := by
  induction letters generalizing x cs with
  | nil =>
    obtain ⟨c, hmove⟩ := path_moves h rfl
    rcases hmove.ite with ⟨-, hmove⟩ | ⟨-, hmove⟩
    · exact hmove.finish.1.symm
    · exact (Move.Chosen.none hmove).elim
  | cons y letters ih =>
    obtain ⟨c, hmove⟩ := path_moves h rfl
    rcases hmove.ite with ⟨-, hmove⟩ | ⟨-, hmove⟩
    · obtain ⟨_, -, hmore⟩ := hmove.take
      exact ih hmore
    · exact (Move.Chosen.none hmove).elim

/-- Behind an `@` a statement has the word of a directive. -/
theorem production_of_directive (h : Path iri p .directive [] cs) :
    p = .atBase ∨ p = .atPrefix := by
  obtain ⟨c, hmove⟩ := path_moves h rfl
  rcases hmove.ite with ⟨-, hmove⟩ | ⟨-, hmove⟩
  · obtain ⟨_, -, hmore⟩ := hmove.take
    exact Or.inl (production_of_spelling hmore)
  · rcases hmove.ite with ⟨-, hmove⟩ | ⟨-, hmove⟩
    · obtain ⟨_, -, hmore⟩ := hmove.take
      exact Or.inr (production_of_spelling hmore)
    · exact (Move.Chosen.none hmove).elim

/-! ## Tokens that are read alike -/

/-- At an `@` no namespace begins. -/
theorem not_takes_namespace_at (hr : Syntax.NamesIri r ∨ r = .namespaceName) :
    ¬ ((State.start r).scan iri [] (CodePoint.ofChar '@' :: cs)).Takes .namespaceName text := by
  intro h
  have hnext : (State.start r).next iri '@' = none ∨
      (State.start r).next iri '@' = some (.take .directive) := by
    rcases hr with (rfl | rfl | rfl | rfl) | rfl <;>
      simp [next, Move.ofResource, CharClass.sign, CharClass.digit, CharClass.nameStart,
        CharClass.mem_iff]
  have haccepting : (State.start r).accepting = none := by
    rcases hr with (rfl | rfl | rfl | rfl) | rfl <;> rfl
  rcases hnext with hnext | hnext
  · rw [takes_of_stuck hnext, haccepting] at h
    cases h.1
  · rw [takes_of_take hnext] at h
    obtain ⟨more, -, hmore⟩ := h
    rcases production_of_directive (path_of_takes hmore) with h | h <;> cases h

/-- Within a name a namespace is taken alike, whether or not the name began like a keyword. -/
theorem takes_inNamespace {st : State} (hst : Syntax.InNamespace st) :
    (st.scan iri [] cs).Takes .namespaceName text ↔
      (State.namespaceBody.scan iri [] cs).Takes .namespaceName text := by
  cases hst with
  | body => rfl
  | keyword k hletters => exact (takes_namespace cs).1 k _ hletters text

/-- A namespace is read alike wherever an IRI may be named. -/
theorem takes_namespaceName (hr : Syntax.NamesIri r) (h : Family.word.Begins c) :
    ((State.start r).scan iri [] (c :: cs)).Takes .namespaceName text ↔
      ((State.start .namespaceName).scan iri [] (c :: cs)).Takes .namespaceName text := by
  rcases h with rfl | rfl | hc
  · exact iff_of_false (not_takes_namespace_at (Or.inl hr)) (not_takes_namespace_at (Or.inr rfl))
  · rw [takes_of_finish (Syntax.next_of_startColon (Or.inl hr)),
      takes_of_finish (Syntax.next_of_startColon (Or.inr rfl))]
  · obtain ⟨x, rfl⟩ := exists_char (by simp [CharClass.nameStart]) hc
    obtain ⟨st, hnext, hst⟩ := @Syntax.next_of_nameStart iri _ _ (Or.inl hr) hc
    obtain ⟨st', hnext', hst'⟩ :=
      @Syntax.next_of_nameStart iri .namespaceName _ (Or.inr rfl) hc
    rw [takes_of_take hnext, takes_of_take hnext']
    simp only [takes_inNamespace hst, takes_inNamespace hst']

/-- Before the digits of a number a dot that was deferred is as good as one that was taken. -/
theorem takes_leadingDot {ds : List CodePoint} :
    (State.leadingDot.scan iri ds cs).Takes p text ↔
      ((State.leadingDot.scan iri [] cs).after ds).Takes p text := by
  cases cs with
  | nil => simp [Scan.Takes, scan, accepting, Scan.after]
  | cons c cs =>
    by_cases hc : c ∈ CharClass.digit
    · have hnext : State.leadingDot.next iri c = some (.take .fraction) := by
        simp only [next, if_pos hc]
      rw [scan_of_take hnext, scan_of_take hnext, Scan.after_after]
      rfl
    · have hnext : State.leadingDot.next iri c = none := by simp only [next, if_neg hc]
      rw [takes_of_stuck hnext, Scan.takes_after]
      simp [takes_of_stuck hnext, accepting]

/-- A number is read alike in the place of an object and by itself. -/
theorem takes_number (h : Family.number.Begins c) :
    ((State.start .object).scan iri [] (c :: cs)).Takes p text ↔
      ((State.start .number).scan iri [] (c :: cs)).Takes p text := by
  rcases h with hc | hc | rfl
  · refine takes_congr ?_ Iff.rfl
    rcases cases_of_sign hc with rfl | rfl <;> simp [next, CharClass.sign, CharClass.mem_iff]
  · have hsign : c ∉ CharClass.sign := by
      intro h
      rcases cases_of_sign h with rfl | rfl <;> revert hc <;> decide +kernel
    obtain ⟨x, rfl⟩ := exists_digit hc
    refine takes_congr ?_ Iff.rfl
    rw [Syntax.next_of_digit (Or.inl (Or.inl rfl)) x hc]
    simp only [next, if_neg hsign, if_pos hc]
  · have hobject : (State.start .object).next iri '.' = some (.defer .leadingDot) := by
      simp [next]
    have hnumber : (State.start .number).next iri '.' = some (.take .leadingDot) := by
      simp [next, CharClass.sign, CharClass.digit, CharClass.mem_iff]
    rw [takes_of_defer hobject, scan_of_take hnumber, takes_leadingDot]

/-- **A recognizer that shares a kind of token takes the same tokens of the kind.** -/
theorem takes_shared (h : r.Shares p d) :
    ((State.start r).scan iri [] cs).Takes p text ↔
      ((State.start d).scan iri [] cs).Takes p text := by
  have hr : r.nullable = false := by
    rcases h with (rfl | rfl | rfl | rfl) | (rfl | rfl | rfl | rfl) <;> rfl
  have hd : d.nullable = false := by cases h <;> rfl
  have haccepting : (State.start r).accepting = (State.start d).accepting := by
    rw [accepting_of_untaken (Or.inl ⟨r, rfl, hr⟩), accepting_of_untaken (Or.inl ⟨d, rfl, hd⟩)]
  cases cs with
  | nil => rw [Scan.Takes, Scan.Takes, scan, scan, haccepting]
  | cons c cs =>
    -- Where the kind may begin both recognizers make the same first move; elsewhere neither takes
    -- a token of the kind.
    by_cases hc : p.family.Begins c
    · cases h with
      | namespaceName h => exact takes_namespaceName h hc
      | iriRef h =>
        obtain rfl := hc
        refine takes_congr ?_ (by rw [haccepting])
        rw [Syntax.next_of_bracket (Or.inl h), Syntax.next_of_bracket (Or.inr rfl)]
      | integer | decimal | double => exact takes_number hc
      | subjectLabel | objectLabel =>
        obtain rfl := hc
        exact takes_congr (by simp [next]) Iff.rfl
      | shortString | longString =>
        obtain ⟨q, rfl⟩ := hc
        exact takes_congr (by cases q <;> simp [next, Quote.char]) Iff.rfl
      | languageTag =>
        obtain rfl := hc
        exact takes_congr (by simp [next]) Iff.rfl
      | semicolon | comma | dot =>
        rcases hc with rfl | rfl | rfl <;>
          exact takes_congr (by simp [next, Move.ofTerminator]) Iff.rfl
    · exact iff_of_false (fun h => hc (begins_of_takes hr h)) fun h => hc (begins_of_takes hd h)

/-! ## Keywords -/

/-- The first move of a statement, a predicate or an object: into one of its keywords, behind the
`@` of a directive, into a namespace, or into a token that is no word. -/
inductive WordMove (r : Recognizer) (c : CodePoint) : Move → Prop
  | keyword {k : Keyword} (h : r.Offers k) (hc : k.Reads k.head c) :
    WordMove r c (.take (.keyword k k.tail))
  | directive : WordMove r c (.take .directive)
  | name {m : Move} (h : m = .finish .namespaceName ∨ m = .take .namespaceBody) : WordMove r c m
  | other {m : Move} {f : Family} (h : m.family = some f) (hword : f ≠ .word) : WordMove r c m

/-- Each first move of these places is one of these. -/
theorem wordMove_of_next (hr : r.Offers k) (c : CodePoint) :
    Move.Only (WordMove r c) ((State.start r).next iri c) := by
  cases hr <;> repeat' refine Move.Only.ite (fun _ => ?_) fun _ => ?_
  all_goals first
    | exact .none
    | exact .some (.other rfl (by decide))
    | exact .some .directive
    | exact .some (.name (Or.inl rfl))
    | exact .some (.name (Or.inr rfl))
    | exact .some (.keyword .sparqlBase ‹_›)
    | exact .some (.keyword .sparqlPrefix ‹_›)
    | exact .some (.keyword .typeWord (Or.inl ‹_›))
    | exact .some (.keyword .trueWord (Or.inl ‹_›))
    | exact .some (.keyword .falseWord (Or.inl ‹_›))

/-- What is read as a keyword is spelled as one that is read in the place. -/
theorem reads_of_start (hr : r.Offers k) (h : Path iri k.production (.start r) [] text) :
    ∃ k' : Keyword, r.Offers k' ∧ k'.production = k.production ∧
      List.Forall₂ k'.Reads (k'.head :: k'.tail) text := by
  have haccepting : (State.start r).accepting = none := by cases hr <;> rfl
  have hne := production_ne_namespaceName k
  obtain ⟨c, m, hnext, hpath⟩ := path_moves h haccepting
  have hmove : Move.Chosen iri k.production c [] text (some m) := ⟨m, rfl, hpath⟩
  cases wordMove_of_next hr c m hnext with
  | keyword hk hc =>
    obtain ⟨_, rfl, hmore⟩ := hmove.take
    obtain ⟨hproduction, hletters⟩ := keyword_of_path hmore hne
    exact ⟨_, hk, hproduction.symm, .cons hc hletters⟩
  | directive =>
    obtain ⟨_, -, hmore⟩ := hmove.take
    exfalso
    rcases production_of_directive hmore with h | h <;> cases k <;> cases h
  | name h =>
    rcases h with rfl | rfl
    · exact absurd hmove.finish.1.symm hne
    · obtain ⟨_, -, hmore⟩ := hmove.take
      exact absurd (nameEnd_of_path hmore rfl (Or.inl rfl)).1 hne
  | other h hword =>
    have hfamily := hmove.family (.some h)
    exfalso
    cases k <;> exact hword hfamily.symm

/-- The first letter of a keyword leads into it. -/
theorem next_of_head (hr : r.Offers k) (hc : k.Reads k.head c) :
    (State.start r).next iri c = some (.take (.keyword k k.tail)) := by
  cases hr <;> rcases hc with rfl | ⟨hfolds, rfl⟩ <;>
    first
      | rfl
      | cases hfolds

/-- **A keyword is taken in its place** in each of its spellings, if it ends before what follows. -/
theorem takes_start (hr : r.Offers k) :
    ((State.start r).scan iri [] (text ++ cs)).Takes k.production text ↔
      ∃ k' : Keyword, r.Offers k' ∧ k'.production = k.production ∧
        List.Forall₂ k'.Reads (k'.head :: k'.tail) text ∧ k'.EndsBefore cs := by
  constructor
  · intro h
    obtain ⟨k', hk', hproduction, hreads⟩ := reads_of_start hr (path_of_takes h)
    refine ⟨k', hk', hproduction, hreads, ?_⟩
    cases hreads with
    | cons hc hletters =>
      rw [List.cons_append, takes_cons_of_take (next_of_head hk' hc), ← hproduction,
        takes_keyword] at h
      exact h.2
  · rintro ⟨k', hk', hproduction, hreads, hends⟩
    cases hreads with
    | cons hc hletters =>
      rw [List.cons_append, takes_cons_of_take (next_of_head hk' hc), ← hproduction,
        takes_keyword]
      exact ⟨hletters, hends⟩

end State

namespace Keyword

variable {k : Keyword} {letters : List Char} {text : List CodePoint}

/-- The only spelling of a word in which case matters. -/
theorem reads_iff_of_not_folds (hk : k.foldsCase = false) :
    List.Forall₂ k.Reads letters text ↔ text = codes letters := by
  refine ⟨State.codes_of_reads hk, ?_⟩
  rintro rfl
  induction letters with
  | nil => exact .nil
  | cons x letters ih => exact .cons (Or.inl rfl) ih

end Keyword

namespace Scanner

variable {s : Scanner} {r d : Recognizer} {p : Production} {k : Keyword}
  {cs text rest : List CodePoint}

/-- A recognizer that shares a kind of token takes the same tokens of the kind. -/
theorem takes_shared_iff (h : s.Awaits cs) (hshares : r.Shares p d) (hcs : cs = text ++ rest) :
    s.Takes r p text ↔ s.Takes d p text := by
  obtain ⟨hr, hd⟩ := hshares.ne_blank
  rw [takes_iff h hr hcs, takes_iff h hd hcs, State.takes_shared hshares]

/-- A keyword is accepted in its place in each of its spellings, if it ends before what follows. -/
theorem takes_keyword_iff (h : s.Awaits cs) (hr : r.Offers k) (hcs : cs = text ++ rest) :
    s.Takes r k.production text ↔ ∃ k' : Keyword, r.Offers k' ∧ k'.production = k.production ∧
      List.Forall₂ k'.Reads (k'.head :: k'.tail) text ∧ k'.EndsBefore rest := by
  have hblank : r ≠ .blank := by cases hr <;> decide
  rw [takes_iff h hblank hcs, hcs, State.takes_start hr]

/-- A keyword that is the only one of its kind. -/
theorem takes_keyword_iff_of_not_boolean (h : s.Awaits cs) (hr : r.Offers k)
    (hk : k.isBoolean = false) (hcs : cs = text ++ rest) :
    s.Takes r k.production text ↔
      List.Forall₂ k.Reads (k.head :: k.tail) text ∧ Apart rest := by
  have hends : k.EndsBefore rest ↔ Apart rest := by simp [Keyword.EndsBefore, hk]
  rw [takes_keyword_iff h hr hcs, ← hends]
  constructor
  · rintro ⟨k', hk', hproduction, hspelled⟩
    have hsame : k' = k := by
      cases hr <;> cases hk' <;> first
        | rfl
        | exact absurd hproduction (by decide)
        | exact absurd hk (by decide)
    exact hsame ▸ hspelled
  · exact fun hspelled => ⟨k, hr, rfl, hspelled⟩

/-- **Recognizers that choose among kinds of token agree with those of the kinds**, and a keyword is
told from a prefixed name that begins like it. -/
theorem composites_agree (h : s.Awaits cs) :
    (∀ r p d, Recognizer.Shares r p d → ∀ l after, l.production = p →
      ((∃ s', recognize r s = .ok l s' ∧ s'.prospect = after) ↔
        ∃ s', recognize d s = .ok l s' ∧ s'.prospect = after)) ∧
      (∀ r l s', r ≠ .blank → recognize r s = .ok l s' →
        ∃ text rest, cs = text ++ rest ∧ s.Takes r l.production text) ∧
      ∀ text rest, cs = text ++ rest →
        (s.Takes .statement .sparqlBase text ↔
          InAnyCase ['b', 'a', 's', 'e'] text ∧ Apart rest) ∧
        (s.Takes .statement .sparqlPrefix text ↔
          InAnyCase ['p', 'r', 'e', 'f', 'i', 'x'] text ∧ Apart rest) ∧
        (s.Takes .predicate .typeWord text ↔ text = codes ['a'] ∧ Apart rest) ∧
        (s.Takes .object .boolean text ↔
          (text = codes ['t', 'r', 'u', 'e'] ∨ text = codes ['f', 'a', 'l', 's', 'e']) ∧
            ApartBehindDots rest) := by
  refine ⟨?_, ?_, fun text rest hcs => ⟨?_, ?_, ?_, ?_⟩⟩
  · rintro r p d hshares l after rfl
    obtain ⟨hr, hd⟩ := hshares.ne_blank
    rw [accepts_iff h hr, accepts_iff h hd]
    refine exists_congr fun text => exists_congr fun rest => and_congr_right fun hcs => ?_
    rw [takes_shared_iff h hshares hcs]
  · intro r l s' hr hl
    obtain ⟨text, rest, hcs, -, htakes⟩ := exists_takes h hr hl
    exact ⟨text, rest, hcs, htakes⟩
  · rw [← Keyword.reads_iff_of_folds (k := .sparqlBase) rfl]
    exact takes_keyword_iff_of_not_boolean h .sparqlBase rfl hcs
  · rw [← Keyword.reads_iff_of_folds (k := .sparqlPrefix) rfl]
    exact takes_keyword_iff_of_not_boolean h .sparqlPrefix rfl hcs
  · rw [← @Keyword.reads_iff_of_not_folds .typeWord ['a'] text rfl]
    exact takes_keyword_iff_of_not_boolean h .typeWord rfl hcs
  · have htrue := @Keyword.reads_iff_of_not_folds .trueWord ['t', 'r', 'u', 'e'] text rfl
    have hfalse := @Keyword.reads_iff_of_not_folds .falseWord ['f', 'a', 'l', 's', 'e'] text rfl
    rw [← htrue, ← hfalse]
    -- Both words are one kind of token, so that either may have been read.
    refine (takes_keyword_iff h .trueWord hcs).trans ⟨?_, ?_⟩
    · rintro ⟨k, hk, -, hreads, hends⟩
      cases hk with
      | trueWord => exact ⟨Or.inl hreads, hends⟩
      | falseWord => exact ⟨Or.inr hreads, hends⟩
    · rintro ⟨hreads | hreads, hends⟩
      · exact ⟨_, .trueWord, rfl, hreads, hends⟩
      · exact ⟨_, .falseWord, rfl, hreads, hends⟩

/-- The word of a directive in mixed case, ended by the bracket of an IRI reference. -/
theorem composites_agree_base :
    ∃ s : Scanner, s.Awaits (codes ['b', 'A', 's', 'E', '<']) ∧
      s.Takes .statement .sparqlBase (codes ['b', 'A', 's', 'E']) := by
  obtain ⟨s, -, h, -⟩ := awaits_ofSource (.memory _) {}
  refine ⟨s, h, (((composites_agree h).2.2 _ (codes ['<']) rfl).1).2 ⟨?_, ?_⟩⟩
  · simp [InAnyCase]
  · simp [Apart, CharClass.nameChar, CharClass.mem_iff]

end Scanner

end RdfTurtle
