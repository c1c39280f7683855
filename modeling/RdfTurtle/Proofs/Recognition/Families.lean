import RdfTurtle.Proofs.Recognition.Names

/-! # Tokens by their states

Once a token has begun, the states say which sort of token it is, so that the tokens of a kind can
be told from the few states that lead to it.

* **`Family`** — the sorts of token, of productions and of states.
* **`State.family_of_path`** — what begins in a state of a family is a token of the family.
* **`State.Shifts`** — what is deferred and what is skipped.
* **`State.label_of_path`**, **`State.language_of_path`** — blank node labels and language tags
  read as the grammar says. -/

namespace RdfTurtle

/-- Sorts of token: what the kinds have in common that begin alike. -/
inductive Family where
  /-- Words and namespaces -/
  | word
  | label
  | iri
  | localName
  | string
  | number
  | tag
  | mark
  | terminator
  | blank
  deriving DecidableEq, Repr

/-- The sort of a kind of token. -/
def Production.family : Production → Family
  | .atBase | .atPrefix | .sparqlBase | .sparqlPrefix => .word
  | .namespaceName | .boolean | .typeWord => .word
  | .blankNodeLabel => .label
  | .iriRef => .iri
  | .localName => .localName
  | .shortString _ | .longString _ => .string
  | .integer | .decimal | .double => .number
  | .languageTag => .tag
  | .datatypeMark => .mark
  | .semicolon | .comma | .dot => .terminator
  | .blank => .blank

/-- The sort of token that a body is part of. -/
def Body.family : Body → Family
  | .iri => .iri
  | .localName => .localName
  | .short _ | .long _ => .string

/-- The sort of token that has begun in a state. Before the first character there is one only where
the place admits a single sort. -/
def State.family : State → Option Family
  | .start .localName => some .localName
  | .start .blank | .comment => some .blank
  | .start _ => none
  | .spelling _ _ p => some p.family
  | .directive | .keyword .. | .booleanDots | .namespaceBody | .namespaceDots => some .word
  | .labelColon | .labelFirst | .label => some .label
  | .body b | .escape b | .hex _ b => some b.family
  | .openedOnce _ | .openedTwice _ | .closingOnce _ | .closingTwice _ => some .string
  | .sign | .integer | .integerDot | .leadingDot | .fraction => some .number
  | .exponent | .exponentSign | .exponentDigits => some .number
  | .tagFirst | .tag | .subtagFirst | .subtag => some .tag
  | .caret => some .mark

/-- The sort of token that a move belongs to. -/
def Move.family : Move → Option Family
  | .take st | .skip st | .defer st => st.family
  | .finish p => some p.family

/-- Whatever the move is, it satisfies `q`. -/
def Move.Only (q : Move → Prop) (m : Option Move) : Prop := ∀ m', m = some m' → q m'

namespace Move.Only

variable {q : Move → Prop}

/-- No move at all is as it should be. -/
theorem none : Only q none := fun _ h => by cases h

/-- One move is if it satisfies the condition. -/
theorem some {m : Move} (h : q m) : Only q (some m) := fun _ hm => Option.some.inj hm ▸ h

/-- A choice satisfies what both its branches do. -/
theorem ite {p : Prop} [Decidable p] {a b : Option Move} (ha : p → Only q a) (hb : ¬ p → Only q b) :
    Only q (if p then a else b) := by
  split
  · exact ha ‹_›
  · exact hb ‹_›

end Move.Only

namespace State

variable {iri : Strictness} {p : Production} {st : State} {ds cs : List CodePoint} {f : Family}

/-- A token that has begun stays of its sort. -/
theorem family_of_next (hst : st.family = some f) (c : CodePoint) :
    Move.Only (fun m => m.family = some f) (st.next iri c) := by
  -- In every state the choices lead to states of the same sort or to its token. Where the next
  -- move depends on what the state holds, that is split first.
  cases st with
  | start r =>
    cases r with
    | localName | blank =>
      repeat' refine Move.Only.ite (fun _ => ?_) fun _ => ?_
      all_goals first | exact .none | exact .some hst
    | _ => cases hst
  | spelling x rest p =>
    cases rest with
    | nil | cons =>
      refine Move.Only.ite (fun _ => ?_) fun _ => ?_
      · exact .some hst
      · exact .none
  | keyword k rest =>
    cases rest with
    | nil | cons =>
      repeat' refine Move.Only.ite (fun _ => ?_) fun _ => ?_
      all_goals first | exact .none | exact .some hst
  | body b | escape b =>
    cases b with
    | _ =>
      repeat' refine Move.Only.ite (fun _ => ?_) fun _ => ?_
      all_goals first | exact .none | exact .some hst
  | hex n b =>
    cases n with
    | zero | succ =>
      refine Move.Only.ite (fun _ => ?_) fun _ => ?_
      · exact .some hst
      · exact .none
  | comment =>
    refine .some ?_
    rw [Move.family]
    split <;> exact hst
  | _ =>
    repeat' refine Move.Only.ite (fun _ => ?_) fun _ => ?_
    all_goals first | exact .none | exact .some hst

/-- A token that is complete is of the sort that has begun. -/
theorem family_of_accepting (hst : st.family = some f) (h : st.accepting = some p) :
    p.family = f := by
  cases st with
  | start r =>
    cases r with
    | localName | blank =>
      cases h
      cases hst
      rfl
    | _ => cases h
  | keyword k rest =>
    cases rest with
    | nil =>
      injection hst with hst
      injection h with h
      rw [← hst, ← h]
      cases k <;> rfl
    | cons => cases h
  | body b =>
    cases b with
    | localName =>
      cases h
      cases hst
      rfl
    | _ => cases h
  | booleanDots | label | openedTwice | integer | integerDot | fraction | exponentDigits | tag
  | subtag | comment =>
    cases h
    cases hst
    rfl
  | _ => cases h

/-- **What begins in a state of a sort is a token of the sort.** -/
theorem family_of_path (h : Path iri p st ds cs) (hst : st.family = some f) : p.family = f := by
  induction h with
  | stop haccepting => exact family_of_accepting hst haccepting
  | finish hnext => exact Option.some.inj (family_of_next hst _ _ hnext)
  | take hnext _ ih | skip hnext _ ih | defer hnext _ ih =>
    exact ih (family_of_next hst _ _ hnext)

/-- Where every move leads to tokens of one sort nothing else begins. -/
theorem family_of_only (h : Path iri p st ds cs) (hst : st.accepting = none)
    (honly : ∀ c, Move.Only (fun m => m.family = some f) (st.next iri c)) : p.family = f := by
  cases h with
  | stop haccepting =>
    rw [hst] at haccepting
    cases haccepting
  | finish hnext => exact Option.some.inj (honly _ _ hnext)
  | take hnext more | skip hnext more | defer hnext more =>
    exact family_of_path more (honly _ _ hnext)

/-- What a move of a state for a code point may be: only dots are deferred, never among blanks, and
only blanks are skipped. -/
inductive Shifts (st : State) (c : CodePoint) : Move → Prop
  | take (st' : State) : Shifts st c (.take st')
  | finish (p : Production) : Shifts st c (.finish p)
  | defer {st' : State} (hc : c = '.') (hst' : st'.family ≠ some .blank) : Shifts st c (.defer st')
  | skip (st' : State) (hst : st.family = some .blank) : Shifts st c (.skip st')

/-- **Every move of the automaton is one of these.** -/
theorem shifts_of_next (iri : Strictness) (st : State) (c : CodePoint) :
    Move.Only (Shifts st c) (st.next iri c) := by
  -- A state is a chain of tests: only behind a test for `.` a code point is deferred.
  cases st with
  | keyword k rest =>
    cases rest with
    | nil =>
      refine Move.Only.ite (fun h => .some (.defer h.2 (by decide))) fun _ => ?_
      repeat' refine Move.Only.ite (fun _ => ?_) fun _ => ?_
      all_goals first | exact .none | exact .some (.take _) | exact .some (.finish _)
    | cons =>
      repeat' refine Move.Only.ite (fun _ => ?_) fun _ => ?_
      all_goals first | exact .none | exact .some (.take _) | exact .some (.finish _)
  | start x | body x | escape x =>
    cases x <;> repeat' refine Move.Only.ite (fun _ => ?_) fun _ => ?_
    all_goals first
      | exact .none
      | exact .some (.take _)
      | exact .some (.finish _)
      | exact .some (.skip _ rfl)
      | exact .some (.defer ‹_› (by decide))
  | spelling x rest p =>
    cases rest <;> refine Move.Only.ite (fun _ => ?_) fun _ => ?_
    all_goals first | exact .none | exact .some (.take _) | exact .some (.finish _)
  | hex n b =>
    cases n <;> refine Move.Only.ite (fun _ => ?_) fun _ => ?_
    all_goals first | exact .none | exact .some (.take _)
  | comment => exact .some (.skip _ rfl)
  | _ =>
    repeat' refine Move.Only.ite (fun _ => ?_) fun _ => ?_
    all_goals first
      | exact .none
      | exact .some (.take _)
      | exact .some (.finish _)
      | exact .some (.defer ‹_› (by decide))

/-- Only a dot is ever deferred. -/
theorem dot_of_defer {st' : State} {c : CodePoint} (h : st.next iri c = some (.defer st')) :
    c = '.' := by
  cases shifts_of_next iri st c _ h with
  | defer hc => exact hc

/-- A label begins with `_`, a language tag with `@`, and every other token is of another sort. -/
inductive Begins (c : CodePoint) : Move → Prop
  | label (h : c = '_') : Begins c (.take .labelColon)
  | tag (h : c = '@') : Begins c (.take .tagFirst)
  | other {m : Move} {f : Family} (h : m.family = some f) (hlabel : f ≠ .label) (htag : f ≠ .tag) :
    Begins c m

/-- The first move of a token settles its sort. -/
theorem begins_of_start (r : Recognizer) (c : CodePoint) :
    Move.Only (Begins c) ((State.start r).next iri c) := by
  cases r <;> repeat' refine Move.Only.ite (fun _ => ?_) fun _ => ?_
  all_goals first
    | exact .none
    | exact .some (.label ‹_›)
    | exact .some (.tag ‹_›)
    | exact .some (.other rfl (by decide) (by decide))

/-! ## Blank node labels and language tags -/

/-- What is in a class without surrogates is a character. -/
theorem exists_char {k : CharClass} {c : CodePoint}
    (hk : ∀ r ∈ k.ranges, r.last < 0xD800 ∨ 0xDFFF < r.first ∧ r.last < 0x110000) (h : c ∈ k) :
    ∃ x : Char, c = x := by
  obtain ⟨r, hr, hfirst, hlast⟩ := h
  have hvalid : c.value.isValidChar := by
    rcases hk r hr with hlow | ⟨hhigh, hmax⟩
    · exact Or.inl (by omega)
    · exact Or.inr ⟨by omega, by omega⟩
  refine ⟨Char.ofNat c.value, ?_⟩
  rw [CodePoint.ext_iff, CodePoint.value_ofChar, Char.ofNat, dif_pos hvalid]
  rfl

/-- The moves within a label. -/
theorem next_label {c : CodePoint} {m : Move} (h : State.label.next iri c = some m) :
    c ∈ CharClass.nameChar ∧ m = .take .label ∨ c = '.' ∧ m = .defer .label := by
  simp only [next] at h
  split at h
  · next hc => exact Or.inl ⟨hc, (Option.some.inj h).symm⟩
  · split at h
    · next hc => exact Or.inr ⟨hc, (Option.some.inj h).symm⟩
    · cases h

/-- A label goes on with characters of names and with dots, and does not end with a dot: those that
were deferred count only if it goes on behind them. -/
theorem label_of_path_label (h : Path iri p st ds cs) (hst : st = .label) (dots : List Char)
    (hds : ds = codes dots) (hdots : ∀ y ∈ dots, y = '.') :
    ∃ chars : List Char, cs = codes chars ∧
      (∀ y ∈ chars, (y : CodePoint) ∈ CharClass.nameChar ∨ y = '.') ∧
      chars.getLast? ≠ some '.' := by
  -- The deferred code points are dots throughout: a move that takes settles them, one that defers
  -- adds another.
  induction h generalizing dots with
  | stop haccepting => exact ⟨[], rfl, by simp, by simp⟩
  | finish hnext =>
    subst hst
    rcases next_label hnext with ⟨-, h⟩ | ⟨-, h⟩ <;> cases h
  | skip hnext =>
    subst hst
    rcases next_label hnext with ⟨-, h⟩ | ⟨-, h⟩ <;> cases h
  | take hnext _ ih =>
    subst hst hds
    rcases next_label hnext with ⟨hc, h⟩ | ⟨-, h⟩
    · injection h with h
      obtain ⟨x, rfl⟩ := exists_char (by simp [CharClass.nameChar]) hc
      obtain ⟨chars, rfl, hchars, hlast⟩ := ih h [] rfl (by simp)
      refine ⟨dots ++ x :: chars, by simp, fun y hy => ?_, ?_⟩
      · rcases List.mem_append.1 hy with hy | hy
        · exact Or.inr (hdots y hy)
        · rcases List.mem_cons.1 hy with rfl | hy
          · exact Or.inl hc
          · exact hchars y hy
      · rw [List.getLast?_append, List.getLast?_cons]
        cases hl : chars.getLast? with
        | none =>
          -- Then the label ends with the character that was taken, which is no dot.
          intro hx
          have hx : x = '.' := Option.some.inj hx
          rw [hx] at hc
          exact Syntax.dot_notMem_nameChar hc
        | some y =>
          rw [hl] at hlast
          exact hlast
    · cases h
  | defer hnext _ ih =>
    subst hst hds
    rcases next_label hnext with ⟨-, h⟩ | ⟨rfl, h⟩
    · cases h
    · injection h with h
      apply ih h (dots ++ ['.']) (by simp)
      intro y hy
      rcases List.mem_append.1 hy with hy | hy
      · exact hdots y hy
      · exact List.mem_singleton.1 hy

/-- A label or a language tag begins with its mark. -/
theorem path_of_start {r : Recognizer} (h : Path iri p (.start r) ds cs)
    (hp : p.family = .label ∨ p.family = .tag) :
    (p.family = .label ∧ ∃ cs', cs = ds ++ [CodePoint.ofChar '_'] ++ cs' ∧
      Path iri p .labelColon [] cs') ∨
    (p.family = .tag ∧ ∃ cs', cs = ds ++ [CodePoint.ofChar '@'] ++ cs' ∧
      Path iri p .tagFirst [] cs') := by
  have hother {f : Family} (hf : p.family = f) (hlabel : f ≠ .label) (htag : f ≠ .tag) : False := by
    rw [hf] at hp
    exact hp.elim hlabel htag
  cases h with
  | stop haccepting =>
    -- Only a local name and blanks may be empty.
    cases r with
    | localName | blank =>
      injection haccepting with haccepting
      subst haccepting
      rcases hp with hp | hp <;> cases hp
    | _ => cases haccepting
  | finish hnext =>
    cases begins_of_start r _ _ hnext with
    | other h hlabel htag => exact (hother (Option.some.inj h) hlabel htag).elim
  | take hnext more =>
    cases begins_of_start r _ _ hnext with
    | label hc =>
      rw [hc]
      exact Or.inl ⟨family_of_path more rfl, _, rfl, more⟩
    | tag hc =>
      rw [hc]
      exact Or.inr ⟨family_of_path more rfl, _, rfl, more⟩
    | other h hlabel htag => exact (hother (family_of_path more h) hlabel htag).elim
  | skip hnext more =>
    cases begins_of_start r _ _ hnext with
    | other h hlabel htag => exact (hother (family_of_path more h) hlabel htag).elim
  | defer hnext more =>
    cases begins_of_start r _ _ hnext with
    | other h hlabel htag => exact (hother (family_of_path more h) hlabel htag).elim

/-- The only move of a state that asks for one code point or for one of a class. -/
theorem path_of_take {q : CodePoint → Prop} [DecidablePred q] {st' : State}
    (h : Path iri p st [] cs) (hst : st.accepting = none)
    (hnext : ∀ c, st.next iri c = if q c then some (.take st') else none) :
    ∃ c cs', q c ∧ cs = c :: cs' ∧ Path iri p st' [] cs' := by
  have honly {c : CodePoint} {m : Move} (hm : st.next iri c = some m) : q c ∧ m = .take st' := by
    rw [hnext] at hm
    split at hm
    · exact ⟨‹_›, (Option.some.inj hm).symm⟩
    · cases hm
  cases h with
  | stop haccepting =>
    rw [hst] at haccepting
    cases haccepting
  | finish hm => cases (honly hm).2
  | take hm more =>
    obtain ⟨hc, h⟩ := honly hm
    injection h with h
    subst h
    exact ⟨_, _, hc, rfl, more⟩
  | skip hm => cases (honly hm).2
  | defer hm => cases (honly hm).2

/-- **What is read as a blank node label is one.** -/
theorem label_of_path {r : Recognizer} (h : Path iri .blankNodeLabel (.start r) [] cs) :
    ∃ l : Syntax.Label, cs = codes l.text := by
  obtain ⟨-, cs₁, rfl, h₁⟩ | ⟨hf, -⟩ := path_of_start h (Or.inl rfl)
  · -- Behind the `_` come a colon, a first character, and the state of a label.
    obtain ⟨c, cs₂, rfl, rfl, h₂⟩ := path_of_take (q := (· = ':')) h₁ rfl fun _ => rfl
    obtain ⟨c, cs₃, hc, rfl, h₃⟩ :=
      path_of_take (q := (· ∈ CharClass.labelStart)) h₂ rfl fun _ => rfl
    obtain ⟨x, rfl⟩ := exists_char (by simp [CharClass.labelStart]) hc
    obtain ⟨chars, rfl, hchars, hlast⟩ := label_of_path_label h₃ rfl [] rfl (by simp)
    exact ⟨⟨x :: chars, hc, hchars, hlast⟩, rfl⟩
  · cases hf

/-- The moves within a language tag, behind its first letter. -/
inductive TagMove : State → CodePoint → Move → Prop
  | letter {c : CodePoint} (h : c ∈ CharClass.letter) : TagMove .tag c (.take .tag)
  | hyphen {st : State} (h : st = .tag ∨ st = .subtag) : TagMove st '-' (.take .subtagFirst)
  | subtag {st : State} {c : CodePoint} (hst : st = .subtagFirst ∨ st = .subtag)
    (h : c ∈ CharClass.letterOrDigit) : TagMove st c (.take .subtag)

/-- Each move within a language tag is one of these. -/
theorem tagMove_of_next {c : CodePoint} {m : Move}
    (hst : st = .tag ∨ st = .subtagFirst ∨ st = .subtag) (h : st.next iri c = some m) :
    TagMove st c m := by
  rcases hst with rfl | rfl | rfl
  · simp only [next] at h
    split at h
    · next hc => exact Option.some.inj h ▸ .letter hc
    · split at h
      · next hc => exact Option.some.inj h ▸ hc ▸ .hyphen (Or.inl rfl)
      · cases h
  · simp only [next] at h
    split at h
    · next hc => exact Option.some.inj h ▸ .subtag (Or.inl rfl) hc
    · cases h
  · simp only [next] at h
    split at h
    · next hc => exact Option.some.inj h ▸ .subtag (Or.inr rfl) hc
    · split at h
      · next hc => exact Option.some.inj h ▸ hc ▸ .hyphen (Or.inr rfl)
      · cases h

/-- What may follow within a language tag: the rest of the letters or of a subtag, and subtags. -/
inductive TagEnd : State → List Char → Prop
  | tag (letters : Syntax.Run CharClass.letter)
    (subtags : List (Syntax.Word CharClass.letterOrDigit)) :
    TagEnd .tag (letters.chars ++ subtags.flatMap fun t => '-' :: t.chars)
  | subtagFirst (subtag : Syntax.Word CharClass.letterOrDigit)
    (subtags : List (Syntax.Word CharClass.letterOrDigit)) :
    TagEnd .subtagFirst (subtag.chars ++ subtags.flatMap fun t => '-' :: t.chars)
  | subtag (more : Syntax.Run CharClass.letterOrDigit)
    (subtags : List (Syntax.Word CharClass.letterOrDigit)) :
    TagEnd .subtag (more.chars ++ subtags.flatMap fun t => '-' :: t.chars)

/-- One more character of a language tag. -/
theorem TagEnd.cons {st' : State} {c : CodePoint} {chars : List Char}
    (hmove : TagMove st c (.take st')) (h : TagEnd st' chars) :
    ∃ x : Char, c = x ∧ TagEnd st (x :: chars) := by
  -- Each move of a tag leads to one state, whose form of the end is extended by the character.
  generalize hm : Move.take st' = m at hmove
  cases hmove with
  | letter hc =>
    injection hm with hm
    subst hm
    obtain ⟨x, rfl⟩ := exists_char (by simp [CharClass.letter]) hc
    cases h with
    | tag letters subtags =>
      have hall : ∀ y ∈ x :: letters.chars, (y : CodePoint) ∈ CharClass.letter :=
        List.forall_mem_cons.2 ⟨hc, letters.all⟩
      exact ⟨x, rfl, .tag ⟨x :: letters.chars, hall⟩ subtags⟩
  | hyphen hst =>
    injection hm with hm
    subst hm
    cases h with
    | subtagFirst subtag subtags =>
      refine ⟨'-', rfl, ?_⟩
      rcases hst with rfl | rfl
      · exact .tag ⟨[], by simp⟩ (subtag :: subtags)
      · exact .subtag ⟨[], by simp⟩ (subtag :: subtags)
  | subtag hst hc =>
    injection hm with hm
    subst hm
    obtain ⟨x, rfl⟩ := exists_char (by simp [CharClass.letterOrDigit]) hc
    cases h with
    | subtag more subtags =>
      have hall : ∀ y ∈ x :: more.chars, (y : CodePoint) ∈ CharClass.letterOrDigit :=
        List.forall_mem_cons.2 ⟨hc, more.all⟩
      refine ⟨x, rfl, ?_⟩
      rcases hst with rfl | rfl
      · exact .subtagFirst ⟨⟨x :: more.chars, hall⟩, by simp⟩ subtags
      · exact .subtag ⟨x :: more.chars, hall⟩ subtags

/-- A language tag goes on with letters and subtags. -/
theorem tagEnd_of_path (h : Path iri p st ds cs) (hds : ds = [])
    (hst : st = .tag ∨ st = .subtagFirst ∨ st = .subtag) :
    ∃ chars : List Char, cs = codes chars ∧ TagEnd st chars := by
  -- From its end the tag is read backwards: each move puts one character before what follows.
  induction h with
  | stop haccepting =>
    rcases hst with rfl | rfl | rfl
    · exact ⟨[], rfl, .tag ⟨[], by simp⟩ []⟩
    · cases haccepting
    · exact ⟨[], rfl, .subtag ⟨[], by simp⟩ []⟩
  | finish hnext => cases tagMove_of_next hst hnext
  | @take st st' ds cs c hnext _ ih =>
    have hmove := tagMove_of_next hst hnext
    have hst' : st' = .tag ∨ st' = .subtagFirst ∨ st' = .subtag := by
      generalize hm : Move.take st' = m at hmove
      cases hmove <;> injection hm with hm <;> simp [hm]
    obtain ⟨chars, rfl, hchars⟩ := ih rfl hst'
    obtain ⟨x, rfl, hx⟩ := hchars.cons hmove
    exact ⟨x :: chars, by rw [hds]; rfl, hx⟩
  | skip hnext => cases tagMove_of_next hst hnext
  | defer hnext => cases tagMove_of_next hst hnext

/-- **What is read as a language tag is one.** -/
theorem language_of_path {r : Recognizer} (h : Path iri .languageTag (.start r) [] cs) :
    ∃ l : Syntax.Language, cs = codes l.text := by
  obtain ⟨hf, -⟩ | ⟨-, cs₁, rfl, h₁⟩ := path_of_start h (Or.inr rfl)
  · cases hf
  · obtain ⟨c, cs₂, hc, rfl, h₂⟩ := path_of_take (q := (· ∈ CharClass.letter)) h₁ rfl fun _ => rfl
    obtain ⟨chars, rfl, hend⟩ := tagEnd_of_path h₂ rfl (Or.inl rfl)
    obtain ⟨x, rfl⟩ := exists_char (by simp [CharClass.letter]) hc
    cases hend with
    | tag letters subtags =>
      have hall : ∀ y ∈ x :: letters.chars, (y : CodePoint) ∈ CharClass.letter :=
        List.forall_mem_cons.2 ⟨hc, letters.all⟩
      exact ⟨⟨⟨⟨x :: letters.chars, hall⟩, by simp⟩, subtags⟩, rfl⟩

end State

end RdfTurtle
