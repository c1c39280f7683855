import RdfTurtle.Proofs.Recognition.Strings

/-! # The longest token

A state stands for a language, the tokens that begin in it, and its moves say what a word of the
language may begin with. Of the words of any kind that stand in front, the automaton takes the
longest, or it fails behind it: a code point that is taken is never given back.

* **`State.words`** — the tokens of a kind that begin in a state; **`State.cons_mem_words`** tells
  them by the moves of the state.
* **`State.scan_of_mem_words`** — the automaton reads a word that stands in front to its end, and
  may go on there.
* **`State.length_le_of_mem_words`** — no word in front is longer than what is kept.
* **`Scanner.exists_longest`** — the same of what a recognizer takes. -/

namespace RdfTurtle

/-- The word stands in front of the code points, and no longer word of the language does. -/
def LongestIn (L : Language CodePoint) (text cs : List CodePoint) : Prop :=
  text <+: cs ∧ text ∈ L ∧ ∀ word ∈ L, word <+: cs → word.length ≤ text.length

namespace State

variable {iri : Strictness} {p : Production} {st st' : State} {c : CodePoint}
  {ds cs text more : List CodePoint}

/-- A dot that is deferred changes nothing of what is complete. -/
theorem accepting_of_defer (h : st.next iri c = some (.defer st')) :
    st'.accepting = st.accepting := by
  have hnamespace : DefersInto (fun st' => st'.accepting = st.accepting) (Move.ofNamespace c) := by
    repeat' apply DefersInto.ite
    all_goals
      intro _ h
      cases h
  have hall : DefersInto (fun st' => st'.accepting = st.accepting) (st.next iri c) := by
    cases st with
    | keyword k letters =>
      cases letters with
      | nil =>
        -- Both booleans are of one kind, with dots behind them or without.
        simp only [next]
        split
        · next hk =>
          intro _ h
          cases h
          cases k <;> first | rfl | cases hk.1
        · exact hnamespace
      | cons =>
        refine .ite (fun _ h => ?_) hnamespace
        cases h
    | start x | body x | escape x =>
      cases x <;> repeat' apply DefersInto.ite
      all_goals
        intro _ h
        cases h
        try rfl
    | spelling x letters p =>
      cases letters <;> repeat' apply DefersInto.ite
      all_goals
        intro _ h
        cases h
    | hex n b =>
      cases n <;> repeat' apply DefersInto.ite
      all_goals
        intro _ h
        cases h
    | namespaceBody => exact hnamespace
    | comment =>
      intro _ h
      cases h
    | _ =>
      repeat' apply DefersInto.ite
      all_goals
        intro _ h
        cases h
        try rfl
  exact hall st' h

/-! ## The words of a state -/

/-- The tokens of kind `p` that begin in the state. -/
def words (iri : Strictness) (p : Production) (st : State) : Language CodePoint :=
  {text | Path iri p st [] text}

/-- The words of a state are its paths. -/
theorem mem_words : text ∈ st.words iri p ↔ Path iri p st [] text := Iff.rfl

/-- What is deferred before a token comes first in it. -/
theorem Path.after (h : Path iri p st ds text) (htext : text ≠ []) (front : List CodePoint) :
    Path iri p st (front ++ ds) (front ++ text) := by
  induction h with
  | stop => exact absurd rfl htext
  | finish hnext =>
    rw [← List.append_assoc]
    exact .finish hnext
  | take hnext more =>
    rw [← List.append_assoc, ← List.append_assoc]
    exact .take hnext more
  | skip hnext _ ih => exact .skip hnext (ih htext)
  | defer hnext _ ih =>
    have hmore := ih htext
    rw [← List.append_assoc] at hmore
    exact .defer hnext hmore

/-- **A token is empty, or what was deferred and then a word of the state.** -/
theorem path_iff (hst : st.family ≠ some .blank) :
    Path iri p st ds text ↔ text = [] ∧ st.accepting = some p ∨
      ∃ word, word ≠ [] ∧ text = ds ++ word ∧ word ∈ st.words iri p := by
  constructor
  · intro h
    induction h with
    | stop haccepting => exact Or.inl ⟨rfl, haccepting⟩
    | @finish st ds c hnext => exact Or.inr ⟨[c], by simp, rfl, .finish hnext⟩
    | @take st st' ds cs c hnext more => exact Or.inr ⟨c :: cs, by simp, by simp, .take hnext more⟩
    | skip hnext =>
      cases shifts_of_next _ _ _ _ hnext with
      | skip _ hblank => exact absurd hblank hst
    | @defer st st' ds cs c hnext _ ih =>
      rcases ih (not_blank_of_next hst c _ hnext) with ⟨rfl, haccepting⟩ | ⟨word, hne, rfl, hword⟩
      · exact Or.inl ⟨rfl, (accepting_of_defer hnext).symm.trans haccepting⟩
      · refine Or.inr ⟨c :: word, by simp, by simp, ?_⟩
        exact .defer hnext (Path.after hword hne [c])
  · rintro (⟨rfl, haccepting⟩ | ⟨word, hne, rfl, hword⟩)
    · exact .stop haccepting
    · simpa using Path.after hword hne ds

/-- Nothing is a word where the token is complete. -/
theorem nil_mem_words (hst : st.family ≠ some .blank) :
    [] ∈ st.words iri p ↔ st.accepting = some p := by
  rw [mem_words, path_iff hst]
  simp +contextual

/-- What follows when a move is made: nothing if it ends the token, or a word of the state to which
it leads, which takes along what is deferred. -/
def GoesOn (iri : Strictness) (p : Production) (text : List CodePoint) : Option Move → Prop
  | some (.finish p') => p = p' ∧ text = []
  | some (.take st) => text ∈ st.words iri p
  | some (.defer st) => text ≠ [] ∧ text ∈ st.words iri p
  | _ => False

/-- **The words of a state are told by its moves.** -/
theorem cons_mem_words (hst : st.family ≠ some .blank) :
    c :: text ∈ st.words iri p ↔ GoesOn iri p text (st.next iri c) := by
  constructor
  · intro h
    generalize hds : ([] : List CodePoint) = ds at h
    generalize hcs : c :: text = cs at h
    cases h with
    | stop => cases hcs
    | finish hnext =>
      subst hds
      obtain ⟨rfl, rfl⟩ := List.cons_eq_cons.1 hcs
      rw [hnext]
      exact ⟨rfl, rfl⟩
    | take hnext more =>
      subst hds
      obtain ⟨rfl, rfl⟩ := List.cons_eq_cons.1 hcs
      rw [hnext]
      exact more
    | skip hnext =>
      cases shifts_of_next _ _ _ _ hnext with
      | skip _ hblank => exact absurd hblank hst
    -- What is deferred belongs to the word only if something is taken behind it.
    | defer hnext more =>
      subst hds hcs
      rcases (path_iff (not_blank_of_next hst _ _ hnext)).1 more with ⟨h, -⟩ | ⟨word, hne, h, hword⟩
      · cases h
      · obtain ⟨rfl, rfl⟩ := List.cons_eq_cons.1 h
        rw [hnext]
        exact ⟨hne, hword⟩
  · intro h
    cases hnext : st.next iri c with
    | none =>
      rw [hnext] at h
      exact h.elim
    | some m =>
      rw [hnext] at h
      cases m with
      | finish =>
        obtain ⟨rfl, rfl⟩ := h
        exact .finish hnext
      | take => exact .take hnext h
      | skip => exact h.elim
      | defer => exact .defer hnext (Path.after h.2 h.1 [c])

/-- Where the token is not complete there is at least one code point to come. -/
theorem nil_notMem_words (hst : st.family ≠ some .blank) (haccepting : st.accepting = none) :
    [] ∉ st.words iri p := by
  rw [nil_mem_words hst, haccepting]
  simp

/-- A state with one way to go on, which takes its code points: the words are these and then the
words behind them. -/
theorem words_of_only {P : CodePoint → Prop} (hst : st.family ≠ some .blank)
    (haccepting : st.accepting = none) (htake : ∀ c, P c → st.next iri c = some (.take st'))
    (hnone : ∀ c, ¬ P c → st.next iri c = none) :
    st.words iri p = Quoted.one P * st'.words iri p := by
  ext text
  cases text with
  | nil => exact iff_of_false (nil_notMem_words hst haccepting) Quoted.nil_notMem_one_mul
  | cons c text =>
    rw [cons_mem_words hst, Quoted.cons_mem_one_mul]
    by_cases hc : P c
    · simp [htake c hc, hc, GoesOn]
    · simp [hnone c hc, hc, GoesOn]

/-- The digits of an escape and then what may follow in its body. -/
theorem words_hex (n : Nat) (b : Body) :
    (State.hex n b).words iri p = Quoted.hexDigit ^ (n + 1) * (State.body b).words iri p := by
  have hfamily (n : Nat) : (State.hex n b).family ≠ some .blank := by
    cases b <;> simp [family, Body.family]
  induction n with
  | zero =>
    rw [zero_add, pow_one, Quoted.hexDigit_eq]
    exact words_of_only (hfamily 0) rfl (fun _ hc => if_pos hc) fun _ hc => if_neg hc
  | succ n ih =>
    rw [pow_succ', mul_assoc, ← ih, Quoted.hexDigit_eq]
    exact words_of_only (hfamily _) rfl (fun _ hc => if_pos hc) fun _ hc => if_neg hc

/-- The digits of an escape are read to their end. -/
theorem scan_hex {n : Nat} {b : Body} (h : text ∈ Quoted.hexDigit ^ (n + 1)) :
    (State.hex n b).scan iri [] (text ++ more) = ((State.body b).scan iri [] more).after text := by
  induction n generalizing text with
  | zero =>
    rw [zero_add, pow_one, Quoted.hexDigit_eq] at h
    obtain ⟨c, hc, rfl⟩ := h
    exact scan_of_take (if_pos hc)
  | succ n ih =>
    rw [pow_succ', Quoted.hexDigit_eq] at h
    obtain ⟨_, ⟨c, hc, rfl⟩, text, htext, rfl⟩ := Language.mem_mul.1 h
    rw [← Quoted.hexDigit_eq] at htext
    have hnext : (State.hex (n + 1) b).next iri c = some (.take (.hex n b)) := if_pos hc
    rw [List.append_assoc, List.singleton_append, scan_of_take hnext, ih htext, Scan.after_after]
    rfl

/-! ## Words that stand in front -/

/-- What a run comes to behind a word: the word has ended the token, or the automaton goes on from a
state in which the token is complete. -/
inductive ReadsTo (iri : Strictness) (p : Production) (text more : List CodePoint) : Scan → Prop
  | ended : ReadsTo iri p text more ⟨some p, text, [], more⟩
  | goesOn {st : State} (haccepting : st.accepting = some p) :
    ReadsTo iri p text more ((st.scan iri [] more).after text)

/-- What is read before a token is kept with it. -/
theorem ReadsTo.after {r : Scan} {front : List CodePoint} (h : ReadsTo iri p text more r) :
    ReadsTo iri p (front ++ text) more (r.after front) := by
  cases h with
  | ended => exact .ended
  | goesOn haccepting =>
    rw [Scan.after_after]
    exact .goesOn haccepting

/-- **A word that stands in front is read to its end.** -/
theorem scan_of_mem_words (hst : st.family ≠ some .blank) (h : text ∈ st.words iri p)
    (htext : text ≠ []) (ds : List CodePoint) :
    ReadsTo iri p (ds ++ text) more (st.scan iri ds (text ++ more)) := by
  induction text generalizing st ds with
  | nil => exact absurd rfl htext
  | cons c text ih =>
    have happend : ds ++ c :: text = ds ++ [c] ++ text := by simp
    have hfamily : Move.Only (fun m => m.family ≠ some .blank) (st.next iri c) :=
      not_blank_of_next hst c
    rw [cons_mem_words hst] at h
    rw [List.cons_append]
    cases hnext : st.next iri c with
    | none =>
      rw [hnext] at h
      exact h.elim
    | some m =>
      rw [hnext] at h
      cases m with
      | finish =>
        obtain ⟨rfl, rfl⟩ := h
        rw [scan_of_finish hnext]
        exact .ended
      -- The induction needs a rest that is not empty; behind an empty one the token is complete.
      | take st' =>
        rw [scan_of_take hnext, happend]
        by_cases hempty : text = []
        · subst hempty
          have haccepting := (nil_mem_words (hfamily _ hnext)).1 h
          rw [List.append_nil]
          exact .goesOn haccepting
        · exact (ih (hfamily _ hnext) h hempty []).after
      | skip => exact h.elim
      | defer st' =>
        rw [scan_of_defer hnext, happend]
        exact ih (hfamily _ hnext) h.2 h.1 _

/-- The words are what the automaton takes as a whole. -/
theorem mem_words_iff_takes (hst : st.family ≠ some .blank) :
    text ∈ st.words iri p ↔ (st.scan iri [] text).Takes p text := by
  refine ⟨fun h => ?_, path_of_takes⟩
  by_cases htext : text = []
  · subst htext
    exact ⟨(nil_mem_words hst).1 h, rfl⟩
  · have hreads : ReadsTo iri p text [] (st.scan iri [] (text ++ [])) :=
      scan_of_mem_words hst h htext []
    rw [List.append_nil] at hreads
    generalize st.scan iri [] text = scan at hreads ⊢
    cases hreads with
    | ended => exact ⟨rfl, rfl⟩
    | goesOn haccepting => exact ⟨haccepting, List.append_nil text⟩

/-- What has been kept is at least as long as any word in front. -/
theorem length_le_of_mem_words (hst : st.family ≠ some .blank) (h : text ∈ st.words iri p)
    (hfront : text <+: cs) : text.length ≤ (st.scan iri [] cs).kept.length := by
  obtain ⟨more, rfl⟩ := hfront
  by_cases htext : text = []
  · rw [htext]
    exact Nat.zero_le _
  · have hreads : ReadsTo iri p text more (st.scan iri [] (text ++ more)) :=
      scan_of_mem_words hst h htext []
    generalize st.scan iri [] (text ++ more) = scan at hreads ⊢
    cases hreads with
    | ended => exact Nat.le_refl _
    | goesOn => simp [Scan.after]

/-- A run that comes to a token has read a word in front. -/
theorem exists_word_of_scan (hst : st.family ≠ some .blank)
    (h : (st.scan iri [] cs).production? = some p) : ∃ word ∈ st.words iri p, word <+: cs :=
  ⟨_, path_of_takes ⟨h, rfl⟩, _, scan_split iri hst [] cs⟩

/-- What follows a text behind which the automaton goes on from another state. -/
theorem mem_words_of_append (hst : st.family ≠ some .blank)
    (hscan : st.scan iri [] (text ++ more) = (st'.scan iri [] more).after text)
    (h : text ++ more ∈ st.words iri p) : more ∈ st'.words iri p := by
  rw [mem_words_iff_takes hst, hscan, Scan.takes_after] at h
  obtain ⟨more', heq, hmore⟩ := h
  obtain rfl := List.append_cancel_left heq
  exact path_of_takes hmore

/-- A token that ends with its last character is taken wherever it stands. -/
theorem takes_iff_mem_words (hst : st.family ≠ some .blank)
    (hp : ∀ st : State, st.accepting ≠ some p) :
    (st.scan iri [] (text ++ more)).Takes p text ↔ text ∈ st.words iri p := by
  constructor
  · exact path_of_takes
  · intro h
    have htext : text ≠ [] := by
      rintro rfl
      exact hp st ((nil_mem_words hst).1 h)
    have hreads : ReadsTo iri p text more (st.scan iri [] (text ++ more)) :=
      scan_of_mem_words hst h htext []
    generalize st.scan iri [] (text ++ more) = scan at hreads ⊢
    cases hreads with
    | ended => exact ⟨rfl, rfl⟩
    | goesOn haccepting => exact absurd haccepting (hp _)

/-- **A run that comes to a token comes to the longest word in front.** -/
theorem longestIn_of_takes (hst : st.family ≠ some .blank) (h : (st.scan iri [] cs).Takes p text)
    {L : Language CodePoint} (hmem : text ∈ L)
    (hL : ∀ word ∈ L, ∃ q, word ∈ st.words iri q) : LongestIn L text cs := by
  have hsplit := scan_split iri hst [] cs
  refine ⟨⟨_, h.2 ▸ hsplit⟩, hmem, fun word hword hfront => ?_⟩
  obtain ⟨q, hq⟩ := hL word hword
  rw [← h.2]
  exact length_le_of_mem_words hst hq hfront

end State

/-- **What a recognizer accepts is a word of its kind, and the longest in front**, in each language
of words that the recognizer reads. -/
theorem Scanner.exists_longest {s s' : Scanner} {r : Recognizer} {l : Lexeme}
    {cs : List CodePoint} (h : s.Awaits cs) (hr : r ≠ .blank) (hl : recognize r s = .ok l s') :
    ∃ text rest, cs = text ++ rest ∧ s'.Awaits rest ∧ s.Takes r l.production text ∧
      text ∈ (State.start r).words s.options.iri l.production ∧
      ∀ L : Language CodePoint, text ∈ L →
        (∀ word ∈ L, ∃ p, word ∈ (State.start r).words s.options.iri p) →
        LongestIn L text cs := by
  obtain ⟨text, rest, hcs, hrest, htakes⟩ := exists_takes h hr hl
  have hscan := (takes_iff h hr hcs).1 htakes
  refine ⟨text, rest, hcs, hrest, htakes, State.path_of_takes hscan, fun L hmem hL => ?_⟩
  exact State.longestIn_of_takes (start_not_blank hr) hscan hmem hL

end RdfTurtle
