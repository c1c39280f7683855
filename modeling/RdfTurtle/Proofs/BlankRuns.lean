import RdfTurtle.Proofs.Blanks
import RdfTurtle.Proofs.Conservation

/-! # The longest run of blanks and comments

Between two tokens stand blanks and comments, in any order. Passing over them removes the longest
run of them that is to come, and nothing else.

* **`BlankRun`** — a sequence of blanks and comments; a comment is followed by the end of its line
  or of the input.
* **`LongestRun`** — the longest that the input begins with; `longestRun_of_unblank` that is one
  which neither a blank nor a comment follows.
* **`Skips`** — what the automaton skips from a state, and **`skips_behindBlanks`** it does.
* **`Scanner.skips_longest_run`** — passing over blanks removes the longest run. -/

namespace RdfTurtle

/-- The end of a line, or one half of it. -/
def IsLineEnd (c : CodePoint) : Prop := c = '\r' ∨ c = '\n'

/-- A space, a tab, or the end of a line. -/
def IsBlank (c : CodePoint) : Prop := c = ' ' ∨ c = '\t' ∨ IsLineEnd c

/-- A sequence of blanks and comments with `rest` behind it. A comment goes from `#` up to the end
of its line or of the input, which is not part of it. -/
inductive BlankRun (rest : List CodePoint) : List CodePoint → Prop
  | nil : BlankRun rest []
  | blank {c : CodePoint} {run : List CodePoint} (isBlank : IsBlank c) (more : BlankRun rest run) :
    BlankRun rest (c :: run)
  | comment {body run : List CodePoint} (within : ∀ c ∈ body, ¬ IsLineEnd c)
    (ends : ∀ c ∈ (run ++ rest).head?, IsLineEnd c) (more : BlankRun rest run) :
    BlankRun rest ('#' :: (body ++ run))

/-- The longest sequence of blanks and comments that `run` and `rest` together begin with is
`run`. -/
structure LongestRun (run rest : List CodePoint) : Prop where
  isRun : BlankRun rest run
  longest : ∀ run' rest', run ++ rest = run' ++ rest' → BlankRun rest' run' →
    run'.length ≤ run.length

/-- Neither a blank nor a comment begins here. -/
def Unblank (rest : List CodePoint) : Prop := ∀ c ∈ rest.head?, ¬ IsBlank c ∧ c ≠ '#'

/-! ## The longest run -/

/-- The line ends are those of the table. -/
theorem isLineEnd_iff {c : CodePoint} : IsLineEnd c ↔ c ∈ CharClass.lineEnd := by
  rw [CharClass.mem_lineEnd, IsLineEnd, or_comm]

/-- So are the blanks. -/
theorem isBlank_iff {c : CodePoint} : IsBlank c ↔ c ∈ CharClass.blank := CharClass.mem_blank.symm

/-- What begins a comment is no blank. -/
theorem not_isBlank_hash : ¬ IsBlank '#' := by
  simp [IsBlank, IsLineEnd]

/-- Two lines that are the same up to their ends end in the same place. -/
theorem line_unique {body body' more more' : List CodePoint} (h : body ++ more = body' ++ more')
    (hbody : ∀ c ∈ body, ¬ IsLineEnd c) (hbody' : ∀ c ∈ body', ¬ IsLineEnd c)
    (hends : ∀ c ∈ more.head?, IsLineEnd c) (hends' : ∀ c ∈ more'.head?, IsLineEnd c) :
    body = body' ∧ more = more' := by
  induction body generalizing body' with
  | nil =>
    cases body' with
    | nil => exact ⟨rfl, h⟩
    | cons c body' =>
      rw [List.nil_append] at h
      rw [h] at hends
      exact absurd (hends c rfl) (hbody' c List.mem_cons_self)
  | cons c body ih =>
    cases body' with
    | nil =>
      rw [List.nil_append] at h
      rw [← h] at hends'
      exact absurd (hends' c rfl) (hbody c List.mem_cons_self)
    | cons c' body' =>
      injection h with hc h
      obtain ⟨rfl, rfl⟩ := ih h (fun x hx => hbody x (List.mem_cons_of_mem _ hx))
        (fun x hx => hbody' x (List.mem_cons_of_mem _ hx))
      exact ⟨by rw [hc], rfl⟩

/-- A run that neither a blank nor a comment follows is the longest. -/
theorem longestRun_of_unblank {run rest : List CodePoint} (h : BlankRun rest run)
    (hrest : Unblank rest) : LongestRun run rest := by
  refine ⟨h, fun run' rest' hsplit h' => ?_⟩
  -- The other run is followed blank by blank and comment by comment.
  induction h' generalizing run with
  | nil => exact Nat.zero_le _
  | @blank c run' isBlank _ ih =>
    cases h with
    | nil =>
      rw [List.nil_append] at hsplit
      exact absurd isBlank (hrest c (by rw [hsplit]; rfl)).1
    | blank _ more =>
      injection hsplit with _ hsplit
      exact Nat.succ_le_succ (ih more hsplit)
    | comment =>
      injection hsplit with hc _
      exact absurd (hc ▸ isBlank) not_isBlank_hash
  | @comment body' run' within' ends' _ ih =>
    cases h with
    | nil =>
      rw [List.nil_append] at hsplit
      exact absurd rfl (hrest '#' (by rw [hsplit]; rfl)).2
    | blank isBlank =>
      injection hsplit with hc _
      exact absurd (hc ▸ isBlank) not_isBlank_hash
    | @comment body run within ends more =>
      simp only [List.cons_append, List.append_assoc, List.cons.injEq, true_and] at hsplit
      obtain ⟨rfl, hbehind⟩ := line_unique hsplit within within' ends ends'
      have hle := ih more hbehind
      simp only [List.length_cons, List.length_append]
      omega

/-! ## What the automaton skips -/

/-- What is skipped from a state among blanks when `rest` is left: blanks and comments, behind what
is left of a comment if the state is in one. -/
def Skips (rest run : List CodePoint) : State → Prop
  | .comment =>
    ∃ body more, run = body ++ more ∧ (∀ c ∈ body, ¬ IsLineEnd c) ∧
      (∀ c ∈ (more ++ rest).head?, IsLineEnd c) ∧ BlankRun rest more
  | _ => BlankRun rest run

/-- The run of blanks ends where neither a blank nor a comment begins. -/
theorem next_blank_eq_none {iri : Strictness} {c : CodePoint} :
    (State.start .blank).next iri c = none ↔ ¬ IsBlank c ∧ c ≠ '#' := by
  rw [isBlank_iff, State.next]
  split
  · next h => exact iff_of_false (Option.some_ne_none _) fun hc => hc.1 h
  · next hblank =>
    split
    · next h => exact iff_of_false (Option.some_ne_none _) fun hc => hc.2 h
    · next hhash => exact iff_of_true rfl ⟨hblank, hhash⟩

/-- A comment may end where nothing more is to come. -/
theorem skips_nil {st : State} (hst : st.Blank) : Skips [] [] st := by
  rcases hst with rfl | rfl
  · exact .nil
  · refine ⟨[], [], rfl, List.forall_mem_nil _, ?_, .nil⟩
    rintro _ ⟨⟩

/-- One more blank, `#` or part of a comment is skipped. -/
theorem Skips.cons {st st' : State} {c : CodePoint} {run rest : List CodePoint} (hst : st.Blank)
    (hnext : st.next .strict c = some (.skip st')) (h : Skips rest run st') :
    Skips rest (c :: run) st := by
  rcases hst with rfl | rfl
  · simp only [State.next] at hnext
    split at hnext
    · next hblank =>
      cases hnext
      exact .blank (isBlank_iff.2 hblank) h
    · split at hnext
      · next hhash =>
        cases hnext
        obtain ⟨body, more, rfl, within, ends, hmore⟩ := h
        rw [hhash]
        exact .comment within ends hmore
      · cases hnext
  · simp only [State.next] at hnext
    split at hnext
    -- The end of the line ends the comment and is a blank.
    · next hend =>
      cases hnext
      have hline : IsLineEnd c := isLineEnd_iff.2 hend
      refine ⟨[], c :: run, rfl, List.forall_mem_nil _, ?_, .blank (Or.inr (Or.inr hline)) h⟩
      rintro _ ⟨⟩
      exact hline
    · next hwithin =>
      cases hnext
      obtain ⟨body, more, rfl, within, ends, hmore⟩ := h
      have hline : ¬ IsLineEnd c := fun hline => hwithin (isLineEnd_iff.1 hline)
      exact ⟨c :: body, more, rfl, List.forall_mem_cons.2 ⟨hline, within⟩, ends, hmore⟩

/-- From a state among blanks the automaton skips a run, up to what is neither a blank nor a
comment. -/
theorem skips_behindBlanks {st : State} (hst : st.Blank) {ls : List Lookahead}
    (hls : ∀ l ∈ ls, l.codePoint?.isSome) :
    ∃ skipped, ls = skipped ++ behindBlanks st ls ∧
      Unblank (Lookahead.codes (behindBlanks st ls)) ∧
      Skips (Lookahead.codes (behindBlanks st ls)) (Lookahead.codes skipped) st := by
  induction ls generalizing st with
  | nil => exact ⟨[], rfl, fun c hc => (Option.not_mem_none c hc).elim, skips_nil hst⟩
  | cons l ls ih =>
    obtain ⟨c, hc⟩ := Option.isSome_iff_exists.1 (hls l List.mem_cons_self)
    have hcodes (ks : List Lookahead) : Lookahead.codes (l :: ks) = c :: Lookahead.codes ks := by
      rw [Lookahead.codes, List.filterMap_cons, hc]
      rfl
    -- Among blanks every move skips; where there is none, what is to come is no blank.
    cases hnext : st.next .strict c with
    | some m =>
      obtain ⟨st', rfl, hst'⟩ := State.skips_of_blank hst hnext
      obtain ⟨skipped, hsplit, hrest, hskips⟩ :=
        ih hst' fun k hk => hls k (List.mem_cons_of_mem _ hk)
      rw [behindBlanks_of_skip hc hnext]
      refine ⟨l :: skipped, congrArg (l :: ·) hsplit, hrest, ?_⟩
      rw [hcodes]
      exact hskips.cons hst hnext
    | none =>
      rcases hst with rfl | rfl
      · rw [behindBlanks_of_none fun c' hc' => by rwa [Option.some.inj (hc'.symm.trans hc)]]
        refine ⟨[], rfl, ?_, .nil⟩
        rw [hcodes]
        rintro _ ⟨⟩
        exact next_blank_eq_none.1 hnext
      · cases hnext

namespace Scanner

/-- A run of blanks that is passed over has no text. -/
theorem blank_empty {s s' : Scanner} {l : Lexeme} (h : recognize .blank s = .ok l s') :
    l = ⟨.blank, .empty s.options.encoding, s.current.position⟩ ∧
      s'.text = .empty s.options.encoding ∧ s'.options = s.options := by
  have hskims : Skims s.clear (recognize .blank s) := skims_run (Or.inl rfl) [] s.clear
  have hoptions := s.options_recognize .blank
  rw [h] at hskims hoptions
  cases hskims with
  | accepted kind text spelled position =>
    refine ⟨?_, text, hoptions⟩
    obtain ⟨p, t, start⟩ := l
    subst kind spelled position
    rw [text]
    rfl

/-- If neither a blank nor a comment is to come, none stands at the scanner. -/
theorem unblank_current {s : Scanner} (h : Unblank (Lookahead.codes s.prospect.lookaheads)) :
    ∀ c ∈ s.current.codePoint?, ¬ IsBlank c ∧ c ≠ '#' := by
  rwa [codePoint_current]

/-- Where neither a blank nor a comment stands, passing over blanks changes nothing but where the
last token began. -/
theorem blank_of_unblank {s : Scanner} (htext : s.text = .empty s.options.encoding)
    (h : ∀ c ∈ s.current.codePoint?, ¬ IsBlank c ∧ c ≠ '#') :
    recognize .blank s = .ok ⟨.blank, .empty s.options.encoding, s.current.position⟩
      { s with start := s.current.position } := by
  have hmove : s.clear.move? (.start .blank) = none := by
    rw [move?, Option.bind_eq_none_iff]
    exact fun c hc => next_blank_eq_none.2 (h c hc)
  rw [recognize, run_of_none hmove]
  show EStateM.Result.ok (s.clear.lexeme .blank) s.clear = _
  rw [lexeme, clear, ← htext]

/-- **Passing over blanks removes the longest run of blanks and comments.** Unless decoding fails
directly behind that run it succeeds with an empty token, whatever the scanner holds and whatever it
has yet to decode. Everything else is still to come, at the positions where it was, and begins with
neither a blank nor a comment; so passing over blanks again changes nothing but where the last token
began. -/
theorem skips_longest_run (s : Scanner) :
    ∃ run rest, Lookahead.codes s.prospect.lookaheads = run ++ rest ∧ LongestRun run rest ∧
      ((rest = [] → ∃ position, s.prospect.ending = .ok position) →
        ∃ s', recognize .blank s =
            .ok ⟨.blank, .empty s.options.encoding, s.current.position⟩ s' ∧
          s'.prospect = s.prospect.drop run.length ∧
          (∀ c ∈ s'.current.codePoint?, ¬ IsBlank c ∧ c ≠ '#') ∧
          recognize .blank s' = .ok ⟨.blank, .empty s.options.encoding, s'.current.position⟩
            { s' with start := s'.current.position }) := by
  have hblank : (State.start .blank).Blank := Or.inl rfl
  obtain ⟨skipped, hsplit, hunblank, hrun⟩ :=
    skips_behindBlanks hblank fun l => s.isSome_of_mem_prospect
  have hlength : (Lookahead.codes skipped).length = skipped.length :=
    Lookahead.length_codes fun l hl =>
      s.isSome_of_mem_prospect (hsplit ▸ List.mem_append_left _ hl)
  refine ⟨Lookahead.codes skipped, _, ?_, longestRun_of_unblank hrun hunblank,
    fun hfine => ?_⟩
  · rw [← Lookahead.codes_append, ← hsplit]
  have hleaves := s.unblanks_recognize
  cases h : recognize .blank s with
  | ok l s' =>
    obtain ⟨rfl, htext, hoptions⟩ := blank_empty h
    rw [h] at hleaves
    cases hleaves with
    | passed rest =>
      have hlookaheads := congrArg Prospect.lookaheads rest
      have hstops := unblank_current (s := s') (by rwa [hlookaheads])
      have hagain := blank_of_unblank (by rwa [hoptions]) hstops
      refine ⟨s', rfl, ?_, hstops, by rwa [hoptions] at hagain ⊢⟩
      have hdrop : s.prospect.lookaheads.drop skipped.length =
          behindBlanks (.start .blank) s.prospect.lookaheads := by
        conv_lhs => rw [hsplit]
        exact List.drop_left
      rw [rest, Prospect.unblank, Prospect.drop, hlength, hdrop]
  | error e s' =>
    -- Only a failure directly behind the run is met on the way.
    rw [h] at hleaves
    cases hleaves with
    | failed rest hend =>
      injection rest with hnil hending
      rw [hnil] at hfine
      obtain ⟨position, hposition⟩ := hfine rfl
      rw [hending] at hposition
      cases hposition

end Scanner

end RdfTurtle
