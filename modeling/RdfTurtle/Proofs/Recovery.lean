import RdfTurtle.Proofs.Blanks
import RdfTurtle.Proofs.Transparency
import RdfTurtle.Iri.Standard

/-! # Recovery from errors

After an error a parser that recovers stands before the next statement. What it has read and held
before does not matter from there on: it behaves as any parser that begins a statement with the same
lookaheads before it.

* **`Parser.yield_eq_of_prospect`** — parsers that begin a statement yield the same if they have the
  same before them.
* **`uptoError`** — items up to the first error.
* **`recovery_restarts`** — after an error the parser restarts at the boundary of a statement. -/

namespace RdfTurtle

/-! ## The same before them -/

/-- Everything is alike to itself. -/
theorem Likeness.alike_self (q : Prospect) : q.Alike sameBytes q where
  lookaheads := List.forall₂_same.2 fun _ _ => ⟨rfl, rfl, fun _ _ => trivial⟩
  ending := by
    cases q.ending with
    | ok => exact .ok rfl
    | error => exact .error ⟨rfl, rfl⟩

/-- What is yielded alike in every respect is the same. -/
theorem Likeness.eq_of_yields {y y' : Yield} (h : sameBytes.Yields y y') : y = y' := by
  obtain ⟨items, base?, prefixes⟩ := y
  obtain ⟨items', base?', prefixes'⟩ := y'
  obtain ⟨hitems, rfl, rfl⟩ := h
  obtain rfl : items = items' := List.forall₂_eq_eq_eq ▸ hitems.imp fun _ _ => eq_of_items
  rfl

namespace Parser

variable [IriLibrary]

/-- Parsers that begin a statement yield alike items if they have alike prospects before them, the
same declarations and the same settings, whatever they hold and have read. -/
theorem alike_items_of_prospect {k : Likeness} (hpositions : ∀ p, k.Positions p p)
    (htexts : k.Texts = Eq) {p p' : Parser} (hx : p.expected = .statement)
    (hx' : p'.expected = .statement)
    (hprospect : p.scanner.prospect.Alike k p'.scanner.prospect) (hbase : p.base? = p'.base?)
    (hprefixes : p.prefixes = p'.prefixes) (hsettings : p.settings = p'.settings) :
    List.Forall₂ k.Items p.items p'.items :=
  (alike_yield (fun p => ⟨p, hpositions p⟩) htexts hx hx' hprospect.unblank hbase hprefixes
    hsettings).items

variable {p p' : Parser}

/-- **Parsers that begin a statement yield the same if they have the same before them.** -/
theorem yield_eq_of_prospect (hx : p.expected = .statement) (hx' : p'.expected = .statement)
    (hprospect : p.scanner.prospect = p'.scanner.prospect) (hbase : p.base? = p'.base?)
    (hprefixes : p.prefixes = p'.prefixes) (hsettings : p.settings = p'.settings) :
    p.yield = p'.yield := by
  have halike : p.scanner.prospect.Alike Likeness.sameBytes p'.scanner.prospect :=
    hprospect ▸ Likeness.alike_self _
  exact Likeness.eq_of_yields (alike_yield (fun p => ⟨p, rfl⟩) rfl hx hx' halike.unblank hbase
    hprefixes hsettings)

/-- So their items are the same. -/
theorem items_eq_of_prospect (hx : p.expected = .statement)
    (hx' : p'.expected = .statement) (hprospect : p.scanner.prospect = p'.scanner.prospect)
    (hbase : p.base? = p'.base?) (hprefixes : p.prefixes = p'.prefixes)
    (hsettings : p.settings = p'.settings) : p.items = p'.items :=
  congrArg Yield.items (yield_eq_of_prospect hx hx' hprospect hbase hprefixes hsettings)

/-- The parser with another token behind it. -/
def behind (p : Parser) (text : Text) (start : Position) (afterDot : Bool) : Parser :=
  { p with scanner := { p.scanner with text, start }, afterDot }

/-- What stands behind a statement does not matter to it. -/
theorem yield_behind (hx : p.expected = .statement) (text : Text) (start : Position)
    (afterDot : Bool) : (p.behind text start afterDot).yield = p.yield :=
  yield_eq_of_prospect hx hx (Scanner.prospect_retext _ _ _) rfl rfl rfl

end Parser

section

variable [IriLibrary]

/-! ## Up to the first error -/

/-- The items up to the first error, and that. -/
def uptoError : List Item → List Item
  | [] => []
  | .triple t :: items => .triple t :: uptoError items
  | .error e :: _ => [.error e]

/-- Parsers that have the same before them, of which the second does not recover. -/
def Comparison.stopping : Comparison :=
  .ofProspects Likeness.sameBytes (fun b b' => b = true ∧ b' = false)
    Likeness.lawful_sameBytes.total rfl

/-- What recovers and what does not yield the same up to the first error. -/
theorem Parser.items_eq_uptoError {p p' : Parser} (h : Comparison.stopping.Parsers p p') :
    p'.items = uptoError p.items := by
  -- Up to an error both pursue the same; there the second ends and the list is cut.
  induction hn : p.measure using Nat.strongRecOn generalizing p p' with
  | ind n ih =>
    subst hn
    have hpursue := (Comparison.follows_pursue.alike h).resolve fun _ => id
    cases hp : p.pursue with
    | ok t? q =>
      rw [hp] at hpursue
      obtain ⟨_, q', hp', rfl, hq⟩ := hpursue.of_ok
      cases t? with
      | none =>
        rw [items_of_pursue_none hp, items_of_pursue_none hp']
        rfl
      | some t =>
        rw [items_of_pursue_triple hp, items_of_pursue_triple hp',
          ih _ (measure_of_pursue hp) hq rfl]
        rfl
    | error e q =>
      rw [hp] at hpursue
      obtain ⟨e', q', hp', he, hq⟩ := hpursue.of_error
      have hstops : (q'.recover && e'.recoverable) = false := by
        rw [hq.recover.2, Bool.false_and]
      rw [items_of_pursue_error hp, items_of_pursue_error hp', afterError_of_stops hstops,
        items_of_nothing rfl, Likeness.eq_of_documentErrors he]
      rfl

/-- The setting of a source that recovers decides nothing but what comes after an error. -/
theorem parse_eq_uptoError (source : Source) (options : ParserOptions) :
    parse source { options with recover := false } =
      uptoError (parse source { options with recover := true }) := by
  have hcreate (b : Bool) : Parser.create source { options with recover := b } =
      (Parser.create source options).map ({ · with recover := b }) := by
    unfold Parser.create
    simp only [bind, Except.bind]
    cases Parser.initialBase? options.base? with
    | error e => rfl
    | ok base? =>
      dsimp only
      split <;> rfl
  unfold parse
  rw [hcreate false, hcreate true]
  cases Parser.create source options with
  | error e => rfl
  | ok p =>
    exact Parser.items_eq_uptoError
      ⟨⟨Likeness.alike_self _, rfl, rfl, rfl, rfl⟩, rfl, rfl, rfl, ⟨rfl, rfl⟩, rfl⟩

/-! ## Restarting -/

namespace Parser

variable {p q : Parser} {e : DocumentError}

/-- How a parser may stand after an error from which it recovers: before the next statement, where
it was or behind the next dot, or at the end of what cannot be decoded. -/
inductive Resumes (q : Parser) : Parser → Prop
  | here (hdot : q.afterDot = true) : Resumes q { q with expected := .statement }
  | behind {s : Scanner} (hdot : q.afterDot = false)
    (rest : s.prospect = q.scanner.prospect.past '.') :
    Resumes q { q with scanner := s, expected := .statement }
  | failed {s : Scanner} {failure : LexError} (hdot : q.afterDot = false)
    (rest : q.scanner.prospect.past '.' = ⟨[], .error failure⟩) (hend : s.atEnd) :
    Resumes q { q with scanner := s, expected := .nothing }

omit [IriLibrary] in
/-- Behind an error that can be recovered from parsing resumes. -/
theorem resumes_afterError (hq : q.recover = true) (he : e.recoverable = true) :
    Resumes q (q.afterError e) := by
  have hpasses := q.scanner.passes_skipPast '.'
  generalize hafter : q.afterError e = q'
  cases recovered_of_afterError hafter with
  | here _ hdot => exact .here hdot
  | behind _ hdot hskip =>
    rw [hskip] at hpasses
    cases hpasses with
    | passed rest => exact .behind hdot rest
  | failed _ hdot hskip =>
    rw [hskip] at hpasses
    cases hpasses with
    | failed rest hend => exact .failed hdot rest hend
  | ended hstops =>
    rw [hq, he] at hstops
    cases hstops

/-- `p` has begun afresh after an error that arose in `q`, behind the given tokens of its statement:
behind the dot that ended the statement or, without one, behind the next dot. -/
structure Restarts (q : Parser) (options : Options) (tokens : List Token) (p : Parser) : Prop where
  base : p.base? = q.base?
  prefixes : p.prefixes = q.prefixes
  dotted : Dotted tokens → p.scanner.prospect = q.scanner.prospect
  undotted : ¬ Dotted tokens → p.scanner.prospect = q.scanner.prospect.past '.' ∨
    (∃ failure, q.scanner.prospect.past '.' = ⟨[], .error failure⟩) ∧ p.items = []
  items : ∀ r : Parser, r.expected = .statement → r.scanner.prospect = p.scanner.prospect →
    r.base? = q.base? → r.prefixes = q.prefixes → r.settings = (options, true) → r.items = p.items

/-- After an error from which it recovers the parser has begun afresh. -/
theorem Fails.restarts {start : Parser} {tokens : List Token} {options : Options}
    (hfails : Fails start tokens e q) (hq : q.settings = (options, true))
    (he : e.recoverable = true) : q.Restarts options tokens (q.afterError e) := by
  obtain ⟨hdotted, hundotted⟩ := hfails.afterDot
  have hresumes := resumes_afterError (congrArg Prod.snd hq) he
  have hp := (q.settings_afterError e).trans hq
  generalize q.afterError e = p at hresumes hp
  cases hresumes with
  | here hdot =>
    refine ⟨rfl, rfl, fun _ => rfl, fun hts => Or.inl ?_, ?_⟩
    -- With no dot behind it the parser is at the end, and nothing is there to be skipped.
    · have hend : q.scanner.atEnd := by
        rcases hundotted hts with h | h
        · rw [hdot] at h
          cases h
        · exact h
      show q.scanner.prospect = _
      rw [Scanner.prospect_of_atEnd hend]
      rfl
    · intro r hx hprospect hbase hprefixes hr
      exact items_eq_of_prospect hx rfl hprospect hbase hprefixes (hr.trans hp.symm)
  | @behind s hdot rest =>
    refine ⟨rfl, rfl, fun hts => ?_, fun _ => Or.inl rest, ?_⟩
    · rw [hdotted hts] at hdot
      cases hdot
    · intro r hx hprospect hbase hprefixes hr
      exact items_eq_of_prospect hx rfl hprospect hbase hprefixes (hr.trans hp.symm)
  | @failed s failure hdot rest hend =>
    refine ⟨rfl, rfl, fun hts => ?_, fun _ => Or.inr ⟨⟨failure, rest⟩, items_of_nothing rfl⟩, ?_⟩
    · rw [hdotted hts] at hdot
      cases hdot
    · intro r hx hprospect hbase hprefixes hr
      have hended : r.scanner.prospect = ⟨[], .ok s.current.position⟩ :=
        hprospect.trans (Scanner.prospect_of_atEnd hend)
      rw [items_of_atEnd (Scanner.atEnd_of_prospect hended).1 (Or.inl hx), items_of_nothing rfl]

end Parser

/-- **Recovery is a restart at the boundary of a statement.** Take a parser that recovers from
errors and any state that it reaches. If a recoverable error comes next, it arose in some parser
`q`, behind certain tokens of its statement. Base and namespaces are afterwards what they were in
`q`. What is to come then is what was to come in `q` if the last of the tokens was a dot, and
otherwise what comes behind the next dot, unless decoding fails on the way. All further items are
those of every parser that begins a statement with the same to come, with that base and those
namespaces and with the same options. A parser that does not recover yields the same up to the first
error. -/
theorem recovery_restarts {source : Source} {options : ParserOptions} {p₀ : Parser}
    (hcreate : Parser.create source { options with recover := true } = .ok p₀) :
    (∀ p p' e, p₀.Reached p → p.next = (some (.error e), p') → e.recoverable = true →
      ∃ q, p.pursue = .error e q ∧
        (∃ start tokens, p₀.Reached start ∧ Parser.Fails start tokens e q) ∧
        ∀ start tokens, Parser.Fails start tokens e q → q.Restarts options.scanner tokens p') ∧
    parse source { options with recover := false } =
      uptoError (parse source { options with recover := true }) := by
  refine ⟨fun p p' e hreached hnext he => ?_, parse_eq_uptoError source options⟩
  obtain ⟨q, hpursue, rfl⟩ := Parser.pursue_of_next_error hnext
  obtain ⟨scanner, base?, -, -, hp₀⟩ := Parser.exists_of_create hcreate
  have hbegins : p₀.expected = .statement := by rw [hp₀]
  refine ⟨q, hpursue, Parser.exists_fails hbegins hreached hpursue, fun start tokens hfails => ?_⟩
  have hsettings : q.settings = (options.scanner, true) := by
    have hafter := (hreached.trans (Parser.reached_next p)).settings
    rw [hnext, Parser.settings_afterError, Parser.settings_of_create hcreate] at hafter
    exact hafter
  exact hfails.restarts hsettings he

end

section

open scoped Iri.Standard

/-- An object is missing before the dot: the next statement begins behind it. -/
theorem recovery_restarts_missing_object :
    ∃ p₀ q tokens, Parser.create (.memory "<s> <p> . <s> <p> <o> .".toUTF8.toList)
          { ({} : ParserOptions) with recover := true } = .ok p₀ ∧
        p₀.pursue = .error (.lex ⟨.unexpectedCharacter ' ', ⟨1, 10⟩⟩) q ∧
        q.Restarts {} tokens p₀.next.2 := by
  have hitem : (Parser.create (.memory "<s> <p> . <s> <p> <o> .".toUTF8.toList)
      { ({} : ParserOptions) with recover := true }).map (·.next.1) =
        .ok (some (.error (.lex ⟨.unexpectedCharacter ' ', ⟨1, 10⟩⟩))) := by
    decide +kernel
  obtain ⟨p₀, h, hitem⟩ := ok_of_map hitem
  obtain ⟨q, hq, ⟨start, tokens, -, hfails⟩, hrestarts⟩ :=
    (recovery_restarts h).1 p₀ p₀.next.2 _ .start (Prod.ext hitem rfl) rfl
  exact ⟨p₀, q, tokens, h, hq, hrestarts start tokens hfails⟩

end

end RdfTurtle
