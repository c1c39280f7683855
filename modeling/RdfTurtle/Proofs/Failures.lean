import RdfTurtle.Proofs.Recovery
import RdfTurtle.Iri.Standard

/-! # Failures of the input

Where the bytes of a source mean nothing, or the source itself fails, there is nothing more to read.
A parser that comes to that place reports the failure as its last item, with one exception: what it
meets while it looks for the next statement is passed over in silence.

* **`LexFault.Decoding`** — the faults of decoding, which are never those of a token.
* **`Parser.Comes`** — a parser that moves either stays before a failure or reports it.
* **`Reports`** — a failure is the last item, and no other one.
* **`Parser.Swallows`** — a failure is met in search of the next statement.
* **`failure_reported_iff`** — one or the other. -/

namespace RdfTurtle

/-! ## Faults of decoding -/

/-- The fault is one of decoding and not one of a token. -/
def LexFault.Decoding : LexFault → Prop
  | .unexpectedCharacter _ => False
  | _ => True

namespace Decoder

/-- A byte is missing only because the source fails. -/
theorem decoding_nextByte {d d' : Decoder} {fault : LexFault} (h : nextByte d = .error fault d') :
    fault.Decoding := by
  obtain ⟨text, rfl, -⟩ := ending_of_nextByte_error h
  trivial

/-- Further bytes are missing because the source fails or the input is over. -/
theorem decoding_further {n : Nat} {d d' : Decoder} {fault : LexFault}
    (h : further n d = .error fault d') : fault.Decoding := by
  induction n generalizing d d' with
  | zero => cases h
  | succ n ih =>
    rcases error_of_bind h with h | ⟨byte?, d₁, -, h⟩
    · exact decoding_nextByte h
    · cases byte? with
      | none =>
        injection h with h _
        rw [← h]
        trivial
      | some byte =>
        rcases error_of_bind h with h | ⟨bytes, d₂, -, h⟩
        · exact ih h
        · cases h

/-- A group is not decoded for these reasons, or because it is not well-formed. -/
theorem decoding_group {mode : Strictness} {lead : UInt8} {d d' : Decoder} {fault : LexFault}
    (h : group mode lead d = .error fault d') : fault.Decoding := by
  have hinvalid {d : Decoder} (h : (throw .invalidUtf8 : EStateM LexFault Decoder CodePoint) d =
      .error fault d') : fault.Decoding := by
    injection h with h _
    rw [← h]
    trivial
  cases mode with
  | permissive =>
    rcases error_of_bind h with h | ⟨bytes, d₁, -, h⟩
    · exact decoding_further h
    · cases h
  | strict =>
    by_cases hlead : Utf8.isLead lead
    · rw [group, if_pos hlead] at h
      rcases error_of_bind h with h | ⟨bytes, d₁, -, h⟩
      · exact decoding_further h
      · cases hx : Utf8.scalar? lead bytes with
        | some x =>
          rw [hx] at h
          cases h
        | none =>
          rw [hx] at h
          exact hinvalid h
    · rw [group, if_neg hlead] at h
      exact hinvalid h

/-- A decoder fails for faults of decoding only. -/
theorem decoding_next {d d' : Decoder} {fault : LexFault} (h : next d = .error fault d') :
    fault.Decoding := by
  rcases error_of_bind h with h | ⟨byte?, d₁, -, h⟩
  · exact decoding_nextByte h
  · cases byte? with
    | none => cases h
    | some lead =>
      obtain h | ⟨d₂, d₃, -, h⟩ := error_of_bind h
      · cases h
      · rcases error_of_bind h with h | ⟨c, d₄, -, h⟩
        · exact decoding_group h
        · cases h

end Decoder

namespace Scanner

/-- A scanner cannot read on for the same reasons. -/
theorem decoding_step {s s' : Scanner} {e : LexError} (h : step s = .error e s') :
    e.fault.Decoding := by
  obtain ⟨-, fault, decoder, hnext, rfl, -⟩ := of_step_error h
  exact Decoder.decoding_next hnext

/-- What ends the input is a fault of decoding. -/
theorem decoding_of_prospect {s : Scanner} {e : LexError} (h : s.prospect.ending = .error e) :
    e.fault.Decoding := by
  induction s using induction_coming with
  | ended s _ hprospect =>
    rw [hprospect] at h
    cases h
  | more s s' _ _ hprospect ih =>
    rw [hprospect] at h
    exact ih h
  | failing s e' s' _ hs hprospect =>
    rw [hprospect] at h
    injection h with h
    exact h ▸ decoding_step hs

end Scanner

namespace Parser

/-! ## Coming to a failure -/

/-- An outcome of a parser that had `before` to come. It leaves an end of that, and an error is then
not the failure behind it, unless it is just that. -/
inductive Comes {α : Type} (before : Prospect) : EStateM.Result DocumentError Parser α → Prop
  | given {a : α} {p : Parser} (rest : p.scanner.prospect.EndOf before) : Comes before (.ok a p)
  | tripped {e : DocumentError} {q : Parser} (rest : q.scanner.prospect.EndOf before)
    (other : ∀ failure, before.ending = .error failure → e ≠ .lex failure) :
    Comes before (.error e q)
  | failed {failure : LexError} {q : Parser} (ending : before.ending = .error failure)
    (hend : q.scanner.atEnd) : Comes before (.error (.lex failure) q)

/-- What comes of an end comes of the whole. -/
theorem Comes.mono {α : Type} {before before' : Prospect}
    {r : EStateM.Result DocumentError Parser α} (h : Comes before r) (hb : before.EndOf before') :
    Comes before' r := by
  cases h with
  | given rest => exact .given (rest.trans hb)
  | tripped rest other => exact .tripped (rest.trans hb) (hb.ending ▸ other)
  | failed ending hend => exact .failed (hb.ending ▸ ending) hend

/-- A move fails with the failure at the end of input, or with another error before it. -/
theorem Trips.comes {α : Type} {p q : Parser} {ts : List Token} {e : DocumentError}
    (h : Trips p ts e q) :
    Comes p.scanner.prospect (.error e q : EStateM.Result DocumentError Parser α) := by
  cases h with
  | thrown course _ plain =>
    refine .tripped course.leaves fun failure _ he => ?_
    rw [he] at plain
    exact plain
  | refused course _ refused =>
    obtain ⟨fault, rfl, ⟨hrest, hfault⟩ | ⟨hending, hend⟩⟩ := refused.leaves
    -- Where the token could go on with a code point the failure is none of one.
    · refine .tripped (hrest.trans course.leaves) fun failure hfailure he => ?_
      injection he with he
      rw [← course.leaves.ending] at hfailure
      obtain ⟨c, hc⟩ := hfault failure hfailure
      have hdecoding := Scanner.decoding_of_prospect hfailure
      rw [← he, hc] at hdecoding
      exact hdecoding
    · exact .failed (course.leaves.ending ▸ hending) hend

variable [IriLibrary]

/-- A move stays before the failure, or reports it. -/
theorem comes_move (p : Parser) : Comes p.scanner.prospect p.move := by
  rcases p.proceeds_move with hproceeds | ⟨p', hfinished, hend⟩
  · generalize p.move = result at hproceeds
    cases hproceeds with
    | settles course settled => exact .given (settled.scanner ▸ course.leaves)
    | trips trip => exact trip.comes
  · rw [hfinished]
    rcases hend with ⟨-, rfl⟩ | ⟨q, hblank, -, rfl⟩
    · exact .given (.refl _)
    · have hrest := leaves_skipBlank hblank
      exact .given hrest

/-- So does the pursuit of an item. -/
theorem comes_pursue (p : Parser) : Comes p.scanner.prospect p.pursue := by
  fun_induction pursue p with
  | case1 p t p' hm | case3 p p' hm =>
    have hmove := p.comes_move
    rw [hm] at hmove
    cases hmove with
    | given rest => exact .given rest
  | case2 p p' hm ih =>
    have hmove := p.comes_move
    rw [hm] at hmove
    cases hmove with
    | given rest => exact ih.mono rest
  | case4 p e q hm =>
    have hmove := p.comes_move
    rw [hm] at hmove
    cases hmove with
    | tripped rest other => exact .tripped rest other
    | failed ending hend => exact .failed ending hend

end Parser

/-! ## Reports -/

/-- The failure is the last item, and no other one. -/
def Reports (items : List Item) (e : LexError) : Prop :=
  ∃ before, items = before ++ [.error (.lex e)] ∧ .error (.lex e) ∉ before

/-- Another item by itself reports nothing. -/
theorem not_reports_singleton {i : Item} {e : LexError} (hi : i ≠ .error (.lex e)) :
    ¬ Reports [i] e := by
  rintro ⟨before, hitems, -⟩
  have hlast := congrArg List.getLast? hitems
  rw [List.getLast?_concat] at hlast
  exact hi (Option.some.inj hlast)

/-- What another item comes before reports the same. -/
theorem reports_cons {i : Item} {items : List Item} {e : LexError} (hi : i ≠ .error (.lex e)) :
    Reports (i :: items) e ↔ Reports items e := by
  constructor
  · rintro ⟨before, hitems, hnone⟩
    cases before with
    | nil =>
      injection hitems with h _
      exact absurd h hi
    | cons j before =>
      injection hitems with _ h
      exact ⟨before, h, fun hmem => hnone (List.mem_cons_of_mem j hmem)⟩
  · rintro ⟨before, hitems, hnone⟩
    refine ⟨i :: before, by rw [hitems]; rfl, ?_⟩
    rw [List.mem_cons, not_or]
    exact ⟨hi.symm, hnone⟩

namespace Parser

variable [IriLibrary]

/-- The failure is met in search of the next statement: at some error from which the parser recovers
nothing but the failure comes behind the next dot. -/
def Swallows (p : Parser) (e : LexError) : Prop :=
  ∃ q ∈ p.faults, q.recover = true ∧ q.afterDot = false ∧
    q.scanner.prospect.past '.' = ⟨[], .error e⟩

/-- A failure is swallowed at the error that comes next, or later. -/
theorem swallows_of_error {p q : Parser} {e' : DocumentError} {e : LexError}
    (h : p.pursue = .error e' q) : p.Swallows e ↔
      (q.recover = true ∧ q.afterDot = false ∧ q.scanner.prospect.past '.' = ⟨[], .error e⟩) ∨
        (q.afterError e').Swallows e := by
  rw [Swallows, faults_of_error h]
  simp only [List.mem_cons, exists_eq_or_imp]
  rfl

/-- Where nothing comes next nothing is swallowed. -/
theorem not_swallows_of_none {p p' : Parser} {e : LexError} (h : p.pursue = .ok none p') :
    ¬ p.Swallows e := by
  have hnone : p.faults = [] := by
    rw [faults]
    split <;> simp_all
  rintro ⟨q, hq, -⟩
  rw [hnone] at hq
  cases hq

/-- A parser that does not go on after an error stays where it is. -/
theorem finish_afterError {q : Parser} {e : DocumentError}
    (h : (q.recover && e.recoverable) = false) :
    (q.afterError e).finish = { q with expected := .nothing } := by
  rw [afterError_of_stops h]
  exact finish_of_next_none (next_of_pursue_none (pursue_of_nothing rfl))

/-- Where the failure is the next error nothing comes behind it, so that it is reported. -/
theorem reports_iff_of_failed {p q : Parser} {e : LexError} (hp : p.pursue = .error (.lex e) q)
    (hend : q.scanner.atEnd) : Reports p.items e ↔ ¬ p.Swallows e := by
  obtain ⟨p', hnone, -⟩ := pursue_of_atEnd (atEnd_afterError hend (.lex e))
    (q.expected_afterError (.lex e))
  rw [items_of_pursue_error hp, items_of_pursue_none hnone, swallows_of_error hp]
  refine iff_of_true ⟨[], rfl, List.not_mem_nil⟩ (not_or.2 ⟨?_, not_swallows_of_none hnone⟩)
  rintro ⟨-, -, hpast⟩
  rw [Scanner.prospect_of_atEnd hend] at hpast
  cases hpast

/-- Behind another error it depends on how the parser begins afresh: the failure is swallowed if
nothing else comes behind the next dot, and it is still ahead if there is more. -/
theorem reports_iff_of_resumes {q p : Parser} {e : LexError} {i : Item} (hresumes : Resumes q p)
    (hrecover : q.recover = true) (hahead : q.scanner.prospect.ending = .error e)
    (hi : i ≠ .error (.lex e))
    (ih : p.scanner.prospect.ending = .error e → (Reports p.items e ↔ ¬ p.Swallows e)) :
    Reports (i :: p.items) e ↔
      ¬ ((q.recover = true ∧ q.afterDot = false ∧
        q.scanner.prospect.past '.' = ⟨[], .error e⟩) ∨ p.Swallows e) := by
  rw [reports_cons hi]
  -- The failure is lost only if it is met on the way to the next dot.
  cases hresumes with
  | here hdot =>
    rw [ih hahead]
    simp [hdot]
  | @behind s hdot hrest =>
    have hs : s.prospect.ending = .error e := hrest ▸ hahead
    have hpast : q.scanner.prospect.past '.' ≠ ⟨[], .error e⟩ := by
      intro h
      cases (Scanner.atEnd_of_prospect (hrest.trans h)).2
    rw [ih hs]
    simp [hpast]
  | @failed s failure hdot hpast hend =>
    obtain rfl : e = failure := by
      have hending := congrArg Prospect.ending hpast
      rw [show (q.scanner.prospect.past '.').ending = .error e from hahead] at hending
      injection hending
    rw [items_of_nothing rfl]
    have hnone : ¬ Reports [] e := by
      rintro ⟨before, hitems, -⟩
      exact List.append_ne_nil_of_right_ne_nil before (List.cons_ne_nil _ _) hitems.symm
    exact iff_of_false hnone (not_not.2 (Or.inl ⟨hrecover, hdot, hpast⟩))

/-- **A failure that is ahead and is met is reported, unless it is met in search of the next
statement.** -/
theorem reports_iff {p : Parser} {e : LexError} (hahead : p.scanner.prospect.ending = .error e)
    (hmet : p.finish.scanner.atEnd) : Reports p.items e ↔ ¬ p.Swallows e := by
  -- From item to item the failure stays ahead, until it is met.
  induction hn : p.measure using Nat.strongRecOn generalizing p with
  | ind n ih =>
    subst hn
    have hcomes := p.comes_pursue
    cases hp : p.pursue with
    | ok t? q =>
      rw [hp] at hcomes
      have hq : q.scanner.prospect.ending = .error e := by
        cases hcomes with
        | given rest => exact rest.ending.trans hahead
      cases t? with
      | none =>
        rw [finish_of_next_none (next_of_pursue_none hp)] at hmet
        exact absurd hmet (Scanner.not_atEnd_of_ending hq)
      | some t =>
        have hother : Item.triple t ≠ .error (.lex e) := fun h => by cases h
        rw [finish_of_next (next_of_pursue_triple hp)] at hmet
        rw [items_of_pursue_triple hp, reports_cons hother, Swallows, faults_of_triple hp]
        exact ih _ (measure_of_pursue hp) hq hmet rfl
    | error e' q =>
      rw [hp] at hcomes
      cases hcomes with
      | @failed failure _ hending hend =>
        obtain rfl : e = failure := by
          rw [hahead] at hending
          injection hending
        exact reports_iff_of_failed hp hend
      | tripped rest other =>
        have hother : Item.error e' ≠ .error (.lex e) := by
          intro h
          injection h with h
          exact other e hahead h
        have hq := rest.ending.trans hahead
        rw [finish_of_next (next_of_pursue_error hp)] at hmet
        cases hgo : q.recover && e'.recoverable with
        | true =>
          obtain ⟨hrecover, hrecoverable⟩ := Bool.and_eq_true_iff.1 hgo
          rw [items_of_pursue_error hp, swallows_of_error hp]
          exact reports_iff_of_resumes (resumes_afterError hrecover hrecoverable) hrecover hq
            hother fun hahead => ih _ (measure_of_pursue_error hp) hahead hmet rfl
        | false =>
          rw [finish_afterError hgo] at hmet
          exact absurd hmet (Scanner.not_atEnd_of_ending hq)

/-- Errors arise where a parser that is reached pursues the next item. -/
theorem exists_of_mem_faults {p q : Parser} (hq : q ∈ p.faults) :
    ∃ p' e, p.Reached p' ∧ p'.pursue = .error e q := by
  have hnext {p p' : Parser} {i? : Option Item} (h : p.next = (i?, p')) : p.Reached p' := by
    have hreached := p.reached_next
    rwa [h] at hreached
  fun_induction faults p with
  | case1 p t p' hp ih =>
    obtain ⟨p₁, e, hreached, hpursue⟩ := ih hq
    exact ⟨p₁, e, (hnext (next_of_pursue_triple hp)).trans hreached, hpursue⟩
  | case2 => cases hq
  | case3 p e q' hp ih =>
    rcases List.mem_cons.1 hq with rfl | hq
    · exact ⟨p, e, .start, hp⟩
    · obtain ⟨p₁, e', hreached, hpursue⟩ := ih hq
      exact ⟨p₁, e', (hnext (next_of_pursue_error hp)).trans hreached, hpursue⟩

/-- A parser that does not recover swallows nothing. -/
theorem not_swallows_of_not_recover {p : Parser} {e : LexError} (hp : p.recover = false) :
    ¬ p.Swallows e := by
  rintro ⟨q, hq, hrecover, -⟩
  obtain ⟨p', e', hreached, hpursue⟩ := exists_of_mem_faults hq
  have hsettings := (hreached.trans p'.reached_next).settings
  rw [next_of_pursue_error hpursue, settings_afterError] at hsettings
  have hsame : q.recover = p.recover := congrArg Prod.snd hsettings
  rw [hrecover, hp] at hsame
  cases hsame

end Parser

/-- **A failure that is met is the last item and no other one, unless it is met in search of the
next statement.** The failure is that of decoding or of the source, at its place; without recovery
it is always reported. -/
theorem failure_reported_iff [IriLibrary] {source : Source} {options : ParserOptions} {p : Parser}
    {e : LexError} (hcreate : Parser.create source options = .ok p)
    (hahead : p.scanner.prospect.ending = .error e) (hmet : p.finish.scanner.atEnd) :
    (Reports (parse source options) e ↔ ¬ p.Swallows e) ∧
      (options.recover = false → Reports (parse source options) e) := by
  have hparse : parse source options = p.items := by rw [parse, hcreate]
  have hreports := Parser.reports_iff hahead hmet
  rw [hparse]
  refine ⟨hreports, fun hrecover => hreports.2 (Parser.not_swallows_of_not_recover ?_)⟩
  have hsettings := congrArg Prod.snd (Parser.settings_of_create hcreate)
  exact hsettings.trans hrecover

/-- A steady reader that breaks behind the text. -/
def Source.breaking (text : String) (failure : String) : Source :=
  .reader (.ofBytes text.toUTF8.toList (.broken failure) fun _ => .steady)

section

open scoped Iri.Standard

/-- A reader that breaks within a statement is reported. -/
theorem failure_reported_within_statement :
    ∃ p, Parser.create (.breaking "<s> <p> " "reset") {} = .ok p ∧
      p.scanner.prospect.ending = .error ⟨.source "reset", ⟨1, 9⟩⟩ ∧ p.finish.scanner.atEnd ∧
        Reports (parse (.breaking "<s> <p> " "reset")) ⟨.source "reset", ⟨1, 9⟩⟩ := by
  have hrun : (Parser.create (.breaking "<s> <p> " "reset") {}).map
      (fun p => (p.scanner.prospect.ending, p.finish.scanner.atEnd)) =
        .ok (.error ⟨.source "reset", ⟨1, 9⟩⟩, true) := by
    decide +kernel
  obtain ⟨p, h, hrun⟩ := ok_of_map hrun
  obtain ⟨hahead, hmet⟩ := Prod.mk.inj hrun
  exact ⟨p, h, hahead, hmet, (failure_reported_iff h hahead hmet).2 rfl⟩

/-- A reader that breaks while the parser looks for the next statement is not reported. -/
theorem not_reported_while_skipping :
    (Parser.create (.breaking "5 x" "reset") { recover := true }).map
          (fun p => (p.scanner.prospect.ending, p.finish.scanner.atEnd)) =
        .ok (.error ⟨.source "reset", ⟨1, 4⟩⟩, true) ∧
      ¬ Reports (parse (.breaking "5 x" "reset") { recover := true })
        ⟨.source "reset", ⟨1, 4⟩⟩ := by
  have hparse : parse (.breaking "5 x" "reset") { recover := true } =
      [.error (.lex ⟨.unexpectedCharacter '5', ⟨1, 1⟩⟩)] := by
    decide +kernel
  refine ⟨by decide +kernel, ?_⟩
  rw [hparse]
  exact not_reports_singleton (by decide)

end

end RdfTurtle
