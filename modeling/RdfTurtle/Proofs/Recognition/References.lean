import RdfTurtle.Proofs.Recognition.Munch

/-! # IRI references are those of the grammar

Between angle brackets stand code points and numeric escapes. Strict checking forbids some code
points there, unless an escape names them, and cuts a reference off at the first of them.

* **`Bracketed.iriRef`** — the references of the grammar, with the check and without.
* **`Bracketed.exists_forbidden`** — a reference that breaks nothing but the check.
* **`State.words_iriRef`** — the automaton has the references of the grammar.
* **`Scanner.exists_rejected`** — where a token is rejected.
* **`Scanner.exists_rejected_of_forbidden`** — references that the check rejects. -/

namespace RdfTurtle

open Computability
open Quoted (one mark hexDigit)

/-! ## The grammar -/

namespace Bracketed

variable {iri : Strictness} {c : CodePoint} {text : List CodePoint}

/-- The code points that strict checking forbids. -/
def Forbidden (c : CodePoint) : Prop :=
  c.value ≤ 0x20 ∨ c ∈ codes ['<', '"', '{', '}', '|', '^', '\x60']

/-- The code points that may stand for themselves. -/
def Raw (iri : Strictness) (c : CodePoint) : Prop :=
  c ≠ '>' ∧ c ≠ '\\' ∧ (iri = .strict → ¬ Forbidden c)

/-- A code point that stands for itself, or a numeric escape (`UCHAR`). -/
def piece (iri : Strictness) : Language CodePoint := one (Raw iri) + Quoted.numericEscape

/-- References between angle brackets (`IRIREF`). -/
def iriRef (iri : Strictness) : Language CodePoint := mark '<' * ((piece iri)∗ * mark '>')

/-- The table of forbidden characters is the list of the grammar. -/
theorem mem_iriForbidden : c ∈ CharClass.iriForbidden ↔ Forbidden c := by
  simp [CharClass.iriForbidden, CharClass.mem_iff, Forbidden, CodePoint.ext_iff]
  omega

/-- What a reference needs besides its characters is not forbidden. -/
theorem Forbidden.ne (h : Forbidden c) : c ≠ '>' ∧ c ≠ '\\' ∧ c ≠ '.' := by
  rw [← mem_iriForbidden] at h
  refine ⟨?_, ?_, ?_⟩ <;> rintro rfl <;> revert h <;> decide_cbv

/-- A piece of a reference has at least a code point. -/
theorem nil_notMem_piece : [] ∉ piece iri :=
  not_or.2 ⟨Quoted.nil_notMem_one, Quoted.nil_notMem_one_mul⟩

/-- **A reference that only the check is against** has a first code point that it forbids, and
stands up to there. -/
theorem exists_forbidden (h : text ∈ iriRef .permissive) (hcheck : text ∉ iriRef .strict) :
    ∃ before c after, text = before ++ c :: after ∧ before ∈ mark '<' * (piece .strict)∗ ∧
      Forbidden c ∧ c :: after ∈ (piece .permissive)∗ * mark '>' := by
  obtain ⟨body, rfl, hbody⟩ := Quoted.mem_mark_mul.1 h
  rw [iriRef, Quoted.cons_mem_mark_mul] at hcheck
  obtain ⟨pieces, hpieces, close, hclose, rfl⟩ := Language.mem_mul.1 hbody
  obtain ⟨parts, rfl, hparts⟩ := Language.mem_kstar.1 hpieces
  -- The first part that the check is against is a code point that stands for itself.
  suffices hfirst : ∃ before c after, parts.flatten = before ++ c :: after ∧
      before ∈ (piece .strict)∗ ∧ Forbidden c ∧ c :: after ∈ (piece .permissive)∗ by
    obtain ⟨before, c, after, heq, hbefore, hc, hafter⟩ := hfirst
    refine ⟨CodePoint.ofChar '<' :: before, c, after ++ close, ?_,
      Quoted.cons_mem_mark_mul.2 hbefore, hc, Language.append_mem_mul hafter hclose⟩
    rw [heq, List.append_assoc]
    rfl
  have hstrict : parts.flatten ∉ (piece .strict)∗ :=
    fun hmem => hcheck (Language.append_mem_mul hmem hclose)
  clear h hbody hpieces hcheck
  induction parts with
  | nil => exact absurd (Language.nil_mem_kstar _) hstrict
  | cons part parts ih =>
    obtain ⟨hpart, hrest⟩ := List.forall_mem_cons.1 hparts
    by_cases hallowed : part ∈ piece .strict
    · have happend {more : List CodePoint} (hmore : more ∈ (piece .strict)∗) :
          part ++ more ∈ (piece .strict)∗ := by
        rw [← Language.one_add_self_mul_kstar_eq_kstar]
        exact Or.inr (Language.append_mem_mul hallowed hmore)
      have hmore : parts.flatten ∉ (piece .strict)∗ := fun hmem => hstrict (happend hmem)
      obtain ⟨before, c, after, heq, hbefore, hc, hafter⟩ := ih hrest hmore
      refine ⟨part ++ before, c, after, ?_, happend hbefore, hc, hafter⟩
      rw [List.flatten_cons, heq, List.append_assoc]
    · rcases hpart with ⟨c, hraw, rfl⟩ | hescape
      · refine ⟨[], c, parts.flatten, rfl, Language.nil_mem_kstar _, ?_, ?_⟩
        · by_contra hc
          exact hallowed (Or.inl ⟨c, ⟨hraw.1, hraw.2.1, fun _ => hc⟩, rfl⟩)
        · exact Language.mem_kstar.2 ⟨[c] :: parts, rfl, hparts⟩
      · exact absurd (Or.inr hescape) hallowed

end Bracketed

/-! ## The states of references -/

namespace State

open Bracketed

variable {iri : Strictness} {p : Production} {c : CodePoint} {text more : List CodePoint}

/-- What may follow a backslash between angle brackets. -/
theorem words_iriEscape :
    (State.escape .iri).words iri p =
      (mark 'u' * hexDigit ^ 4 + mark 'U' * hexDigit ^ 8) * (State.body .iri).words iri p := by
  ext text
  rw [add_mul, Language.mem_add, mul_assoc, mul_assoc, ← words_hex, ← words_hex]
  cases text with
  | nil =>
    refine iff_of_false (nil_notMem_words (by decide) rfl) ?_
    exact not_or.2 ⟨Quoted.nil_notMem_one_mul, Quoted.nil_notMem_one_mul⟩
  | cons c text =>
    rw [cons_mem_words (by decide), next, Move.ofNumericEscape, mark, mark,
      Quoted.cons_mem_one_mul, Quoted.cons_mem_one_mul]
    split_ifs with hu hU
    · simp [GoesOn, hu]
    · simp [GoesOn, hU]
    · simp [GoesOn, hu, hU]

/-- Between angle brackets stands a bracket that closes, or a piece and what may follow it. -/
theorem words_iriBody_eq :
    (State.body .iri).words iri .iriRef =
      piece iri * (State.body .iri).words iri .iriRef + mark '>' := by
  ext text
  rw [piece, Quoted.numericEscape, add_mul, mul_assoc, ← words_iriEscape, Language.mem_add,
    Language.mem_add]
  cases text with
  | nil =>
    refine iff_of_false (nil_notMem_words (by decide) rfl) ?_
    exact not_or.2 ⟨not_or.2 ⟨Quoted.nil_notMem_one_mul, Quoted.nil_notMem_one_mul⟩,
      Quoted.nil_notMem_one⟩
  | cons c text =>
    rw [cons_mem_words (by decide), next, mark, mark, Quoted.cons_mem_one_mul,
      Quoted.cons_mem_one_mul, Quoted.cons_mem_one]
    split_ifs with hcheck hclose hescape
    · have hc : Forbidden c := mem_iriForbidden.1 hcheck.2
      simp [GoesOn, Raw, hcheck.1, hc, hc.ne]
    · simp [GoesOn, Raw, hclose]
    · simp [GoesOn, Raw, hescape]
    · have hraw : Raw iri c :=
        ⟨hclose, hescape, fun hiri hc => hcheck ⟨hiri, mem_iriForbidden.2 hc⟩⟩
      simp [GoesOn, hraw, hclose, hescape]

/-- **The references that the automaton reads are those of the grammar.** -/
theorem words_iriRef : (start .iriRef).words iri .iriRef = iriRef iri := by
  have hbody := (Language.self_eq_mul_add_iff nil_notMem_piece).1 (@words_iriBody_eq iri)
  rw [iriRef, ← hbody]
  exact words_of_only (by decide) rfl (fun _ hc => if_pos hc) fun _ hc => if_neg hc

/-- Nothing but a reference begins with an angle bracket. -/
theorem eq_iriRef_of_words (h : text ∈ (start .iriRef).words iri p) : p = .iriRef := by
  have hfamily : p.family = .iri := by
    refine family_of_only h rfl fun c => ?_
    exact .ite (fun _ => .some rfl) fun _ => .none
  cases p <;> first | rfl | cases hfamily

/-- A piece is read to its end. -/
theorem scan_of_iriPiece (hmem : text ∈ piece iri) :
    (State.body .iri).scan iri [] (text ++ more) =
      ((State.body .iri).scan iri [] more).after text := by
  rcases hmem with ⟨c, ⟨hclose, hescape, hcheck⟩, rfl⟩ | hnumeric
  · have hallowed : ¬ (iri = .strict ∧ c ∈ CharClass.iriForbidden) :=
      fun h => hcheck h.1 (mem_iriForbidden.1 h.2)
    have hnext : (State.body .iri).next iri c = some (.take (.body .iri)) := by
      simp only [next, if_neg hallowed, if_neg hclose, if_neg hescape]
    exact scan_of_take hnext
  · obtain ⟨behind, rfl, hbehind⟩ := Quoted.mem_mark_mul.1 hnumeric
    have hbackslash : (State.body .iri).next iri '\\' = some (.take (.escape .iri)) := by
      simp [next, CharClass.iriForbidden, CharClass.mem_iff]
    rw [List.cons_append, scan_of_take hbackslash]
    rcases hbehind with hshort | hlong
    · obtain ⟨digits, rfl, hdigits⟩ := Quoted.mem_mark_mul.1 hshort
      have hnext : (State.escape .iri).next iri 'u' = some (.take (.hex 3 .iri)) := rfl
      rw [List.cons_append, scan_of_take hnext, scan_hex hdigits, Scan.after_after,
        Scan.after_after]
      rfl
    · obtain ⟨digits, rfl, hdigits⟩ := Quoted.mem_mark_mul.1 hlong
      have hnext : (State.escape .iri).next iri 'U' = some (.take (.hex 7 .iri)) := rfl
      rw [List.cons_append, scan_of_take hnext, scan_hex hdigits, Scan.after_after,
        Scan.after_after]
      rfl

/-- The beginning of a reference is read up to what follows. -/
theorem scan_of_reference (hmem : text ∈ mark '<' * (piece iri)∗) :
    (start .iriRef).scan iri [] (text ++ more) =
      ((State.body .iri).scan iri [] more).after text := by
  obtain ⟨pieces, rfl, hpieces⟩ := Quoted.mem_mark_mul.1 hmem
  have hopen : (start .iriRef).next iri '<' = some (.take (.body .iri)) := rfl
  have hbody : (State.body .iri).scan iri [] (pieces ++ more) =
      ((State.body .iri).scan iri [] more).after pieces := by
    obtain ⟨parts, rfl, hparts⟩ := Language.mem_kstar.1 hpieces
    clear hmem hpieces
    induction parts with
    | nil => rfl
    | cons part parts ih =>
      obtain ⟨hpart, hrest⟩ := List.forall_mem_cons.1 hparts
      rw [List.flatten_cons, List.append_assoc, scan_of_iriPiece hpart, ih hrest,
        Scan.after_after]
  rw [List.cons_append, scan_of_take hopen, hbody, Scan.after_after]
  rfl

/-- The check ends a reference before a code point that it forbids. -/
theorem scan_of_forbidden (hmem : text ∈ mark '<' * (piece .strict)∗) (hc : Forbidden c) :
    (start .iriRef).scan .strict [] (text ++ c :: more) = ⟨none, text, [], c :: more⟩ := by
  have hnext : (State.body .iri).next .strict c = none := if_pos ⟨rfl, mem_iriForbidden.2 hc⟩
  rw [scan_of_reference hmem, scan_of_none (by simpa using hnext)]
  simp only [Scan.after, List.append_nil]
  rfl

end State

namespace Scanner

open Bracketed

variable {s : Scanner} {r : Recognizer} {cs kept rest text : List CodePoint} {c : CodePoint}

/-- **A token is rejected at the code point that it cannot go on with**, which the error names with
its place. -/
theorem exists_rejected (h : s.Awaits cs) (hr : r ≠ .blank) (hc : c ≠ '.')
    (hscan : (State.start r).scan s.options.iri [] cs = ⟨none, kept, [], c :: rest⟩) :
    ∃ position s', recognize r s = .error ⟨.unexpectedCharacter c, position⟩ s' ∧
      s.prospect.lookaheads[kept.length]? = some ⟨some c, position⟩ := by
  have hsplit := State.scan_split s.options.iri (start_not_blank hr) [] cs
  have hanswers := answers_recognize r h
  have hconsumes := consumes_recognize hr s
  rw [hscan] at hsplit hanswers
  generalize recognize r s = result at hanswers hconsumes
  cases hanswers with
  | accepted production => cases production
  | @rejected e s' _ awaits _ fault =>
    cases hconsumes with
    | failed ending =>
      obtain ⟨position, hposition⟩ := h.prospect.2
      rw [hposition] at ending
      cases ending
    | rejected before dots behind split isDot few left text rejects =>
      have hcodes := awaits.prospect.1
      rw [left, List.nil_append, List.map_cons] at hcodes
      -- No dot is given back, as what comes next is none.
      cases dots with
      | cons d dots =>
        have hdot := isDot d List.mem_cons_self
        rw [IsDot, (List.cons_eq_cons.1 hcodes).1] at hdot
        exact absurd (Option.some.inj hdot) hc
      | nil =>
        have hbefore := congrArg List.length h.prospect.1
        have hafter := congrArg List.length hcodes
        have hall := congrArg List.length hsplit
        rw [split] at hbefore
        simp only [List.length_map, List.length_append, List.length_cons, List.length_nil]
          at hbefore hafter hall
        have hlength : kept.length = before.length := by omega
        generalize s.prospect.ending = ending at rejects
        cases rejects with
        | ended => cases hcodes
        | character =>
          have hfirst := Option.some.inj (List.cons_eq_cons.1 hcodes).1
          subst hfirst
          refine ⟨_, s', rfl, ?_⟩
          rw [split, hlength]
          simp

/-- A reference that only the check is against is rejected at the first code point that it
forbids. -/
theorem exists_rejected_of_forbidden (h : s.Awaits (text ++ rest)) (hiri : s.options.iri = .strict)
    (hmem : text ∈ iriRef .permissive) (hcheck : text ∉ iriRef .strict) :
    ∃ before c after position s', text = before ++ c :: after ∧
      before ∈ mark '<' * (piece .strict)∗ ∧ Forbidden c ∧
      c :: after ∈ (piece .permissive)∗ * mark '>' ∧
      recognize .iriRef s = .error ⟨.unexpectedCharacter c, position⟩ s' ∧
      s.prospect.lookaheads[before.length]? = some ⟨some c, position⟩ := by
  obtain ⟨before, c, after, rfl, hbefore, hc, hafter⟩ := exists_forbidden hmem hcheck
  have hscan : (State.start .iriRef).scan s.options.iri [] (before ++ c :: after ++ rest) =
      ⟨none, before, [], c :: (after ++ rest)⟩ := by
    rw [hiri, List.append_assoc, List.cons_append]
    exact State.scan_of_forbidden hbefore hc
  obtain ⟨position, s', hs', hplace⟩ := exists_rejected h (by decide) hc.ne.2.2 hscan
  exact ⟨before, c, after, position, s', rfl, hbefore, hc, hafter, hs', hplace⟩

/-- A reference is taken wherever one stands in front, and nothing else is. -/
theorem takes_iriRef_iff (h : s.Awaits cs) (hcs : cs = text ++ rest) :
    s.Takes .iriRef .iriRef text ↔ text ∈ iriRef s.options.iri := by
  rw [takes_iff h (by decide) hcs, hcs, ← State.words_iriRef]
  refine State.takes_iff_mem_words (by decide) fun st hst => ?_
  cases st with
  | start r => cases r <;> cases hst
  | keyword k letters => cases letters <;> cases k <;> cases hst
  | body b => cases b <;> cases hst
  | _ => cases hst

/-- What is accepted is a reference that is taken. -/
theorem exists_takes_iriRef {l : Lexeme} {s' : Scanner} (h : s.Awaits cs)
    (hl : recognize .iriRef s = .ok l s') :
    ∃ text rest, cs = text ++ rest ∧ s'.Awaits rest ∧ s.Takes .iriRef .iriRef text := by
  obtain ⟨text, rest, hcs, hrest, htakes⟩ := exists_takes h (by decide) hl
  have hword := State.path_of_takes ((takes_iff h (by decide) hcs).1 htakes)
  rw [State.eq_iriRef_of_words hword] at htakes
  exact ⟨text, rest, hcs, hrest, htakes⟩

end Scanner

end RdfTurtle
