import RdfTurtle.Iri.Standard
import RdfTurtle.Proofs.Comparison.Extending
import RdfTurtle.Proofs.Documents
import RdfTurtle.Proofs.Recovery

/-! # The statements behind a broken one

A broken statement is ended by a dot and a line end, and a document follows. A parser that recovers
goes on with the document, unless the dot was used up by a token that is none: then it goes on
behind the first dot of the document.

* **`Parser.alike_items_of_line_end`** — a line end before a statement does not matter.
* **`Parser.keepsDot`** — whether each error leaves the dot to be found.
* **`Parser.Joins.continues`** — the items of the document come last, or those behind its first dot.
* **`parse_behind_dot`** — the same of sources. -/

namespace RdfTurtle

/-! ## A line end before a statement -/

/-- The next dot comes behind a line end. -/
theorem Prospect.past_line_end {feed : Lookahead} {ls : List Lookahead}
    {ending : Except LexError Position} (hfeed : feed.codePoint? = some ('\n' : CodePoint)) :
    (⟨feed :: ls, ending⟩ : Prospect).past '.' = (⟨ls, ending⟩ : Prospect).past '.' := by
  rw [past, List.dropWhile_cons, hfeed]
  rfl

/-- The same is seen, at positions of any kind. -/
def Likeness.sameCodes : Likeness where
  Positions := fun _ _ => True
  Texts := Eq
  Decoders := fun _ _ => True
  Admits := fun _ => True

/-- Triples are alike only to themselves. -/
theorem Likeness.eq_of_triples {k : Likeness} {items : List Item} {ts : List Triple}
    (h : List.Forall₂ k.Items items (ts.map .triple)) : items = ts.map .triple := by
  induction ts generalizing items with
  | nil => exact List.forall₂_nil_right_iff.1 h
  | cons t ts ih =>
    obtain ⟨i, rest, hi, hrest, rfl⟩ := List.forall₂_cons_right_iff.1 h
    cases hi with
    | triple => rw [ih hrest, List.map_cons]

namespace Parser

variable [IriLibrary] {p p' q q' d : Parser} {feed : Lookahead} {ls : List Lookahead}
variable {position : Position}

/-- **A line end before a statement does not matter**, but for the positions behind it. -/
theorem alike_items_of_line_end (hx : p.expected = .statement) (hx' : d.expected = .statement)
    (hbase : p.base? = d.base?) (hprefixes : p.prefixes = d.prefixes)
    (hsettings : p.settings = d.settings) (hfeed : feed.codePoint? = some ('\n' : CodePoint))
    (hprospect : p.scanner.prospect = ⟨feed :: ls, .ok position⟩)
    (halike : Prospect.Alike Likeness.sameCodes ⟨ls, .ok position⟩ d.scanner.prospect) :
    List.Forall₂ Likeness.sameCodes.Items p.items d.items := by
  have hskip : p.scanner.prospect.unblank = (⟨ls, .ok position⟩ : Prospect).unblank := by
    have hblank := State.next_lineFeed (Or.inl rfl) .strict
    rw [hprospect, Prospect.unblank, Prospect.unblank, behindBlanks_of_skip hfeed hblank]
  exact (alike_yield (fun p => ⟨p, trivial⟩) rfl hx hx' (hskip ▸ halike.unblank) hbase hprefixes
    hsettings).items

/-- Behind the dot no more items come before the end. -/
theorem items_of_behind (hp : p.scanner.Behind) (hx : p.expected = .statement) : p.items = [] := by
  obtain ⟨feed, position, hprospect, hfeed⟩ := hp
  obtain ⟨s, hs, hs'⟩ := Scanner.step_of_prospect hprospect fun _ => ⟨position, rfl⟩
  have hsame : p.scanner.options = s.options := by
    have hframe := p.scanner.frame_step
    rw [hs] at hframe
    exact hframe.2.2.symm
  have halike := alike_items_of_line_end (d := { p with scanner := s }) hx hx rfl rfl
    (congrArg (·, p.recover) hsame) hfeed hprospect (by
      rw [hs']
      exact ⟨.nil, .ok trivial⟩)
  have hend : s.atEnd := (Scanner.atEnd_of_prospect hs').1
  rw [items_of_atEnd (p := { p with scanner := s }) hend (Or.inl hx)] at halike
  exact List.forall₂_nil_right_iff.1 halike

/-! ## Where a broken statement ends -/

/-- Every error of the rest of the document arises behind a dot that was read as a token, or before
a dot that is still to come. -/
def keepsDot (p : Parser) : Bool :=
  p.faults.all fun q =>
    q.afterDot || q.scanner.prospect.lookaheads.any (·.codePoint? = some ('.' : CodePoint))

/-- A parser without items has no dot to lose. -/
theorem keepsDot_of_items_nil (h : p.items = []) : p.keepsDot = true := by
  obtain ⟨p', hp⟩ := pursue_of_items_nil h
  rw [keepsDot, faults_of_none hp]
  rfl

/-- The parser behind the next dot of its input. -/
def pastDot (p : Parser) : Parser := { p with scanner := finalState (p.scanner.skipPast '.') }

omit [IriLibrary] in
/-- A dot makes no difference to the settings. -/
theorem settings_pastDot (p : Parser) : p.pastDot.settings = p.settings :=
  congrArg (·, p.recover) (p.scanner.options_skipPast '.')

/-- The second parser yields what the first does and then, at other positions, what `d` does, or
what comes behind the next dot of `d` if the first parser loses the dot. -/
def Continues (d p p' : Parser) : Prop :=
  ∃ items, p'.items = p.items ++ items ∧
    List.Forall₂ Likeness.sameCodes.Items items (if p.keepsDot then d else d.pastDot).items

variable {o : Outcome} {e : DocumentError}

/-- What a move gives comes first in both. -/
theorem Continues.of_move (hm : p.move = .ok o q) (hm' : p'.move = .ok o q') (ho : o ≠ .finished)
    (h : Continues d q q') : Continues d p p' := by
  obtain ⟨items, hitems, halike⟩ := h
  refine ⟨items, ?_, ?_⟩
  · cases o with
    | triple t =>
      rw [items_of_next (next_of_triple hm), items_of_next (next_of_triple hm'), hitems,
        List.cons_append]
    | onward => rw [items_of_onward hm, items_of_onward hm', hitems]
    | finished => exact absurd rfl ho
  · rwa [keepsDot, faults_of_move hm ho]

/-- So does an error at which the dot is kept. -/
theorem Continues.of_error (hm : p.move = .error e q) (hm' : p'.move = .error e q')
    (hkeeps : q.afterDot = true ∨ q.scanner.Before)
    (h : Continues d (q.afterError e) (q'.afterError e)) : Continues d p p' := by
  obtain ⟨items, hitems, halike⟩ := h
  have hp := pursue_of_error hm
  refine ⟨items, ?_, ?_⟩
  · rw [items_of_pursue_error hp, items_of_pursue_error (pursue_of_error hm'), hitems,
      List.cons_append]
  · have hdot : (q.afterDot ||
        q.scanner.prospect.lookaheads.any (·.codePoint? = some ('.' : CodePoint))) = true := by
      rcases hkeeps with hdot | ⟨ls, dot, feed, position, hprospect, -, hdot, -⟩
      · rw [hdot, Bool.true_or]
      · rw [Bool.or_eq_true, List.any_eq_true]
        refine Or.inr ⟨dot, ?_, decide_eq_true hdot⟩
        rw [hprospect]
        exact List.mem_append_right _ List.mem_cons_self
    rwa [keepsDot, faults_of_error hp, List.all_cons, hdot, Bool.true_and]

/-- `p` and `p'` have the same before them, and `p'` has more behind that, which is what `d` has
before it where it begins a statement. -/
structure Joins (more : List Lookahead) (position : Position) (d p p' : Parser) : Prop where
  parsers : (Comparison.extending more (.ok position)).Parsers p p'
  base : p'.base? = d.base?
  prefixes : p'.prefixes = d.prefixes
  settings : p'.settings = d.settings
  recovers : d.recover = true
  begins : d.expected = .statement
  ahead : Prospect.Alike Likeness.sameCodes ⟨more, .ok position⟩ d.scanner.prospect

variable {more : List Lookahead}

omit [IriLibrary] in
/-- They stay joined as long as nothing is declared. -/
theorem Joins.onward (h : Joins more position d p p')
    (hparsers : (Comparison.extending more (.ok position)).Parsers q q') (hknows : Knows p q)
    (hsettings : q'.settings = p'.settings) : Joins more position d q q' :=
  { h with
    parsers := hparsers
    base := by rw [← hparsers.base, hknows.1, h.parsers.base, h.base]
    prefixes := by rw [← hparsers.prefixes, hknows.2, h.parsers.prefixes, h.prefixes]
    settings := hsettings.trans h.settings }

omit [IriLibrary] in
/-- Both parsers recover from errors. -/
theorem Joins.recover (h : Joins more position d p p') : p.recover = true ∧ p'.recover = true := by
  have hp' : p'.recover = true := (congrArg Prod.snd h.settings).trans h.recovers
  exact ⟨h.parsers.recover.trans hp', hp'⟩

/-- Behind the dot the items of `d` come. -/
theorem Joins.continues_behind (h : Joins more position d q q') (hq : q.scanner.Behind)
    (hstatement : q.expected = .statement) : Continues d q q' := by
  have hnil := items_of_behind hq hstatement
  obtain ⟨feed, position', hprospect, hfeed⟩ := hq
  have hprospect' := h.parsers.scanner.input.prospect
  rw [hprospect] at hprospect'
  refine ⟨q'.items, by rw [hnil, List.nil_append], ?_⟩
  rw [keepsDot_of_items_nil hnil, if_pos rfl]
  exact alike_items_of_line_end (h.parsers.expected ▸ hstatement) h.begins h.base h.prefixes
    h.settings hfeed hprospect' h.ahead

omit [IriLibrary] in
/-- After an error before the dot that ends the statement, or behind that dot, a parser goes on
behind the dot. -/
theorem behind_afterError (hq : q.recover = true) (he : e.recoverable = true)
    (h : q.afterDot = false ∧ q.scanner.Before ∨ q.afterDot = true ∧ q.scanner.Behind) :
    (q.afterError e).scanner.Behind ∧ (q.afterError e).expected = .statement := by
  have hskip (hdot : q.afterDot = false) :
      ∃ s, q.scanner.skipPast '.' = .ok () s ∧ s.Behind :=
    (h.resolve_right fun hbehind => by simp [hdot] at hbehind).2.skipPast
  generalize hafter : q.afterError e = q'
  cases recovered_of_afterError hafter with
  | here _ hdot => exact ⟨(h.resolve_left fun hbefore => by simp [hdot] at hbefore).2, rfl⟩
  | behind _ hdot hs =>
    obtain ⟨s, hs', hbehind⟩ := hskip hdot
    rw [hs'] at hs
    cases hs
    exact ⟨hbehind, rfl⟩
  | failed _ hdot hs =>
    obtain ⟨s, hs', -⟩ := hskip hdot
    rw [hs'] at hs
    cases hs
  | ended hstops =>
    rw [hq, he] at hstops
    cases hstops

/-- So they do after an error before the dot or behind it. -/
theorem Joins.continues_afterError (h : Joins more position d q q') (he : e.recoverable = true)
    (hsame : Likeness.sameBytes.DocumentErrors e e)
    (hstands : q.afterDot = false ∧ q.scanner.Before ∨ q.afterDot = true ∧ q.scanner.Behind) :
    Continues d (q.afterError e) (q'.afterError e) := by
  obtain ⟨hbehind, hstatement⟩ := behind_afterError h.recover.1 he hstands
  have hparsers : (Comparison.extending more (.ok position)).Parsers (q.afterError e)
      (q'.afterError e) := by
    refine Comparison.parsers_afterError h.parsers.recover h.parsers hsame fun hdot => ?_
    -- Scanners part only where the first is spent, which is not so behind the dot.
    obtain ⟨s, hs, hs'⟩ : ∃ s, q.scanner.skipPast '.' = .ok () s ∧ s.Behind := by
      rcases hstands with ⟨-, hbefore⟩ | ⟨hdot', -⟩
      · exact hbefore.skipPast
      · rw [hdot] at hdot'
        cases hdot'
    refine ((Comparison.follows_skipPast '.').alike h.parsers.scanner).resolve_right
      fun hparted => ?_
    have hspent := hparted.1
    rw [hs] at hspent
    exact hs'.not_spent hspent
  exact (h.onward hparsers (knows_afterError q e) (settings_afterError q' e)).continues_behind
    hbehind hstatement

/-- Where an error used up the dot, the next one is a dot of what `d` has before it. -/
theorem Joins.alike_items_afterError (h : Joins more position d q q') (he : e.recoverable = true)
    (hq : q.scanner.Behind) (hdot : q.afterDot = false) :
    List.Forall₂ Likeness.sameCodes.Items (q'.afterError e).items d.pastDot.items := by
  obtain ⟨feed, position', hprospect, hfeed⟩ := hq
  have hprospect' := h.parsers.scanner.input.prospect
  rw [hprospect] at hprospect'
  have hpast : q'.scanner.prospect.past '.' = (⟨more, .ok position⟩ : Prospect).past '.' := by
    rw [hprospect', List.cons_append, Prospect.past_line_end hfeed, List.nil_append]
  have hclosed : ∃ position, d.scanner.prospect.ending = .ok position := by
    have hending := h.ahead.ending
    generalize d.scanner.prospect.ending = ending at hending
    cases hending with
    | ok => exact ⟨_, rfl⟩
  obtain ⟨s, hs, hs'⟩ := Scanner.skipPast_of_closed '.' hclosed
  have hd : d.pastDot.scanner = s := by
    rw [pastDot, hs]
    rfl
  have hresumes := resumes_afterError h.recover.2 he
  have hsettings := settings_afterError q' e
  generalize q'.afterError e = r at hresumes hsettings
  -- No dot has been read, so that the parser skips to the next one, as `d.pastDot` does.
  cases hresumes with
  | here hdot' =>
    rw [← h.parsers.afterDot, hdot] at hdot'
    cases hdot'
  | @behind s' hdot' rest =>
    have halike : s'.prospect.Alike Likeness.sameCodes d.pastDot.scanner.prospect := by
      rw [rest, hpast, hd, hs']
      exact h.ahead.past '.'
    exact alike_items_of_prospect (fun _ => trivial) rfl rfl h.begins halike h.base h.prefixes
      (hsettings.trans (h.settings.trans d.settings_pastDot.symm))
  | failed hdot' rest =>
    rw [hpast] at rest
    injection rest with _ rest
    cases rest

/-- Then `p'` goes on behind that dot. -/
theorem Joins.continues_lost (h : Joins more position d q q') (he : e.recoverable = true)
    (hm : p.move = .error e q) (hm' : p'.move = .error e q') (hq : q.scanner.Behind)
    (hdot : q.afterDot = false) : Continues d p p' := by
  have hp := pursue_of_error hm
  have halike := h.alike_items_afterError he hq hdot
  obtain ⟨feed, position', hprospect, hfeed⟩ := hq
  -- Only the line feed is before the first parser, which finds no dot and ends.
  have hnil : (q.afterError e).items = [] := by
    have hresumes := resumes_afterError h.recover.1 he
    generalize q.afterError e = r at hresumes
    cases hresumes with
    | here hdot' =>
      rw [hdot] at hdot'
      cases hdot'
    | @behind s hdot' rest =>
      rw [hprospect, Prospect.past_line_end hfeed] at rest
      exact items_of_atEnd (Scanner.atEnd_of_prospect rest).1 (Or.inl rfl)
    | failed => exact items_of_nothing rfl
  have hlost : p.keepsDot = false := by
    rw [keepsDot, faults_of_error hp, List.all_cons, hdot, hprospect, List.any_cons, hfeed]
    rfl
  refine ⟨(q'.afterError e).items, ?_, ?_⟩
  · rw [items_of_pursue_error hp, items_of_pursue_error (pursue_of_error hm'), hnil]
    rfl
  · rwa [hlost]

/-- **The items of `d` come last, or those behind its next dot** if the dot of the broken statement
is lost. The induction is on the moves before the dot. -/
theorem Joins.continues (h : Joins more position d p p') (hp : p.scanner.Before)
    (hbegun : p.expected ≠ .nothing) : Continues d p p' := by
  induction hn : p.size using Nat.strongRecOn generalizing p p' with
  | ind n ih =>
    subst hn
    have hcrosses := crosses_move hbegun hp
    -- The moves part only where the first scanner is spent, which it is not up to the line end.
    have hmove := (Comparison.follows_move.alike h.parsers).resolve_right fun hparted =>
      hcrosses.not_spent hparted.1
    have hsettings := p'.settings_move
    cases hm : p.move with
    | ok o q =>
      rw [hm] at hcrosses hmove
      obtain ⟨_, q', hm', rfl, hparsers⟩ := hmove.of_ok
      rw [hm'] at hsettings
      cases hcrosses with
      | stays goes before knows =>
        exact .of_move hm hm' goes (ih _ (size_of_move hm goes)
          (h.onward hparsers knows hsettings) before (expected_of_move_onward hbegun hm goes) rfl)
      | closes goes behind statement knows =>
        exact .of_move hm hm' goes
          ((h.onward hparsers knows hsettings).continues_behind behind statement)
    | error e q =>
      rw [hm] at hcrosses hmove
      obtain ⟨e', q', hm', he, hparsers⟩ := hmove.of_error
      rw [hm'] at hsettings
      obtain rfl : e = e' := Likeness.eq_of_documentErrors he
      cases hcrosses with
      | trips recoverable before afterDot knows =>
        exact .of_error hm hm' (Or.inr before)
          ((h.onward hparsers knows hsettings).continues_afterError recoverable he
            (Or.inl ⟨afterDot, before⟩))
      | ends recoverable behind afterDot knows =>
        exact .of_error hm hm' (Or.inl afterDot)
          ((h.onward hparsers knows hsettings).continues_afterError recoverable he
            (Or.inr ⟨afterDot, behind⟩))
      | loses recoverable behind afterDot knows =>
        exact (h.onward hparsers knows hsettings).continues_lost recoverable hm hm' behind afterDot

end Parser

/-! ## A document behind a broken statement -/

namespace Scanner

/-- A scanner over a calm text, a dot and a line end stands before the dot. -/
theorem before_of_awaits {s : Scanner} {text : List Char} (htext : ∀ x ∈ text, (x : CodePoint).Calm)
    (h : s.Awaits (codes (text ++ ['.', '\n']))) : s.Before := by
  obtain ⟨hlookaheads, position, hending⟩ := h.prospect
  rw [codes_append, List.map_append] at hlookaheads
  obtain ⟨ls, rest, hsplit, hls, hrest⟩ := List.map_eq_append_iff.1 hlookaheads
  obtain ⟨dot, rest, rfl, hdot, hrest⟩ := List.map_eq_cons_iff.1 hrest
  obtain ⟨feed, rest, rfl, hfeed, hrest⟩ := List.map_eq_cons_iff.1 hrest
  obtain rfl := List.map_eq_nil_iff.1 hrest
  refine ⟨ls, dot, feed, position, by rw [← hsplit, ← hending], fun l hl => ?_, hdot, hfeed⟩
  have hmem := List.mem_map_of_mem (f := Lookahead.codePoint?) hl
  rw [hls, codes, List.map_map] at hmem
  obtain ⟨x, hx, hcode⟩ := List.mem_map.1 hmem
  exact ⟨x, hcode.symm, htext x hx⟩

end Scanner

/-- A parser that is created before a code point has not seen the end. -/
theorem Parser.metEnd_of_create [IriLibrary] {source : Source} {options : ParserOptions}
    {p : Parser} (h : create source options = .ok p) (hend : ¬ p.scanner.atEnd) :
    p.scanner.metEnd = false := by
  obtain ⟨t, base?, ht, -, rfl⟩ := exists_of_create h
  obtain ⟨s, hs, hmark⟩ := of_begin_ok ht
  obtain ⟨current, decoder, -, hsame⟩ := Scanner.of_ofSource_ok hs
  have hputBack : s.putBack = [] := by rw [hsame]
  rcases of_skipMark_ok hmark with ⟨-, rfl⟩ | ⟨-, hbefore, hstep⟩
  · exact Scanner.metEnd_of_putBack hputBack hend
  · have hmet := Scanner.metEnd_of_putBack hputBack hbefore
    exact (Scanner.metEnd_of_step hmet hstep).resolve_right fun hended => hend hended.1

/-- Without an error there is nothing behind it that is left out. -/
theorem eq_of_uptoError {items : List Item} {ts : List Triple}
    (h : uptoError items = ts.map .triple) : items = ts.map .triple := by
  induction items generalizing ts with
  | nil => exact h
  | cons i items ih =>
    cases ts with
    | nil => cases i <;> cases h
    | cons t ts =>
      cases i with
      | error e => injection h with h; cases h
      | triple u =>
        injection h with hu h
        rw [hu, ih h, List.map_cons]

section Sources

variable [IriLibrary] {a b c : Source} {text document : List Char} {options : ParserOptions}

omit [IriLibrary] in
/-- What has the same code points is alike, at any positions. -/
theorem Likeness.alike_of_codes {q : Prospect} {ls : List Lookahead} {position : Position}
    (hcodes : ls.map Lookahead.codePoint? = q.lookaheads.map Lookahead.codePoint?)
    (hclosed : ∃ position, q.ending = .ok position) :
    Prospect.Alike sameCodes ⟨ls, .ok position⟩ q where
  lookaheads := by
    have hsame : List.Forall₂ Eq (ls.map Lookahead.codePoint?)
        (q.lookaheads.map Lookahead.codePoint?) := by
      rw [hcodes, List.forall₂_eq_eq_eq]
    rw [List.forall₂_map_left_iff, List.forall₂_map_right_iff] at hsame
    exact hsame.imp fun _ _ hcode => ⟨hcode, trivial, fun _ _ => trivial⟩
  ending := by
    obtain ⟨position', hposition⟩ := hclosed
    rw [hposition]
    exact .ok trivial

/-- A parser over a longer text is joined to one over what the text goes on with. -/
theorem Parser.exists_joins {p d : Parser} (hrecover : options.recover = true)
    (hp : create a options = .ok p) (hd : create c options = .ok d)
    (ha : a.Delivers (String.ofList text).toUTF8.toList .closed)
    (hb : b.Delivers (String.ofList (text ++ document)).toUTF8.toList .closed)
    (hc : c.Delivers (String.ofList document).toUTF8.toList .closed)
    (hmark : document.head? ≠ some '\uFEFF') (hbefore : p.scanner.Before) :
    ∃ p' more position, create b options = .ok p' ∧ Joins more position d p p' := by
  obtain ⟨-, base?, -, hbase, -⟩ := exists_of_create hp
  obtain ⟨s, hs, hawaits, hoptions⟩ := exists_create ha hbase
  obtain ⟨s', hs', hawaits', hoptions'⟩ := exists_create hb hbase
  obtain ⟨t, ht, hawaits'', hoptions''⟩ := exists_create hc hbase
  obtain rfl := Except.ok.inj (hp.symm.trans hs)
  obtain rfl := Except.ok.inj (hd.symm.trans ht)
  have hbytes : (String.ofList (text ++ document)).toUTF8.toList =
      (String.ofList text).toUTF8.toList ++ (String.ofList document).toUTF8.toList := by
    rw [Utf8.toList_toUTF8, Utf8.toList_toUTF8, Utf8.toList_toUTF8, List.flatMap_append]
  have hleading := (Comparison.parsers_of_create (ha.leads hb hbytes options.scanner) hp
    hs').resolve_right fun hended => hbefore.not_spent hended.1
  have hscanner := hleading.scanner
  obtain ⟨hlookaheads, hclosed⟩ := hawaits.prospect
  obtain ⟨hlookaheads', position, hposition⟩ := hawaits'.prospect
  obtain ⟨hlookaheads'', hclosed''⟩ := hawaits''.prospect
  obtain ⟨more, hmore⟩ := Scanner.exists_extended hscanner.input
    (metEnd_of_create hp hbefore.not_atEnd) hclosed
  rw [hposition] at hmore
  -- What the second has more is what the document is read as.
  have hcodes : more.map Lookahead.codePoint? = t.prospect.lookaheads.map Lookahead.codePoint? := by
    rw [unmarked_append text hmark, codes_append, List.map_append, hmore.prospect, List.map_append,
      hlookaheads] at hlookaheads'
    rw [List.append_cancel_left hlookaheads', hlookaheads'', unmarked_of_ne hmark]
  exact ⟨_, more, position, hs', {
    parsers := ⟨⟨hmore, hscanner.text, hscanner.start, hscanner.iri, hscanner.empty⟩,
      rfl, rfl, rfl, rfl, rfl⟩
    base := rfl
    prefixes := rfl
    settings := congrArg (·, options.recover) (hoptions'.trans hoptions''.symm)
    recovers := hrecover
    begins := rfl
    ahead := Likeness.alike_of_codes hcodes hclosed'' }⟩

/-- **A broken statement does not take the next one with it, if its dot is kept.** Take a text in
which nothing opens an IRI reference, a string, a comment or an escape, ended by a dot and a line
end, and a document that is parsed without error. From the two of them a parser that recovers yields
the items of the text and then the triples of the document, if each error of the text arises before
the dot or behind it as a token. Otherwise what comes last is what is read behind the first dot of
the document. -/
theorem parse_behind_dot {p d : Parser} {ts : List Triple}
    (htext : ∀ x ∈ text, x ∉ ['.', '<', '>', '"', '\'', '#', '\\'])
    (hmark : document.head? ≠ some '\uFEFF')
    (ha : a.Delivers (String.ofList (text ++ ['.', '\n'])).toUTF8.toList .closed)
    (hb : b.Delivers (String.ofList (text ++ ['.', '\n'] ++ document)).toUTF8.toList .closed)
    (hc : c.Delivers (String.ofList document).toUTF8.toList .closed)
    (hp : Parser.create a { options with recover := true } = .ok p)
    (hd : Parser.create c { options with recover := true } = .ok d)
    (hparse : parse c { options with recover := false } = ts.map .triple) :
    if p.keepsDot then
      parse b { options with recover := true } =
        parse a { options with recover := true } ++ ts.map .triple
    else
      ∃ items, parse b { options with recover := true } =
          parse a { options with recover := true } ++ items ∧
        List.Forall₂ Likeness.sameCodes.Items items d.pastDot.items := by
  -- In front of the dot nothing opens what could hide it.
  have hbefore : p.scanner.Before := by
    obtain ⟨-, base?, -, hbase, -⟩ := Parser.exists_of_create hp
    obtain ⟨s, hs, hawaits, -⟩ := Parser.exists_create ha hbase
    obtain rfl := Except.ok.inj (hp.symm.trans hs)
    rw [Parser.unmarked_append text (by simp)] at hawaits
    refine Scanner.before_of_awaits (fun x hx y hy hxy => ?_) hawaits
    exact htext x (Parser.mem_of_mem_unmarked hx) (CodePoint.ofChar_inj.1 hxy ▸ hy)
  obtain ⟨p', more, position, hp', hjoins⟩ := Parser.exists_joins rfl hp hd ha hb hc hmark hbefore
  have hbegun : p.expected ≠ .nothing := by
    obtain ⟨_, _, -, -, rfl⟩ := Parser.exists_of_create hp
    simp
  have hdocument : d.items = ts.map .triple := by
    rw [parse_eq_uptoError] at hparse
    have hparsed := eq_of_uptoError hparse
    rwa [parse, hd] at hparsed
  obtain ⟨items, hitems, halike⟩ := hjoins.continues hbefore hbegun
  simp only [parse, hp, hp']
  split
  · next hkeeps =>
    rw [if_pos hkeeps, hdocument] at halike
    rw [hitems, Likeness.eq_of_triples halike]
  · next hloses =>
    rw [if_neg hloses] at halike
    exact ⟨items, hitems, halike⟩

end Sources

section

open scoped Iri.Standard

/-- An object is missing before the dot. The dot is kept, and the next statement is read. -/
theorem parse_behind_dot_missing_object :
    parse (.memory "_:x a .\n<s> <p> <o> .".toUTF8.toList)
        { ({} : ParserOptions) with recover := true } =
      [.error (.lex ⟨.unexpectedCharacter '\n', ⟨1, 8⟩⟩),
        .triple ⟨.iri "s", .iri "p", .iri "o"⟩] := by
  have hparse : parse (.memory "<s> <p> <o> .".toUTF8.toList)
      { ({} : ParserOptions) with recover := false } =
        [⟨.iri "s", .iri "p", .iri "o"⟩].map .triple := by
    decide +kernel
  have hbroken : (Parser.create (.memory "_:x a .\n".toUTF8.toList)
      { ({} : ParserOptions) with recover := true }).map (fun p => (p.items, p.keepsDot)) =
        .ok ([.error (.lex ⟨.unexpectedCharacter '\n', ⟨1, 8⟩⟩)], true) := by
    decide +kernel
  have hcreated : (Parser.create (.memory "<s> <p> <o> .".toUTF8.toList)
      { ({} : ParserOptions) with recover := true }).map (fun d => d.recover) = .ok true := by
    decide +kernel
  obtain ⟨p, hp, hitems⟩ := ok_of_map hbroken
  obtain ⟨d, hd, -⟩ := ok_of_map hcreated
  obtain ⟨hitems, hkeeps⟩ := Prod.mk.inj hitems
  have h := @parse_behind_dot _ _ _ _ "_:x a ".toList "<s> <p> <o> .".toList {} p d _ (by simp)
    (by decide) (.memory _) (.memory _) (.memory _) hp hd hparse
  have htext : String.ofList ("_:x a ".toList ++ ['.', '\n']) = "_:x a .\n" := by decide +kernel
  have hboth : String.ofList ("_:x a ".toList ++ ['.', '\n'] ++ "<s> <p> <o> .".toList) =
      "_:x a .\n<s> <p> <o> ." := by
    decide +kernel
  rw [if_pos hkeeps, hboth, htext] at h
  rw [h, parse, hp]
  exact congrArg (· ++ _) hitems

/-- A dot that is taken as a part of a name is lost with the error, and so is the next statement. -/
theorem next_statement_lost :
    parse (.memory "<s> <p> <o> .".toUTF8.toList) = [.triple ⟨.iri "s", .iri "p", .iri "o"⟩] ∧
      parse (.memory "a.\n<s> <p> <o> .".toUTF8.toList)
          { ({} : ParserOptions) with recover := true } =
        [.error (.lex ⟨.unexpectedCharacter '\n', ⟨1, 3⟩⟩)] := by
  decide +kernel

end

end RdfTurtle
