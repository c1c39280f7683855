import RdfTurtle.Iri.Standard
import RdfTurtle.Proofs.Blanks
import RdfTurtle.Proofs.Documents
import RdfTurtle.Proofs.Following
import RdfTurtle.Proofs.Iteration
import RdfTurtle.Proofs.Lines

/-! # Documents one after another

A document that ends with a line feed and has no errors may be followed by any other. Read as one
they yield what the first does and then what the second does, read with the base and the namespaces
that the first has declared, only that the second stands further down.

* **`Parser.begin`** — a parser that begins with given declarations; **`readFrom`** what it yields.
* **`Decoder.exists_rest`** — a longer input is decoded as the shorter one and then the rest.
* **`Parser.exists_completes`** — a parser with more to come completes the same triples.
* **`documents_compose`** — documents compose at line ends between statements. -/

namespace RdfTurtle

/-! ## Reading with declarations -/

namespace Parser

/-- A parser at the start of a document, with a base and namespaces that are declared already. -/
def begin (source : Source) (options : Options) (recover : Bool) (base? : Option Iri)
    (prefixes : PrefixMap) : Except LexError Parser := do
  let scanner ← Scanner.ofSource source options >>= skipMark
  return ⟨scanner, base?, prefixes, .statement, recover, false⟩

/-- A document begins with its base and without namespaces. -/
theorem create_eq [IriLibrary] (source : Source) (options : ParserOptions) :
    create source options = (do
      let base? ← initialBase? options.base?
      (begin source options.scanner options.recover base? .empty).mapError .lex) := by
  unfold create begin
  cases initialBase? options.base? with
  | error e => rfl
  | ok base? =>
    simp only [bind, Except.bind]
    cases Scanner.ofSource source options.scanner with
    | error e => rfl
    | ok s =>
      dsimp only
      cases skipMark s <;> rfl

variable {source : Source} {options : Options} {recover : Bool} {base? : Option Iri}
variable {prefixes : PrefixMap} {p : Parser} {e : LexError}

/-- How a parser begins. -/
structure Begun (source : Source) (options : Options) (recover : Bool) (base? : Option Iri)
    (prefixes : PrefixMap) (p : Parser) : Prop where
  prospect : p.scanner.prospect = (Decoder.ofSource source options).prospect.unmarked
  base : p.base? = base?
  prefixes : p.prefixes = prefixes
  expected : p.expected = .statement
  settings : p.settings = (options, recover)
  metEnd : ¬ p.scanner.atEnd → p.scanner.metEnd = false

/-- But for what is declared, a parser that begins is one that is created. -/
theorem begun_of_begin [IriLibrary]
    (h : begin source options recover base? prefixes = .ok p) :
    Begun source options recover base? prefixes p := by
  have hcreate : create source { recover, scanner := options } =
        .ok { p with base? := none, prefixes := .empty } ∧
      p.base? = base? ∧ p.prefixes = prefixes ∧ p.expected = .statement := by
    unfold begin at h
    unfold create
    cases hs : Scanner.ofSource source options >>= skipMark with
    | error e =>
      rw [hs] at h
      cases h
    | ok s =>
      rw [hs] at h
      injection h with h
      subst h
      exact ⟨rfl, rfl, rfl, rfl⟩
  obtain ⟨hcreate, hbase, hprefixes, hx⟩ := hcreate
  exact {
    prospect := prospect_of_create hcreate
    base := hbase
    prefixes := hprefixes
    expected := hx
    settings := settings_of_create hcreate
    metEnd := metEnd_of_create (p := { p with base? := none, prefixes := .empty }) hcreate }

/-- A parser cannot begin where nothing can be decoded. -/
theorem unmarked_of_begin_error (h : begin source options recover base? prefixes = .error e) :
    (Decoder.ofSource source options).prospect.unmarked = ⟨[], .error e⟩ := by
  have hbegin := unmarked_of_begin source options
  unfold begin at h
  cases hs : Scanner.ofSource source options >>= skipMark with
  | ok s =>
    rw [hs] at h
    cases h
  | error e' =>
    rw [hs] at h hbegin
    injection h with h
    rw [← h]
    exact hbegin

end Parser

/-- What comes of a document with the declarations that are made before it. A document that does not
begin with anything that can be decoded yields that error. -/
def readFrom [IriLibrary] (source : Source) (options : Options) (recover : Bool)
    (base? : Option Iri) (prefixes : PrefixMap) : Yield :=
  match Parser.begin source options recover base? prefixes with
  | .ok p => p.yield
  | .error e => ⟨[.error (.lex e)], base?, prefixes⟩

/-- Parsing is reading from the given base. -/
theorem parse_eq_readFrom [IriLibrary] {source : Source} {options : ParserOptions}
    {base? : Option Iri} (h : Parser.initialBase? options.base? = .ok base?) :
    parse source options =
      (readFrom source options.scanner options.recover base? .empty).items := by
  rw [parse, Parser.create_eq, h, readFrom]
  simp only [bind, Except.bind]
  cases Parser.begin source options.scanner options.recover base? .empty <;> rfl

/-! ## Decoding on -/

namespace Decoder

variable {d d' : Decoder} {rest : List UInt8} {ending : Ending} {position : Position}

/-- **From a longer input the same is decoded first, and then the rest**, by a decoder that goes on
where the shorter input has ended. -/
theorem exists_rest (h : Leads rest ending d d') (hclosed : d.prospect.ending = .ok position) :
    ∃ e : Decoder, e.contents = rest ∧ e.source.ending = ending ∧ e.mode = d'.mode ∧ e.Serves ∧
      e.locator = d.locator.passAll (Lookahead.codes d.prospect.lookaheads) ∧
      d'.prospect = ⟨d.prospect.lookaheads ++ e.prospect.lookaheads, e.prospect.ending⟩ := by
  induction hn : d.size using Nat.strongRecOn generalizing d d' with
  | ind n ih =>
    subst hn
    cases hd : d.next with
    | error fault e =>
      rw [prospect_of_error hd] at hclosed
      cases hclosed
    | ok l e =>
      obtain ⟨code?, place⟩ := l
      cases code? with
      | none =>
        -- The shorter input has ended, and the longer one goes on with the rest.
        have hcontents := h.contents
        rw [contents_of_next_none h.left hd, List.nil_append] at hcontents
        rw [prospect_of_none hd]
        exact ⟨d', hcontents, h.ending, rfl, h.right, h.locator.symm, rfl⟩
      | some c =>
        have hmoved := d.locates_next
        rw [prospect_of_some hd] at hclosed ⊢
        rw [hd] at hmoved
        -- The inputs only part where the shorter one ends or is cut short in a group of bytes.
        rcases ahead_next h with halike | ⟨⟨fault, e', hfails⟩ | ⟨place', e', hends⟩, -⟩
        · rw [hd] at halike
          obtain ⟨l', e', hd', hl, hleads⟩ := halike.of_ok
          obtain ⟨f, hcontents, hending, hmode, hserves, hlocator, hprospect⟩ :=
            ih _ (size_of_next hd) hleads hclosed rfl
          obtain rfl : l' = ⟨some c, place⟩ := Lookahead.ext hl.codePoint.symm hl.position.symm
          have hmoved' := d'.locates_next
          rw [hd'] at hmoved'
          refine ⟨f, hcontents, hending, hmode.trans (congrArg Prod.snd hmoved'.passed), hserves,
            ?_, ?_⟩
          · rw [hlocator, show e.locator = d.locator.pass c from congrArg Prod.fst hmoved.passed]
            rfl
          · rw [prospect_of_some hd', hprospect]
            rfl
        · rw [hd] at hfails
          cases hfails
        · rw [hd] at hends
          cases hends

end Decoder

/-! ## Reading on -/

/-- What a move has read does not end with the last line feed, which is still to come. -/
theorem EndsInFeed.of_further {o q : Prospect} (h : EndsInFeed o.lookaheads)
    (hfurther : o.Further q) : EndsInFeed q.lookaheads := by
  refine h.of_suffix hfurther.endOf.1 fun hnil => ?_
  obtain ⟨read, last, rfl, hlast⟩ := hfurther
  obtain ⟨feed, hfeed, hcode⟩ := h
  dsimp only at hfeed hnil
  rw [hnil, List.getLast?_append_of_ne_nil _ (List.cons_ne_nil _ _)] at hfeed
  obtain rfl : last = feed := Option.some.inj hfeed
  exact hlast hcode

namespace Parser

variable [IriLibrary] {more : List Lookahead} {ending : Except LexError Position}
variable {p p' : Parser} {ts : List Triple}

/-- Both parsers move on alike, since the end does not show to the first. -/
theorem exists_move (h : (Comparison.extending more ending).Parsers p p')
    (hlast : EndsInFeed p.scanner.prospect.lookaheads) {o : Outcome} {q : Parser}
    (hm : p.move = .ok o q) (ho : o ≠ .finished) :
    ∃ q', p'.move = .ok o q' ∧ (Comparison.extending more ending).Parsers q q' ∧
      EndsInFeed q.scanner.prospect.lookaheads := by
  have hfurther : p.scanner.prospect.Further q.scanner.prospect := by
    rcases p.advances_move with hadvances | ⟨r, hr⟩
    · rw [hm] at hadvances
      cases hadvances with
      | onward further => exact further
    · rw [hm] at hr
      injection hr with hr _
      exact absurd hr ho
  have hlast' := hlast.of_further hfurther
  have ⟨feed, hfeed, hcode⟩ := hlast'
  have hmove := (Comparison.follows_move.alike h).resolve_right fun hparted => by
    have hspent : q.scanner.Spent := by
      have hended := hparted.1
      rwa [hm] at hended
    exact Scanner.not_spent_of_feed (List.mem_of_getLast? hfeed) hcode hspent
  rw [hm] at hmove
  obtain ⟨o', q', hm', rfl, hq⟩ := hmove.of_ok
  exact ⟨q', hm', hq, hlast'⟩

/-- **A parser that has more to come behind a last line feed completes the same triples.** Where the
other one has only blanks before the end it is yet to pass over them. -/
theorem exists_completes (h : (Comparison.extending more ending).Parsers p p')
    (hlast : EndsInFeed p.scanner.prospect.lookaheads) (hx : p.expected ≠ .nothing)
    (hitems : p.items = ts.map .triple) :
    ∃ q q', Completes p ts q ∧ Completes p' ts q' ∧
      (Comparison.extending more ending).Parsers q q' ∧ q.expected = .statement ∧
      EndsInFeed q.scanner.prospect.lookaheads ∧
      ∃ position, q.scanner.prospect.unblank = ⟨[], .ok position⟩ := by
  induction hn : p.size using Nat.strongRecOn generalizing p p' ts with
  | ind n ih =>
    subst hn
    cases hm : p.move with
    | error e q =>
      rw [items_of_pursue_error (pursue_of_error hm)] at hitems
      cases ts <;> cases hitems
    | ok o q =>
      cases o with
      | triple t =>
        obtain ⟨q', hm', hq, hlast'⟩ := exists_move h hlast hm (by simp)
        rw [items_of_pursue_triple (pursue_of_triple hm)] at hitems
        cases ts with
        | nil => cases hitems
        | cons u ts =>
          injection hitems with ht hitems
          injection ht with ht
          subst ht
          obtain ⟨r, r', hr, hr', hrest⟩ := ih _ (size_of_move hm (by simp)) hq hlast'
            (expected_of_move_onward hx hm (by simp)) hitems rfl
          exact ⟨r, r', .triple hm hr, .triple hm' hr', hrest⟩
      | onward =>
        obtain ⟨q', hm', hq, hlast'⟩ := exists_move h hlast hm (by simp)
        rw [items_of_onward hm] at hitems
        obtain ⟨r, r', hr, hr', hrest⟩ := ih _ (size_of_move hm (by simp)) hq hlast'
          (expected_of_move_onward hx hm (by simp)) hitems rfl
        exact ⟨r, r', .onward hm hr, .onward hm' hr', hrest⟩
      | finished =>
        -- Only blanks come before the end. Both parsers are left before them, since the second one
        -- may have more of them behind.
        obtain ⟨hbegins, r, -, ⟨hn, -⟩ | ⟨s, hblank, hend, -⟩⟩ := finishes_of_move hm
        · exact absurd hn hx
        · rw [items_of_pursue_none (pursue_of_finished hm)] at hitems
          obtain rfl : ts = [] := List.map_eq_nil_iff.1 hitems.symm
          have hstatement := hbegins.resolve_left hx
          refine ⟨p, p', .done p, .done p', h, hstatement, hlast, s.scanner.current.position, ?_⟩
          rcases p.skipBlank_cases with ⟨t, ht, hunblank⟩ | ⟨e, t, ht, -⟩
          · rw [hblank] at ht
            injection ht with _ ht
            subst ht
            rw [← hunblank, Scanner.prospect_of_atEnd hend]
          · rw [hblank] at ht
            cases ht

end Parser

/-! ## Documents -/

namespace Prospect

variable {p : Prospect}

/-- Only a mark that comes first is passed over. -/
theorem unmarked_of_head (h : ∀ l ∈ p.lookaheads.head?, l.codePoint? ≠ some Parser.byteOrderMark) :
    p.unmarked = p := by
  obtain ⟨lookaheads, ending⟩ := p
  cases lookaheads with
  | nil => rfl
  | cons l ls => exact if_neg (h l rfl)

/-- Behind the mark the line feed is still the last one, also with more behind it. -/
theorem unmarked_append (h : EndsInFeed p.lookaheads) (more : List Lookahead)
    (ending : Except LexError Position) :
    EndsInFeed p.unmarked.lookaheads ∧
      (⟨p.lookaheads ++ more, ending⟩ : Prospect).unmarked =
        ⟨p.unmarked.lookaheads ++ more, ending⟩ := by
  obtain ⟨lookaheads, position⟩ := p
  -- A text that ends in a line feed is not empty, and is more than a mark.
  cases lookaheads with
  | nil =>
    obtain ⟨feed, hfeed, -⟩ := h
    cases hfeed
  | cons l ls =>
    by_cases hmark : l.codePoint? = some Parser.byteOrderMark
    · have hls : ls ≠ [] := by
        rintro rfl
        obtain ⟨feed, hfeed, hcode⟩ := h
        obtain rfl : l = feed := Option.some.inj hfeed
        rw [hmark] at hcode
        exact absurd (Option.some.inj hcode) (by decide)
      have hunmarked {ls : List Lookahead} {ending : Except LexError Position} :
          (⟨l :: ls, ending⟩ : Prospect).unmarked = ⟨ls, ending⟩ := if_pos hmark
      rw [List.cons_append, hunmarked, hunmarked]
      exact ⟨h.of_suffix (List.suffix_cons l ls) hls, rfl⟩
    · have hunmarked {ls : List Lookahead} {ending : Except LexError Position} :
          (⟨l :: ls, ending⟩ : Prospect).unmarked = ⟨l :: ls, ending⟩ := if_neg hmark
      rw [List.cons_append, hunmarked, hunmarked]
      exact ⟨h, rfl⟩

end Prospect

/-- The code points end with the line feed too. -/
theorem EndsInFeed.codes {ls : List Lookahead} (h : EndsInFeed ls) :
    (Lookahead.codes ls).getLast? = some ('\n' : CodePoint) := by
  obtain ⟨feed, hfeed, hcode⟩ := h
  obtain ⟨before, rfl⟩ := List.getLast?_eq_some_iff.1 hfeed
  rw [Lookahead.codes_append, Lookahead.codes_singleton hcode, List.getLast?_concat]

namespace Likeness

variable {y y' : Yield}

/-- What is yielded alike but further down is yielded that many lines further down. -/
theorem down_of_yields {n : Nat} (h : (down n).Yields y y') :
    y' = ⟨y.items.map (Item.down n), y.base?, y.prefixes⟩ := by
  rw [← down_of_items h.items, h.base, h.prefixes]

end Likeness

namespace Parser

variable [IriLibrary] {k : Likeness} {p : Parser} {source : Source} {options : Options}
variable {recover : Bool}

/-- **A parser that begins a statement yields what is read from a source** that holds the same, with
its declarations. -/
theorem yields_readFrom (total : ∀ p, ∃ p', k.Positions p p') (texts : k.Texts = Eq)
    (hx : p.expected = .statement) (hsettings : p.settings = (options, recover))
    (h : (Decoder.ofSource source options).prospect.unmarked.unblank.Alike k
      p.scanner.prospect.unblank) :
    k.Yields (readFrom source options recover p.base? p.prefixes) p.yield := by
  unfold readFrom
  cases hd : begin source options recover p.base? p.prefixes with
  | ok d =>
    have hbegun := begun_of_begin hd
    rw [← hbegun.prospect] at h
    exact alike_yield total texts hbegun.expected hx h hbegun.base hbegun.prefixes
      (hbegun.settings.trans hsettings.symm)
  | error e =>
    rw [unmarked_of_begin_error hd] at h
    obtain ⟨e', he', he⟩ := h.of_error_left
    rw [yield_of_unblank_error hx he']
    exact ⟨.cons (.error (.lex he)) .nil, rfl, rfl⟩

/-- From a longer input, a parser that begins has more to come behind the same. -/
theorem exists_begun {source' : Source} {base? : Option Iri} {prefixes : PrefixMap}
    {more : Prospect} {position : Position}
    (hp : begin source options recover base? prefixes = .ok p)
    (hclosed : (Decoder.ofSource source options).prospect.ending = .ok position)
    (hlast : EndsInFeed (Decoder.ofSource source options).prospect.lookaheads)
    (h : (Decoder.ofSource source' options).prospect =
      ⟨(Decoder.ofSource source options).prospect.lookaheads ++ more.lookaheads, more.ending⟩) :
    EndsInFeed p.scanner.prospect.lookaheads ∧
      ∃ p' : Parser, p'.yield = readFrom source' options recover base? prefixes ∧
        p'.settings = p.settings ∧
        (Comparison.extending more.lookaheads more.ending).Parsers p p' := by
  have hbegun := begun_of_begin hp
  obtain ⟨hlast', hunmarked⟩ := Prospect.unmarked_append hlast more.lookaheads more.ending
  rw [← h, ← hbegun.prospect] at hunmarked
  rw [← hbegun.prospect] at hlast'
  refine ⟨hlast', ?_⟩
  -- The line feed is there to begin with, so that the longer input begins as well.
  have hsome : p.scanner.prospect.lookaheads ≠ [] := by
    obtain ⟨feed, hfeed, -⟩ := hlast'
    exact List.ne_nil_of_mem (List.mem_of_getLast? hfeed)
  cases hp' : begin source' options recover base? prefixes with
  | error e =>
    rw [unmarked_of_begin_error hp'] at hunmarked
    injection hunmarked with hnil
    exact absurd (List.append_eq_nil_iff.1 hnil.symm).1 hsome
  | ok p' =>
    have hbegun' := begun_of_begin hp'
    obtain ⟨hoptions, hrecover⟩ := Prod.mk.inj (hbegun.settings.trans hbegun'.settings.symm)
    have hextended : Scanner.Extended more.lookaheads more.ending p.scanner
        (p'.behind p.scanner.text p.scanner.start p.afterDot).scanner := by
      refine ⟨hbegun.metEnd fun hend => hsome ?_, ⟨position, ?_⟩, ?_⟩
      · rw [Scanner.prospect_of_atEnd hend]
      · rw [hbegun.prospect, (Prospect.endOf_unmarked _).ending, hclosed]
      · exact (Scanner.prospect_retext _ _ _).trans (hbegun'.prospect.trans hunmarked)
    exact ⟨p'.behind p.scanner.text p.scanner.start p.afterDot,
      by rw [yield_behind hbegun'.expected, readFrom, hp'],
      hbegun'.settings.trans hbegun.settings.symm, {
        scanner := ⟨hextended, rfl, rfl, congrArg Options.iri hoptions,
          congrArg (fun o : Options => Text.empty o.encoding) hoptions⟩
        base := hbegun.base.trans hbegun'.base.symm
        prefixes := hbegun.prefixes.trans hbegun'.prefixes.symm
        expected := hbegun.expected.trans hbegun'.expected.symm
        recover := hrecover
        afterDot := rfl }⟩

/-- Triples that are completed come first. -/
theorem Completes.yield {p' : Parser} {ts : List Triple} (h : Completes p ts p') :
    p.yield = ⟨ts.map .triple ++ p'.yield.items, p'.yield.base?, p'.yield.prefixes⟩ := by
  rw [Parser.yield, h.items, h.finish]
  rfl

/-- What moves lead to is reached. -/
theorem Completes.reached {p' : Parser} {ts : List Triple} (h : Completes p ts p') :
    p.Reached p' := by
  induction h with
  | done => exact .start
  | triple hm _ ih | onward hm _ ih => exact (Reached.move .start hm).trans ih

end Parser

section Sources

variable {a b c : Source} {first second : List UInt8} {ending : Ending} {options : Options}
variable {recover : Bool} {base? base₁? : Option Iri} {prefixes prefixes₁ : PrefixMap}
variable {ts : List Triple}

/-- What comes behind a document stands further down than the same read on its own, by as many lines
as the document has line ends. -/
theorem exists_alike_down {position : Position} (ha : a.Delivers first .closed)
    (hb : b.Delivers (first ++ second) ending) (hc : c.Delivers second ending)
    (hdecodes : (Decoder.ofSource a options).prospect.ending = .ok position)
    (hfeed : EndsInFeed (Decoder.ofSource a options).prospect.lookaheads) :
    ∃ more : Prospect,
      (Decoder.ofSource b options).prospect =
        ⟨(Decoder.ofSource a options).prospect.lookaheads ++ more.lookaheads, more.ending⟩ ∧
      (Decoder.ofSource c options).prospect.Alike
        (.down (lineEnds (Lookahead.codes (Decoder.ofSource a options).prospect.lookaheads)))
        more := by
  obtain ⟨e, hcontents, hending, hmode, hserves, hlocator, hprospect⟩ :=
    Decoder.exists_rest (ha.leads hb rfl options) hdecodes
  refine ⟨e.prospect, hprospect, ?_⟩
  refine Decoder.alike_prospect (Locator.tracks_down _) (fun _ => trivial) ?_
  obtain ⟨hcontents', hending', hserves'⟩ := hc.spec
  exact {
    contents := hcontents'.trans hcontents.symm
    ending := hending'.trans hending.symm
    locator := hlocator ▸ Locator.down_passAll hfeed.codes
    mode := hmode.symm
    left := ⟨options.capacity_pos, hserves'⟩
    right := hserves }

/-- **Documents compose at line ends between statements.** Take a document of which everything can
be decoded, which ends with a line feed and yields triples only, and any bytes after it that do not
begin with a byte order mark. Read as one they yield those triples, and then what comes of the bytes
with the declarations that the document has made, as many lines further down as the document has
line ends. The declarations at the end are the same. -/
theorem documents_compose [IriLibrary] {position : Position} (ha : a.Delivers first .closed)
    (hb : b.Delivers (first ++ second) ending) (hc : c.Delivers second ending)
    (hdecodes : (Decoder.ofSource a options).prospect.ending = .ok position)
    (hfeed : EndsInFeed (Decoder.ofSource a options).prospect.lookaheads)
    (hread : readFrom a options recover base? prefixes = ⟨ts.map .triple, base₁?, prefixes₁⟩)
    (hmark : ∀ l ∈ (Decoder.ofSource c options).prospect.lookaheads.head?,
      l.codePoint? ≠ some Parser.byteOrderMark) :
    readFrom b options recover base? prefixes =
      let rest := readFrom c options recover base₁? prefixes₁
      let lines := lineEnds (Lookahead.codes (Decoder.ofSource a options).prospect.lookaheads)
      ⟨ts.map .triple ++ rest.items.map (Item.down lines), rest.base?, rest.prefixes⟩ := by
  obtain ⟨more, hmore, halike⟩ := exists_alike_down ha hb hc hdecodes hfeed
  generalize lineEnds (Lookahead.codes (Decoder.ofSource a options).prospect.lookaheads) = lines
    at halike
  cases hp : Parser.begin a options recover base? prefixes with
  | error e =>
    rw [readFrom, hp] at hread
    injection hread with hitems
    cases ts <;> cases hitems
  | ok p =>
    rw [readFrom, hp] at hread
    replace hread : p.yield = ⟨ts.map .triple, base₁?, prefixes₁⟩ := hread
    obtain ⟨hlast, p', hyield, hsettings, hparsers⟩ :=
      Parser.exists_begun hp hdecodes hfeed hmore
    have hbegun := Parser.begun_of_begin hp
    -- Up to the end of its last statement the document is read as it is on its own.
    obtain ⟨q, q', hq, hq', hrest, hx, hfeed', position, hblank⟩ :=
      Parser.exists_completes hparsers hlast (by rw [hbegun.expected]; simp)
        (congrArg Yield.items hread)
    -- The document has declared what is known where its last blanks begin.
    have hended := hq.yield
    rw [Parser.yield_of_unblank_nil hx hblank, hread] at hended
    injection hended with _ hbase hprefixes
    -- A statement begins there, which is the first of what follows.
    have hbehind : q'.scanner.prospect.unblank = more.unblank := by
      rw [hrest.scanner.input.prospect, Prospect.unblank, Prospect.unblank]
      dsimp only
      rw [behindBlanks_append (Or.inl rfl) (congrArg Prospect.lookaheads hblank) hfeed']
    have hyields : (Likeness.down lines).Yields (readFrom c options recover base₁? prefixes₁)
        q'.yield := by
      rw [hbase, hprefixes, hrest.base, hrest.prefixes]
      refine Parser.yields_readFrom (fun _ => ⟨_, rfl⟩) rfl (hrest.expected ▸ hx) ?_ ?_
      · exact hq'.reached.settings.trans (hsettings.trans hbegun.settings)
      · rw [hbehind, Prospect.unmarked_of_head hmark]
        exact halike.unblank
    rw [← hyield, hq'.yield, Likeness.down_of_yields hyields]

end Sources

section

open scoped Iri.Standard

/-- A namespace that the first document declares is known in the second, whose error is reported two
lines further down. -/
theorem documents_compose_declared :
    readFrom (.memory ("@prefix a: <u:> .\r\na:s a a:o . # end\n".toUTF8.toList ++
        "a:s a .\n".toUTF8.toList)) {} true none .empty =
      ⟨[.triple ⟨.iri "u:s", .iri Vocabulary.rdfType, .iri "u:o"⟩,
        .error (.lex ⟨.unexpectedCharacter '\n', ⟨3, 8⟩⟩)], none,
        PrefixMap.empty.insert "a" "u:"⟩ := by
  have hread : readFrom (.memory "@prefix a: <u:> .\r\na:s a a:o . # end\n".toUTF8.toList) {} true
      none .empty = ⟨[⟨.iri "u:s", .iri Vocabulary.rdfType, .iri "u:o"⟩].map .triple, none,
        PrefixMap.empty.insert "a" "u:"⟩ := by
    decide +kernel
  have hrest : readFrom (.memory "a:s a .\n".toUTF8.toList) {} true none
      (PrefixMap.empty.insert "a" "u:") =
        ⟨[.error (.lex ⟨.unexpectedCharacter '\n', ⟨1, 8⟩⟩)], none,
          PrefixMap.empty.insert "a" "u:"⟩ := by
    decide +kernel
  have hlines : lineEnds (Lookahead.codes (Decoder.ofSource
      (.memory "@prefix a: <u:> .\r\na:s a a:o . # end\n".toUTF8.toList) {}).prospect.lookaheads) =
        2 := by
    decide +kernel
  have hfeed : EndsInFeed (Decoder.ofSource
      (.memory "@prefix a: <u:> .\r\na:s a a:o . # end\n".toUTF8.toList) {}).prospect.lookaheads :=
    ⟨⟨some '\n', ⟨2, 18⟩⟩, by decide +kernel, rfl⟩
  have hmark : ∀ l ∈ (Decoder.ofSource (.memory "a:s a .\n".toUTF8.toList)
      {}).prospect.lookaheads.head?, l.codePoint? ≠ some Parser.byteOrderMark := by
    decide +kernel
  have hdecodes : (Decoder.ofSource
      (.memory "@prefix a: <u:> .\r\na:s a a:o . # end\n".toUTF8.toList) {}).prospect.ending =
        .ok ⟨3, 1⟩ := by
    decide +kernel
  have h := documents_compose (.memory _) (.memory _) (.memory _) hdecodes hfeed hread hmark
  rw [h, hrest, hlines]
  rfl

end

end RdfTurtle
