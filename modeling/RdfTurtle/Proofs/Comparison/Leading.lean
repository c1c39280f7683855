import RdfTurtle.Proofs.Transparency

/-! # Comparing an input with a longer one

Two sources deliver the same bytes, and there the first one ends. The second goes on with more
bytes, or breaks. Scanners and parsers over them do the same up to where the end shows.

* **`Decoder.Leads`** — decoders of which the first ends where the second goes on.
* **`Decoder.ahead_next`** — they decode the same, unless the first is at its end.
* **`Comparison.leading`** — scanners over them correspond, and part at the end of the first.
* **`Comparison.parsers_of_create`** — parsers created over them correspond. -/

namespace RdfTurtle

variable {rest : List UInt8} {ending : Ending}

namespace Decoder

/-- The first decoder has bytes to come and then the end. The second has the same bytes to come,
then `rest`, and then `ending`. -/
structure Leads (rest : List UInt8) (ending : Ending) (d d' : Decoder) : Prop where
  contents : d'.contents = d.contents ++ rest
  closed : d.source.ending = .closed
  ending : d'.source.ending = ending
  locator : d.locator = d'.locator
  mode : d.mode = d'.mode
  left : d.Serves
  right : d'.Serves

end Decoder

/-- Everything that is seen is equal, and the first decoder leads. -/
def Likeness.leads (rest : List UInt8) (ending : Ending) : Likeness where
  Positions := Eq
  Texts := Eq
  Decoders := Decoder.Leads rest ending
  Admits := fun _ => True

namespace Decoder

/-- What the second decoder fails with where the first is at its end: with the source, if it is
broken there. Otherwise nothing is known. -/
def Beyond (rest : List UInt8) (ending : Ending) (fault? : Option LexFault) : Prop :=
  ∀ text, rest = [] → ending = .broken text → fault? = some (.source text)

/-- If it may do without a failure, anything may come. -/
theorem Beyond.onward (h : Beyond rest ending none) (fault? : Option LexFault) :
    Beyond rest ending fault? := fun text hrest hending => by cases h text hrest hending

/-- Two outcomes are alike, or the first is a failure at its end. -/
def Ahead {α : Type} (rest : List UInt8) (ending : Ending) (V : α → α → Prop)
    (r r' : EStateM.Result LexFault Decoder α) : Prop :=
  Alike Eq (Leads rest ending) V r r' ∨
    (∃ fault d, r = .error fault d) ∧ Beyond rest ending (fault? r')

section Ahead

variable {α β : Type} {V : α → α → Prop} {W : β → β → Prop} {d d' : Decoder}

/-- What follows outcomes that are alike, or of which the first has come to its end, is so too. -/
theorem Ahead.bind {x x' : EStateM LexFault Decoder α} {f f' : α → EStateM LexFault Decoder β}
    (hx : Ahead rest ending V (x d) (x' d'))
    (hf : ∀ ⦃a a' e e'⦄, V a a' → Leads rest ending e e' →
      Ahead rest ending W (f a e) (f' a' e')) :
    Ahead rest ending W ((x >>= f) d) ((x' >>= f') d') := by
  simp only [Bind.bind, EStateM.bind]
  rcases hx with hx | ⟨⟨fault, e, hx⟩, hbeyond⟩
  · cases h : x d with
    | ok a e =>
      rw [h] at hx
      obtain ⟨a', e', h', hv, he⟩ := hx.of_ok
      rw [h']
      exact hf hv he
    | error fault e =>
      rw [h] at hx
      obtain ⟨fault', e', h', hfault, he⟩ := hx.of_error
      rw [h']
      exact Or.inl (.error hfault he)
  · rw [hx]
    refine Or.inr ⟨⟨fault, e, rfl⟩, ?_⟩
    cases h' : x' d' with
    | ok a' e' =>
      rw [h'] at hbeyond
      exact hbeyond.onward _
    | error fault' e' =>
      rw [h'] at hbeyond
      exact hbeyond

/-- A value is given alike. -/
theorem ahead_pure {a : α} (hv : V a a) (h : Leads rest ending d d') :
    Ahead rest ending V ((pure a : EStateM LexFault Decoder α) d)
      ((pure a : EStateM LexFault Decoder α) d') :=
  Or.inl (.ok hv h)

/-- Both decoders give the same byte, or the first has none left. -/
theorem nextByte_of_leads (h : Leads rest ending d d') :
    (∃ byte e e', nextByte d = .ok (some byte) e ∧ nextByte d' = .ok (some byte) e' ∧
        Leads rest ending e e') ∨
      (∃ e, nextByte d = .ok none e) ∧ Beyond rest ending (fault? (nextByte d')) := by
  cases hc : d.contents with
  | cons byte bytes =>
    have hc' : d'.contents = byte :: (bytes ++ rest) := by
      rw [h.contents, hc]
      rfl
    obtain ⟨e, hn, hbytes, hk⟩ := nextByte_of_cons h.left hc
    obtain ⟨e', hn', hbytes', hk'⟩ := nextByte_of_cons h.right hc'
    refine Or.inl ⟨byte, e, e', hn, hn', ?_⟩
    exact {
      contents := by rw [hbytes', hbytes]
      closed := hk.ending.trans h.closed
      ending := hk'.ending.trans h.ending
      locator := by rw [hk.locator, hk'.locator, h.locator]
      mode := by rw [hk.mode, hk'.mode, h.mode]
      left := hk.serves
      right := hk'.serves }
  | nil =>
    obtain ⟨e, hn, -, -⟩ := nextByte_of_closed h.left hc h.closed
    refine Or.inr ⟨⟨e, hn⟩, fun text hrest hending => ?_⟩
    have hc' : d'.contents = [] := by rw [h.contents, hc, hrest]; rfl
    obtain ⟨e', hn', -, -⟩ := nextByte_of_broken h.right hc' (h.ending.trans hending)
    rw [hn']
    rfl

/-- What begins with a byte is alike, unless the first decoder has none left. -/
theorem ahead_of_nextByte {f : Option UInt8 → EStateM LexFault Decoder β}
    (hnone : ∀ e, ∃ fault e', f none e = .error fault e')
    (hsome : ∀ ⦃byte e e'⦄, Leads rest ending e e' →
      Ahead rest ending W (f (some byte) e) (f (some byte) e')) (h : Leads rest ending d d') :
    Ahead rest ending W ((nextByte >>= f) d) ((nextByte >>= f) d') := by
  simp only [Bind.bind, EStateM.bind]
  rcases nextByte_of_leads h with ⟨byte, e, e', hn, hn', he⟩ | ⟨⟨e, hn⟩, hbeyond⟩
  · rw [hn, hn']
    exact hsome he
  · obtain ⟨fault, e', hfault⟩ := hnone e
    rw [hn]
    refine Or.inr ⟨⟨fault, e', hfault⟩, ?_⟩
    cases hn' : nextByte d' with
    | ok byte? e' =>
      rw [hn'] at hbeyond
      exact hbeyond.onward _
    | error fault' e' =>
      rw [hn'] at hbeyond
      exact hbeyond

/-- Further bytes are read alike, or the first decoder comes to its end among them. -/
theorem ahead_further (n : Nat) (h : Leads rest ending d d') :
    Ahead rest ending Eq (further n d) (further n d') := by
  induction n generalizing d d' with
  | zero => exact ahead_pure rfl h
  | succ n ih =>
    refine ahead_of_nextByte (fun e => ⟨_, e, rfl⟩) (fun byte e e' he => ?_) h
    apply (ih he).bind
    rintro bytes _ _ _ rfl he
    exact ahead_pure rfl he

/-- So is a group of bytes. -/
theorem ahead_group (mode : Strictness) (lead : UInt8) (h : Leads rest ending d d') :
    Ahead rest ending Eq (group mode lead d) (group mode lead d') := by
  cases mode with
  | permissive =>
    apply (ahead_further _ h).bind
    rintro bytes _ _ _ rfl he
    exact ahead_pure rfl he
  | strict =>
    by_cases hlead : Utf8.isLead lead
    · rw [group, if_pos hlead]
      apply (ahead_further _ h).bind
      rintro bytes _ _ _ rfl he
      cases Utf8.scalar? lead bytes with
      | some x => exact ahead_pure rfl he
      | none => exact Or.inl (.error rfl he)
    · rw [group, if_neg hlead]
      exact Or.inl (.error rfl h)

/-- Decoders of which one leads decode the same, unless the first fails or gives the end: then the
second is beyond it. -/
theorem ahead_next (h : Leads rest ending d d') :
    Alike Eq (Leads rest ending) (Likeness.leads rest ending).Lookaheads d.next d'.next ∨
      ((∃ fault e, d.next = .error fault e) ∨ ∃ p e, d.next = .ok ⟨none, p⟩ e) ∧
        Beyond rest ending (fault? d'.next) := by
  rcases nextByte_of_leads h with ⟨lead, e, e', hn, hn', he⟩ | ⟨⟨e, hn⟩, hbeyond⟩
  · have hrest : Ahead rest ending (Likeness.leads rest ending).Lookaheads
        ((group e.mode lead >>= pass) e) ((group e'.mode lead >>= pass) e') := by
      rw [he.mode]
      apply (ahead_group e'.mode lead he).bind
      rintro c _ t t' rfl ht
      refine Or.inl (.ok ⟨rfl, congrArg Locator.position ht.locator, fun _ _ => trivial⟩ ?_)
      exact { ht with locator := congrArg (Locator.pass · c) ht.locator }
    have hnext {d e : Decoder} (hn : nextByte d = .ok (some lead) e) :
        d.next = (group e.mode lead >>= pass) e := by
      simp only [next, bind, EStateM.bind, hn]
      rfl
    rw [hnext hn, hnext hn']
    exact hrest.imp_right (And.imp_left Or.inl)
  -- The first is at its end, and the second is beyond it with whatever it reads.
  · refine Or.inr ⟨Or.inr ⟨e.locator.position, e, ?_⟩, ?_⟩
    · simp only [next, bind, EStateM.bind, hn]
      rfl
    · simp only [next, bind, EStateM.bind]
      cases hn' : nextByte d' with
      | ok byte? e' =>
        rw [hn'] at hbeyond
        exact hbeyond.onward _
      | error fault e' =>
        rw [hn'] at hbeyond
        exact hbeyond

end Ahead

end Decoder

/-! ## Scanners -/

namespace Comparison

/-- What the second parser fails with where the first is at its end. -/
def Parted (rest : List UInt8) (ending : Ending) (e? : Option DocumentError) : Prop :=
  ∀ text, rest = [] → ending = .broken text → ∃ p, e? = some (.lex ⟨.source text, p⟩)

/-- A scanner that gets no code point is spent, and one that gets what is beyond fails with it. -/
theorem parted_step {s s' : Scanner} (hp : s.putBack = []) (hp' : s'.putBack = [])
    (h : (∃ fault e, s.decoder.next = .error fault e) ∨ ∃ p e, s.decoder.next = .ok ⟨none, p⟩ e)
    (hbeyond : Decoder.Beyond rest ending (fault? s'.decoder.next)) :
    (finalState s.step).Spent ∧ Parted rest ending ((fault? s'.step).map .lex) := by
  constructor
  · rcases h with ⟨fault, e, hn⟩ | ⟨p, e, hn⟩
    · rw [Scanner.step_of_next_error hp hn]
      exact Scanner.spent_of_atEnd hp rfl
    · rw [Scanner.step_of_next hp hn]
      exact Scanner.spent_of_atEnd hp rfl
  · intro text hrest hending
    have hfault := hbeyond text hrest hending
    cases hn : s'.decoder.next with
    | ok l e =>
      rw [hn] at hfault
      cases hfault
    | error fault e =>
      rw [hn] at hfault
      injection hfault with hfault
      exact ⟨e.locator.position, by rw [Scanner.step_of_next_error hp' hn, hfault]; rfl⟩

/-- **Scanners of which the first leads correspond, and part at the end of the first.** -/
def leading (rest : List UInt8) (ending : Ending) : Comparison where
  toLikeness := .leads rest ending
  Inputs := (Likeness.leads rest ending).Inputs
  Parts := Parted rest ending
  Recoveries := Eq
  total p := ⟨p, rfl⟩
  push _ _ c h _ := congrArg (Text.push · c) h
  chars _ _ h := congrArg Text.chars h
  onward h e? text hrest hending := by
    obtain ⟨p, hp⟩ := h text hrest hending
    cases hp
  current _ _ h := h.current
  retext _ _ h _ _ _ _ := ⟨h.decoder, h.current, h.putBack⟩
  giveBack _ _ _ _ h hls _ := h.giveBack hls
  step s s' h _ := by
    cases hp : s.putBack with
    | cons first held => exact Or.inl (h.step_of_cons hp)
    | nil =>
      have hput := h.putBack
      rw [hp] at hput
      have hp' := List.forall₂_nil_left_iff.1 hput
      rcases Decoder.ahead_next h.decoder with hnext | ⟨hnone, hbeyond⟩
      · exact Or.inl (h.step_of_nil hp (fun _ _ hd => congrArg Locator.position hd.locator) hnext)
      · exact Or.inr (parted_step hp hp' hnone hbeyond)

/-! ## The start of a document -/

end Comparison

/-- A source leads one that goes on with more bytes, or breaks. -/
theorem Source.Delivers.leads {a b : Source} {bytes bytes' : List UInt8}
    (ha : a.Delivers bytes .closed) (hb : b.Delivers bytes' ending)
    (hbytes : bytes' = bytes ++ rest) (options : Options) :
    Decoder.Leads rest ending (.ofSource a options) (.ofSource b options) := by
  obtain ⟨hcontents, hending, hserves⟩ := ha.spec
  obtain ⟨hcontents', hending', hserves'⟩ := hb.spec
  have hall : b.contents = a.contents ++ rest := by rw [hcontents', hcontents, hbytes]
  exact {
    contents := hall
    closed := hending
    ending := hending'
    locator := rfl
    mode := rfl
    left := ⟨options.capacity_pos, hserves⟩
    right := ⟨options.capacity_pos, hserves'⟩ }

namespace Comparison

variable {source source' : Source} {options : Options} {s s' : Scanner}

/-- Scanners over such inputs correspond if they hold the same otherwise. -/
theorem scanners_leading (h : (Likeness.leads rest ending).Inputs s s') (htext : s.text = s'.text)
    (hstart : s.start = s'.start) (hoptions : s.options = s'.options) :
    (leading rest ending).Scanners s s' :=
  ⟨h, htext, hstart, congrArg Options.iri hoptions,
    congrArg (fun o : Options => Text.empty o.encoding) hoptions⟩

/-- Where the first scanner begins at its end the second begins only if nothing breaks there. -/
theorem scanners_ofSource
    (h : Decoder.Leads rest ending (.ofSource source options) (.ofSource source' options))
    (hs : Scanner.ofSource source options = .ok s)
    (hs' : Scanner.ofSource source' options = .ok s') :
    (leading rest ending).Scanners s s' ∨ s.Spent ∧ Parted rest ending none := by
  have hnext := Decoder.ahead_next h
  obtain ⟨current, decoder, hn, rfl⟩ := Scanner.of_ofSource_ok hs
  obtain ⟨current', decoder', hn', rfl⟩ := Scanner.of_ofSource_ok hs'
  rw [hn, hn'] at hnext
  rcases hnext with hnext | ⟨hnone, hbeyond⟩
  · cases hnext with
    | ok hcurrent hdecoder =>
      exact Or.inl (scanners_leading ⟨hdecoder, hcurrent, .nil⟩ rfl hcurrent.position rfl)
  · refine Or.inr ⟨?_, fun text hrest hending => by cases hbeyond text hrest hending⟩
    rcases hnone with ⟨_, _, hnone⟩ | ⟨_, _, hnone⟩
    · cases hnone
    · injection hnone with hnone _
      exact Scanner.spent_of_atEnd rfl (by rw [Scanner.atEnd, hnone]; rfl)

/-- Passing over a byte order mark leads to corresponding scanners, unless the first comes to its
end with it. -/
theorem scanners_skipMark {t t' : Scanner} (h : (leading rest ending).Scanners s s')
    (ht : Parser.skipMark s = .ok t) (ht' : Parser.skipMark s' = .ok t') :
    (leading rest ending).Scanners t t' ∨ t.Spent ∧ Parted rest ending none := by
  have hcode := ((leading rest ending).current h.input).codePoint
  rcases Parser.of_skipMark_ok ht with ⟨hmark, rfl⟩ | ⟨hmark, hend, hstep⟩
  · rcases Parser.of_skipMark_ok ht' with ⟨-, rfl⟩ | ⟨hmark', -⟩
    · exact Or.inl h
    · exact absurd (hcode.trans hmark') hmark
  · rcases Parser.of_skipMark_ok ht' with ⟨hmark', -⟩ | ⟨-, -, hstep'⟩
    · exact absurd (hcode.symm.trans hmark) hmark'
    · have hsteps := alike_step h hend
      rw [hstep, hstep'] at hsteps
      refine hsteps.imp_left fun hsteps => ?_
      cases hsteps with
      | ok _ hscanners => exact hscanners

/-- A spent scanner stays spent where a byte order mark is looked for. -/
theorem spent_skipMark {t : Scanner} (h : s.Spent) (ht : Parser.skipMark s = .ok t) : t.Spent := by
  rcases Parser.of_skipMark_ok ht with ⟨-, rfl⟩ | ⟨-, hend, hstep⟩
  · exact h
  · have hspent := h.step hend
    rwa [hstep, finalState_ok] at hspent

variable [IriLibrary]

/-- **Parsers created over two sources of which one leads correspond**, unless the first has come to
its end already. -/
theorem parsers_of_create {options : ParserOptions} {p p' : Parser}
    (h : Decoder.Leads rest ending (.ofSource source options.scanner)
      (.ofSource source' options.scanner))
    (hp : Parser.create source options = .ok p) (hp' : Parser.create source' options = .ok p') :
    (leading rest ending).Parsers p p' ∨ p.scanner.Spent ∧ Parted rest ending none := by
  obtain ⟨t, base?, ht, hbase, rfl⟩ := Parser.exists_of_create hp
  obtain ⟨t', base?', ht', hbase', rfl⟩ := Parser.exists_of_create hp'
  obtain rfl : base? = base?' := by
    rw [hbase] at hbase'
    injection hbase'
  obtain ⟨s, hs, ht⟩ := Parser.of_begin_ok ht
  obtain ⟨s', hs', ht'⟩ := Parser.of_begin_ok ht'
  rcases scanners_ofSource h hs hs' with hscanners | ⟨hspent, hparted⟩
  · refine (scanners_skipMark hscanners ht ht').imp_left fun hscanners => ?_
    exact ⟨hscanners, rfl, rfl, rfl, rfl, rfl⟩
  · exact Or.inr ⟨spent_skipMark hspent ht, hparted⟩

end Comparison

end RdfTurtle
