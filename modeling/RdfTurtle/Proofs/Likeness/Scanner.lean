import RdfTurtle.Proofs.Comparison.Scanner

/-! # Likeness of scanners

Two scanners that are alike part by part, over decoders that decode alike, behave alike, whatever is
done with them.

* **`Likeness.Lawful`** — what the relations have to satisfy.
* **`Likeness.Scanners`** — alike scanners.
* **`Likeness.comparison`** — alike scanners correspond, and cannot part.
* **`Likeness.simulates_recognize`**, **`Likeness.simulates_advance`**,
  **`Likeness.simulates_accumulate`**, **`Likeness.scanners_clear`** — alike scanners stay alike
  under each operation, which gives alike results. -/

namespace RdfTurtle.Likeness

variable {k : Likeness}

/-- Alike decoders decode alike, and texts stay alike when they grow. -/
structure Lawful (k : Likeness) : Prop where
  next : Simulates Eq k.Decoders k.Lookaheads Decoder.next Decoder.next
  position : ∀ ⦃d d'⦄, k.Decoders d d' → k.Positions d.locator.position d'.locator.position
  total : ∀ p, ∃ p', k.Positions p p'
  push : ∀ ⦃t t' c⦄, k.Texts t t' → k.Admits c → k.Texts (t.push c) (t'.push c)
  chars : ∀ ⦃t t'⦄, k.Texts t t' → t.chars = t'.chars

/-- Alike scanners, which check IRI references alike and begin texts alike. -/
structure Scanners (k : Likeness) (s s' : Scanner) : Prop where
  decoder : k.Decoders s.decoder s'.decoder
  current : k.Lookaheads s.current s'.current
  putBack : List.Forall₂ k.Lookaheads s.putBack s'.putBack
  text : k.Texts s.text s'.text
  start : k.Positions s.start s'.start
  iri : s.options.iri = s'.options.iri
  empty : k.Texts (.empty s.options.encoding) (.empty s'.options.encoding)

/-- Scanners over alike decoders are alike, or their first code points fail to decode alike. -/
theorem matching_ofSource (hk : k.Lawful) {source source' : Source} {options options' : Options}
    (h : k.Decoders (.ofSource source options) (.ofSource source' options'))
    (hiri : options.iri = options'.iri)
    (hempty : k.Texts (.empty options.encoding) (.empty options'.encoding)) :
    Matching k.LexErrors k.Scanners (Scanner.ofSource source options)
      (Scanner.ofSource source' options') := by
  have hnext := hk.next h
  unfold Scanner.ofSource
  cases hn : (Decoder.ofSource source options).next with
  | ok current decoder =>
    rw [hn] at hnext
    obtain ⟨current', decoder', hn', hcurrent, hdecoder⟩ := hnext.of_ok
    simp only [hn']
    exact .ok ⟨hdecoder, hcurrent, .nil, hempty, hcurrent.position, hiri, hempty⟩
  | error fault decoder =>
    rw [hn] at hnext
    obtain ⟨fault', decoder', hn', hfault, hdecoder⟩ := hnext.of_error
    simp only [hn']
    exact .error ⟨hfault, hk.position hdecoder⟩

/-! ## Inputs that are alike part by part -/

/-- Alike inputs: what is held, and what is to be decoded. -/
structure Inputs (k : Likeness) (s s' : Scanner) : Prop where
  decoder : k.Decoders s.decoder s'.decoder
  current : k.Lookaheads s.current s'.current
  putBack : List.Forall₂ k.Lookaheads s.putBack s'.putBack

/-- Inputs stay alike when alike lookaheads are given back. -/
theorem Inputs.giveBack {s s' : Scanner} {ls ls' : List Lookahead} (h : k.Inputs s s')
    (hls : List.Forall₂ k.Lookaheads ls ls') : k.Inputs (s.giveBack ls) (s'.giveBack ls') := by
  cases hls with
  | nil => exact h
  | cons hfirst hrest =>
    exact { h with
      current := hfirst
      putBack := List.rel_append hrest (.cons h.current h.putBack) }

/-- A step that takes back what is held is alike, whatever is to be decoded. -/
theorem Inputs.step_of_cons {s s' : Scanner} {first : Lookahead} {rest : List Lookahead}
    (h : k.Inputs s s') (hp : s.putBack = first :: rest) :
    Alike k.LexErrors k.Inputs Eq s.step s'.step := by
  have hput := h.putBack
  rw [hp] at hput
  obtain ⟨first', rest', hfirst, hrest, hp'⟩ := List.forall₂_cons_left_iff.1 hput
  rw [Scanner.step_of_putBack hp, Scanner.step_of_putBack hp']
  exact .ok rfl { h with current := hfirst, putBack := hrest }

/-- A step that decodes is alike when decoding is. -/
theorem Inputs.step_of_nil {s s' : Scanner} (h : k.Inputs s s') (hp : s.putBack = [])
    (hposition : ∀ ⦃d d'⦄, k.Decoders d d' → k.Positions d.locator.position d'.locator.position)
    (hnext : Alike Eq k.Decoders k.Lookaheads s.decoder.next s'.decoder.next) :
    Alike k.LexErrors k.Inputs Eq s.step s'.step := by
  have hput := h.putBack
  rw [hp] at hput
  have hp' := List.forall₂_nil_left_iff.1 hput
  cases hn : s.decoder.next with
  | ok current decoder =>
    rw [hn] at hnext
    obtain ⟨current', decoder', hn', hcurrent, hdecoder⟩ := hnext.of_ok
    rw [Scanner.step_of_next hp hn, Scanner.step_of_next hp' hn']
    exact .ok rfl { decoder := hdecoder, current := hcurrent, putBack := h.putBack }
  | error fault decoder =>
    rw [hn] at hnext
    obtain ⟨fault', decoder', hn', hfault, hdecoder⟩ := hnext.of_error
    rw [Scanner.step_of_next_error hp hn, Scanner.step_of_next_error hp' hn']
    exact .error ⟨hfault, hposition hdecoder⟩
      { decoder := hdecoder
        current := ⟨rfl, hposition hdecoder, fun c hc => by cases hc⟩
        putBack := h.putBack }

/-- **Alike scanners correspond, and cannot part.** -/
def comparison (k : Likeness) (hk : k.Lawful) : Comparison where
  toLikeness := k
  Inputs := k.Inputs
  Parts := fun _ => False
  Recoveries := Eq
  total := hk.total
  push := hk.push
  chars := hk.chars
  onward := Parting.never
  current _ _ h := h.current
  retext _ _ h _ _ _ _ := ⟨h.decoder, h.current, h.putBack⟩
  giveBack _ _ _ _ h hls _ := h.giveBack hls
  step s _ h _ := Or.inl <| by
    cases hp : s.putBack with
    | cons first rest => exact h.step_of_cons hp
    | nil => exact h.step_of_nil hp hk.position (hk.next h.decoder)

/-- Alike scanners are those that correspond. -/
theorem scanners_iff (hk : k.Lawful) {s s' : Scanner} :
    k.Scanners s s' ↔ (k.comparison hk).Scanners s s' :=
  ⟨fun h => ⟨⟨h.decoder, h.current, h.putBack⟩, h.text, h.start, h.iri, h.empty⟩, fun h =>
    ⟨h.input.decoder, h.input.current, h.input.putBack, h.text, h.start, h.iri, h.empty⟩⟩

/-- What corresponding scanners do alike is done alike by alike scanners. -/
theorem simulates_of_follows {α : Type} {V : α → α → Prop} (hk : k.Lawful)
    {x x' : EStateM LexError Scanner α}
    (h : ∀ ⦃s s'⦄, (k.comparison hk).Scanners s s' → AlikeUnless (k.comparison hk).scanning
      k.LexErrors (k.comparison hk).Scanners V (x s) (x' s')) :
    Simulates k.LexErrors k.Scanners V x x' := by
  intro s s' hs
  have halike := (h ((scanners_iff hk).1 hs)).resolve fun _ => id
  cases hx : x s with
  | ok a t =>
    rw [hx] at halike
    obtain ⟨a', t', hx', ha, ht⟩ := halike.of_ok
    rw [hx']
    exact .ok ha ((scanners_iff hk).2 ht)
  | error e t =>
    rw [hx] at halike
    obtain ⟨e', t', hx', he, ht⟩ := halike.of_error
    rw [hx']
    exact .error he ((scanners_iff hk).2 ht)

/-! ## Operations -/

/-- Alike scanners stay alike when the text of a token is cleared. -/
theorem scanners_clear {s s' : Scanner} (h : k.Scanners s s') : k.Scanners s.clear s'.clear :=
  { h with text := h.empty, start := h.current.position }

/-- Alike scanners read alike tokens, or fail alike. -/
theorem simulates_recognize (hk : k.Lawful) (r : Recognizer) :
    Simulates k.LexErrors k.Scanners k.Lexemes (Scanner.recognize r) (Scanner.recognize r) :=
  simulates_of_follows hk (Comparison.follows_recognize r).alike

/-- Alike scanners pass over a code point alike. -/
theorem simulates_advance (hk : k.Lawful) :
    Simulates k.LexErrors k.Scanners Eq Scanner.advance Scanner.advance :=
  simulates_of_follows hk fun _ _ => Comparison.alike_advance

/-- They accumulate a code point alike. -/
theorem simulates_accumulate (hk : k.Lawful) :
    Simulates k.LexErrors k.Scanners Eq Scanner.accumulate Scanner.accumulate :=
  simulates_of_follows hk fun _ _ => Comparison.alike_accumulate

end RdfTurtle.Likeness
