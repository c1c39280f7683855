import RdfTurtle.Proofs.Delivery
import RdfTurtle.Proofs.Encodings
import RdfTurtle.Scanner

/-! # What is still to come

As long as nothing fails to decode, all that matters of a decoder and of a scanner is the list of
code points that are still to come.

* **`Decoder.Yields`** — a decoder that decodes given code points and then reaches the end.
* **`Decoder.yields_of_text`** — a decoder over the bytes of a text decodes the text.
* **`Scanner.Awaits`** — a scanner before given code points and the end.
* **`Scanner.awaits_ofSource`** — a scanner over the bytes of a text.
* **`Scanner.Awaits.giveBack`** — what is given back comes first. -/

namespace RdfTurtle

/-- The code points of a text. -/
def codes (text : List Char) : List CodePoint := text.map CodePoint.ofChar

@[simp] theorem codes_nil : codes [] = [] := rfl

/-- The first character has the first code point. -/
@[simp] theorem codes_cons (x : Char) (text : List Char) :
    codes (x :: text) = (x : CodePoint) :: codes text := rfl

/-- Texts in sequence have their code points in sequence. -/
@[simp] theorem codes_append (text more : List Char) :
    codes (text ++ more) = codes text ++ codes more := List.map_append

/-! ## Decoders -/

namespace Decoder

/-- The decoder decodes the code points and then reaches the end of input. -/
def Yields : Decoder → List CodePoint → Prop
  | d, [] => ∃ p d', d.next = .ok ⟨none, p⟩ d'
  | d, c :: cs => ∃ p d', d.next = .ok ⟨some c, p⟩ d' ∧ d'.Yields cs

/-- The bytes at the front are the further bytes of a group. -/
theorem further_of_append {d : Decoder} {bytes rest : List UInt8} (hd : d.Serves)
    (h : d.contents = bytes ++ rest) :
    ∃ d', further bytes.length d = .ok bytes d' ∧ d'.contents = rest ∧ d.Continues d' := by
  induction bytes generalizing d with
  | nil => exact ⟨d, rfl, h, rfl, rfl, rfl, hd⟩
  | cons byte bytes ih =>
    obtain ⟨d₁, h₁, hc₁, hk₁⟩ := nextByte_of_cons hd h
    obtain ⟨d₂, h₂, hc₂, hk₂⟩ := ih hk₁.serves hc₁
    have hfurther : further (bytes.length + 1) d = .ok (byte :: bytes) d₂ := by
      simp only [further, bind, EStateM.bind, h₁, h₂]
      rfl
    exact ⟨d₂, hfurther, hc₂, hk₂.ending.trans hk₁.ending, hk₂.locator.trans hk₁.locator,
      hk₂.mode.trans hk₁.mode, hk₂.serves⟩

/-- The further bytes of a group are the first of the contents, as many as were asked for. -/
theorem contents_of_further {d d' : Decoder} {n : Nat} {bytes : List UInt8}
    (h : further n d = .ok bytes d') :
    d.contents = bytes ++ d'.contents ∧ bytes.length = n := by
  induction n generalizing d d' bytes with
  | zero =>
    injection h with hbytes hd
    rw [← hbytes, hd]
    exact ⟨rfl, rfl⟩
  | succ n ih =>
    obtain ⟨byte?, d₁, hbyte, h⟩ := ok_of_bind h
    cases byte? with
    | none => cases h
    | some byte =>
      obtain ⟨rest, d₂, hrest, h⟩ := ok_of_bind h
      injection h with hbytes hd
      obtain ⟨hsplit, hlength⟩ := ih hrest
      rw [← hbytes, ← hd, contents_of_nextByte hbyte, hsplit, List.length_cons, hlength]
      exact ⟨rfl, rfl⟩

/-- Where the bytes of a character come, its group is read or the input ends in it, in each mode. -/
theorem group_of_text {d : Decoder} {lead : UInt8} {bytes rest : List UInt8} {x : Char}
    (hx : Utf8.Encodes lead bytes x) (h : d.contents = bytes ++ rest) (mode : Strictness) :
    group mode lead d = match further (Utf8.furtherBytes lead) d with
      | .ok _ d' => .ok x d'
      | .error fault d' => .error fault d' := by
  cases hfurther : further (Utf8.furtherBytes lead) d with
  | error fault d' =>
    cases mode with
    | permissive => simp only [group, bind, EStateM.bind, hfurther]
    | strict => simp only [group, hx.announces, if_true, bind, EStateM.bind, hfurther]
  | ok read d' =>
    obtain ⟨hsplit, hlength⟩ := contents_of_further hfurther
    obtain ⟨rfl, -⟩ := List.append_inj (hsplit.symm.trans h) (hlength.trans hx.length)
    cases mode with
    | permissive =>
      simp only [group, bind, EStateM.bind, hfurther, hx.value]
      rfl
    | strict =>
      simp only [group, hx.announces, if_true, bind, EStateM.bind, hfurther, hx.wellFormed]
      rfl

/-- A group that encodes a character is decoded to it, whatever is checked. -/
theorem group_of_encodes {d : Decoder} {lead : UInt8} {bytes rest : List UInt8} {x : Char}
    (mode : Strictness) (hd : d.Serves) (hx : Utf8.Encodes lead bytes x)
    (h : d.contents = bytes ++ rest) :
    ∃ d', group mode lead d = .ok x d' ∧ d'.contents = rest ∧ d.Continues d' := by
  obtain ⟨d', hfurther, hrest, hk⟩ := further_of_append hd h
  rw [← hx.length] at hfurther
  refine ⟨d', ?_, hrest, hk⟩
  rw [group_of_text hx h, hfurther]

/-- The first character of a text comes next. -/
theorem next_of_cons {d : Decoder} {x : Char} {rest : List UInt8} (hd : d.Serves)
    (h : d.contents = String.utf8EncodeChar x ++ rest) :
    ∃ d', d.next = .ok ⟨some x, d.locator.position⟩ d' ∧ d'.contents = rest ∧ d'.Serves ∧
      d'.source.ending = d.source.ending := by
  obtain ⟨lead, bytes, hbytes, hx⟩ := Utf8.encodes_utf8EncodeChar x
  rw [hbytes, List.cons_append] at h
  obtain ⟨d₁, h₁, hc₁, hk₁⟩ := nextByte_of_cons hd h
  obtain ⟨d₂, h₂, hc₂, hk₂⟩ := group_of_encodes d₁.mode hk₁.serves hx hc₁
  have hnext : d.next = .ok ⟨some x, d₂.locator.position⟩
      { d₂ with locator := d₂.locator.pass x } := by
    simp only [next, bind, EStateM.bind, h₁]
    simp only [get_apply, h₂]
    rfl
  rw [hk₂.locator, hk₁.locator] at hnext
  exact ⟨_, hnext, hc₂, hk₂.serves, hk₂.ending.trans hk₁.ending⟩

/-- A decoder over the bytes of a text decodes the text. -/
theorem yields_of_text {d : Decoder} {text : List Char} (hd : d.Serves)
    (h : d.contents = text.flatMap String.utf8EncodeChar) (he : d.source.ending = .closed) :
    d.Yields (codes text) := by
  induction text generalizing d with
  | nil =>
    obtain ⟨d', hn⟩ := next_of_closed hd h he
    exact ⟨_, d', hn⟩
  | cons x text ih =>
    rw [List.flatMap_cons] at h
    obtain ⟨d', hn, hc, hs, he'⟩ := next_of_cons hd h
    exact ⟨_, d', hn, ih hs hc (he'.trans he)⟩

/-- A source that delivers a text is decoded to it. -/
theorem yields_ofSource {source : Source} {text : List Char}
    (h : source.Delivers (String.ofList text).toUTF8.toList .closed) (options : Options) :
    (ofSource source options).Yields (codes text) := by
  obtain ⟨hcontents, hending, hserves⟩ := h.spec
  have hd : (ofSource source options).Serves := ⟨options.capacity_pos, hserves⟩
  refine yields_of_text hd ?_ hending
  rw [contents, ofSource, List.nil_append, hcontents, Utf8.toList_toUTF8]

end Decoder

/-! ## Scanners -/

namespace Scanner

/-- The scanner stands before the code points and then the end of input, and nothing fails to
decode up to there. -/
def Awaits : Scanner → List CodePoint → Prop
  | s, [] => s.current.codePoint? = none
  | s, c :: cs => s.current.codePoint? = some c ∧ ∃ s', step s = .ok () s' ∧ s'.Awaits cs

/-- The first of the code points is current. -/
theorem Awaits.codePoint? {s : Scanner} {cs : List CodePoint} (h : s.Awaits cs) :
    s.current.codePoint? = cs.head? := by
  cases cs with
  | nil => exact h
  | cons c cs => exact h.1

/-- The input has ended exactly when nothing is to come. -/
theorem Awaits.atEnd {s : Scanner} {cs : List CodePoint} (h : s.Awaits cs) :
    s.atEnd = cs.isEmpty := by
  rw [Scanner.atEnd, h.codePoint?]
  cases cs <;> rfl

/-- `s'` is `s` further on in the token, which `kept` was added to. -/
structure Extends (s s' : Scanner) (kept : List CodePoint) : Prop where
  text : s'.text = s.text.append kept
  start : s'.start = s.start
  options : s'.options = s.options

/-- What is added to a token later comes behind what was added before. -/
theorem Extends.trans {s s' s'' : Scanner} {kept kept' : List CodePoint} (h : s.Extends s' kept)
    (h' : s'.Extends s'' kept') : s.Extends s'' (kept ++ kept') where
  text := by rw [h'.text, h.text, Text.append_append]
  start := h'.start.trans h.start
  options := h'.options.trans h.options

/-- A step adds nothing to the token. -/
theorem extends_of_step {s s' : Scanner} (h : step s = .ok () s') : s.Extends s' [] := by
  rcases of_step_ok h with ⟨current, putBack, -, rfl⟩ | ⟨-, current, decoder, -, rfl⟩
  · exact ⟨rfl, rfl, rfl⟩
  · exact ⟨rfl, rfl, rfl⟩

/-- Two scanners with the same input to come take the same step. -/
theorem step_congr {s s' t : Scanner} (hdecoder : t.decoder = s.decoder)
    (hputBack : t.putBack = s.putBack) (h : step s = .ok () s') :
    ∃ t', step t = .ok () t' ∧ t'.decoder = s'.decoder ∧ t'.current = s'.current ∧
      t'.putBack = s'.putBack := by
  rcases of_step_ok h with ⟨current, putBack, hp, rfl⟩ | ⟨hp, current, decoder, hnext, rfl⟩
  · exact ⟨_, step_of_putBack (hputBack.trans hp), hdecoder, rfl, rfl⟩
  · exact ⟨_, step_of_next (hputBack.trans hp) (hdecoder ▸ hnext), rfl, rfl, hputBack⟩

/-- What is to come depends on neither the text nor the start of the token. -/
theorem Awaits.congr {s t : Scanner} {cs : List CodePoint} (h : s.Awaits cs)
    (hdecoder : t.decoder = s.decoder) (hcurrent : t.current = s.current)
    (hputBack : t.putBack = s.putBack) : t.Awaits cs := by
  -- Along the steps the two scanners keep the same input, whatever they have accumulated.
  induction cs generalizing s t with
  | nil =>
    rw [Awaits, hcurrent]
    exact h
  | cons c cs ih =>
    obtain ⟨hc, s', hs, hs'⟩ := h
    obtain ⟨t', ht, hdecoder', hcurrent', hputBack'⟩ := step_congr hdecoder hputBack hs
    exact ⟨by rw [hcurrent, hc], t', ht, ih hs' hdecoder' hcurrent' hputBack'⟩

/-- Clearing the text of a token does not change what is awaited. -/
theorem Awaits.clear {s : Scanner} {cs : List CodePoint} (h : s.Awaits cs) : s.clear.Awaits cs :=
  h.congr rfl rfl rfl

/-- Nor does keeping lookaheads in it. -/
theorem Awaits.keep {s : Scanner} {cs : List CodePoint} (h : s.Awaits cs) (ls : List Lookahead) :
    (s.keep ls).Awaits cs :=
  h.congr rfl rfl rfl

/-- A step takes back the first of what was put back. -/
theorem step_giveBack (s : Scanner) (l : Lookahead) (ls : List Lookahead) :
    step (s.giveBack (l :: ls)) = .ok () (s.giveBack ls) := by
  cases ls <;> rfl

/-- What is given back comes first. -/
theorem Awaits.giveBack {s : Scanner} {cs ds : List CodePoint} {ls : List Lookahead}
    (h : s.Awaits cs) (hls : ls.map Lookahead.codePoint? = ds.map some) :
    (s.giveBack ls).Awaits (ds ++ cs) := by
  -- Stepping through what was given back takes it off the front, and ends at the scanner before.
  induction ls generalizing ds with
  | nil =>
    rw [List.map_eq_nil_iff.1 hls.symm]
    exact h
  | cons l ls ih =>
    cases ds with
    | nil => cases hls
    | cons d ds =>
      injection hls with hl hls
      exact ⟨hl, _, step_giveBack s l ls, ih hls⟩

/-- Giving back changes nothing of the token. -/
theorem extends_giveBack (s : Scanner) (ls : List Lookahead) : s.Extends (s.giveBack ls) [] := by
  cases ls <;> exact ⟨rfl, rfl, rfl⟩

/-- The first code point is passed. -/
theorem step_of_awaits {s : Scanner} {c : CodePoint} {cs : List CodePoint}
    (h : s.Awaits (c :: cs)) : ∃ s', step s = .ok () s' ∧ s'.Awaits cs ∧ s.Extends s' [] := by
  obtain ⟨-, s', hs, hs'⟩ := h
  exact ⟨s', hs, hs', extends_of_step hs⟩

/-- The code points of lookaheads that are known. -/
theorem filterMap_codePoint? {ls : List Lookahead} {ds : List CodePoint}
    (h : ls.map Lookahead.codePoint? = ds.map some) :
    ls.filterMap Lookahead.codePoint? = ds := by
  have hid := congrArg (List.filterMap id) h
  simpa [List.filterMap_map] using hid

/-- One more lookahead is known. -/
theorem known_append {ls : List Lookahead} {ds : List CodePoint} {l : Lookahead} {c : CodePoint}
    (h : ls.map Lookahead.codePoint? = ds.map some) (hc : l.codePoint? = some c) :
    (ls ++ [l]).map Lookahead.codePoint? = (ds ++ [c]).map some := by
  rw [List.map_append, List.map_append, h, List.map_singleton, hc, List.map_singleton]

/-- Taking adds what was deferred and the current code point to the token. -/
theorem extends_of_take {s s' : Scanner} {deferred : List Lookahead} {ds : List CodePoint}
    {c : CodePoint} (hc : s.current.codePoint? = some c)
    (hd : deferred.map Lookahead.codePoint? = ds.map some) (h : take deferred s = .ok () s') :
    s.Extends s' (ds ++ [c]) := by
  have hk := extends_of_step (s := s.keep (deferred ++ [s.current])) h
  refine ⟨?_, hk.start, hk.options⟩
  rw [hk.text, keep, filterMap_codePoint? (known_append hd hc)]
  rfl

/-- The first code point is taken, with what was deferred before it. -/
theorem take_of_awaits {s : Scanner} {c : CodePoint} {cs ds : List CodePoint}
    {deferred : List Lookahead} (h : s.Awaits (c :: cs))
    (hd : deferred.map Lookahead.codePoint? = ds.map some) :
    ∃ s', take deferred s = .ok () s' ∧ s'.Awaits cs ∧ s.Extends s' (ds ++ [c]) := by
  obtain ⟨s', hs, hs', -⟩ := step_of_awaits (h.keep (deferred ++ [s.current]))
  exact ⟨s', hs, hs', extends_of_take h.1 hd hs⟩

/-- A scanner before what its decoder yields. -/
theorem awaits_of_yields {s : Scanner} {cs : List CodePoint} {d : Decoder} (hd : d.Yields cs)
    (hnext : d.next = .ok s.current s.decoder) (hputBack : s.putBack = []) : s.Awaits cs := by
  induction cs generalizing s d with
  | nil =>
    obtain ⟨p, d', hn⟩ := hd
    rw [hnext] at hn
    injection hn with hcurrent _
    rw [Awaits, hcurrent]
  | cons c cs ih =>
    obtain ⟨p, d', hn, hd'⟩ := hd
    rw [hnext] at hn
    injection hn with hcurrent hdecoder
    refine ⟨by rw [hcurrent], ?_⟩
    rw [← hdecoder] at hd'
    -- The next step decodes, and what it decodes is what the decoder yields then.
    obtain ⟨l, d'', hn'⟩ : ∃ l d'', s.decoder.next = .ok l d'' := by
      cases cs with
      | nil =>
        obtain ⟨p', d'', hn'⟩ := hd'
        exact ⟨_, d'', hn'⟩
      | cons c' cs =>
        obtain ⟨p', d'', hn', -⟩ := hd'
        exact ⟨_, d'', hn'⟩
    exact ⟨{ s with decoder := d'', current := l }, step_of_next hputBack hn', ih hd' hn' hputBack⟩

/-- A scanner over a source that delivers a text stands before the text. -/
theorem awaits_ofSource {source : Source} {text : List Char}
    (h : source.Delivers (String.ofList text).toUTF8.toList .closed) (options : Options) :
    ∃ s, ofSource source options = .ok s ∧ s.Awaits (codes text) ∧
      s.options = options := by
  have hd := Decoder.yields_ofSource h options
  obtain ⟨l, d, hn⟩ : ∃ l d, (Decoder.ofSource source options).next = .ok l d := by
    cases text with
    | nil =>
      obtain ⟨p, d, hn⟩ := hd
      exact ⟨_, d, hn⟩
    | cons x text =>
      obtain ⟨p, d, hn, -⟩ := hd
      exact ⟨_, d, hn⟩
  refine ⟨⟨d, l, [], .empty options.encoding, l.position, options⟩, ?_, ?_, rfl⟩
  · rw [ofSource, hn]
  · exact awaits_of_yields hd hn rfl

end Scanner

end RdfTurtle
