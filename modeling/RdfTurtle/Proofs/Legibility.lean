import RdfTurtle.Proofs.LenientDecoding
import RdfTurtle.Proofs.Places
import RdfTurtle.Proofs.Recognition.Taking

/-! # What can be read

Which code points can be the input of a scanner depends on the mode of its decoder only, and on
nothing but each of them by itself.

* **`CodePoint.Decodable`** — what a decoder can read in a mode.
* **`Scanner.decodable_after`** — whatever a scanner has before it can be read.
* **`Scanner.exists_awaits_of_decodable`** — whatever can be read is the input of some scanner. -/

namespace RdfTurtle

/-- What a decoder can read: characters, or any number of twenty-one bits if nothing is checked. -/
def CodePoint.Decodable : Strictness → CodePoint → Prop
  | .strict, c => ∃ x : Char, c = x
  | .permissive, c => c.value ≤ 0x1FFFFF

/-- Characters can be read in either mode. -/
theorem CodePoint.decodable_ofChar (mode : Strictness) (x : Char) : Decodable mode x := by
  cases mode with
  | strict => exact ⟨x, rfl⟩
  | permissive =>
    have hx := Utf16.char_range x
    show x.toNat ≤ 0x1FFFFF
    omega

/-- Whatever a decoder has before it can be read in its mode. -/
theorem Decoder.decodable_of_mem_prospect {d : Decoder} {l : Lookahead}
    (hl : l ∈ d.prospect.lookaheads) {c : CodePoint} (hc : l.codePoint? = some c) :
    c.Decodable d.mode := by
  cases hmode : d.mode with
  | strict => exact textual_of_strict hmode l hl c hc
  | permissive => exact value_le_of_permissive hmode hl hc

namespace Scanner

variable {source : Source} {options : Options} {cs : List CodePoint}

/-- No operation changes the options. -/
theorem options_perform (operation : Operation) (s : Scanner) :
    (finalState (operation.perform s)).options = s.options := by
  have hreturn {α : Type} {x : EStateM LexError Scanner α} {f : α → Option Lexeme}
      (hx : (finalState (x s)).options = s.options) :
      (finalState ((do return f (← x)) s)).options = s.options :=
    finalState_bind (I := fun t : Scanner => t.options = s.options) hx fun _ _ ht => ht
  cases operation with
  | recognize r => exact hreturn (s.options_recognize r)
  | advance => exact hreturn (f := fun _ => none) s.options_advance
  | accumulate =>
    refine hreturn (f := fun _ => none) ?_
    unfold accumulate
    split
    · rfl
    · exact s.options_take []
  | clear => rfl

/-- A scanner keeps the options that it was made with. -/
theorem options_after {s : Scanner} (hs : ofSource source options = .ok s)
    (operations : List Operation) : (s.after operations).options = options := by
  have hbegin : s.options = options := by
    obtain ⟨current, decoder, -, rfl⟩ := of_ofSource_ok hs
    rfl
  have hsame (t : Scanner) : (t.after operations).options = t.options := by
    induction operations generalizing t with
    | nil => rfl
    | cons operation operations ih => exact (ih _).trans (options_perform operation t)
  rw [hsame, hbegin]

/-- **Whatever a scanner has before it can be read**, however it came to stand there. -/
theorem decodable_after {s : Scanner} (hs : ofSource source options = .ok s)
    (operations : List Operation) (h : (s.after operations).Awaits cs) {c : CodePoint}
    (hc : c ∈ cs) : c.Decodable options.utf8 := by
  have hsome : some c ∈ (s.after operations).prospect.lookaheads.map Lookahead.codePoint? := by
    rw [h.prospect.1]
    exact List.mem_map_of_mem hc
  obtain ⟨l, hl, hcode⟩ := List.mem_map.1 hsome
  have hmem := (s.within_after operations).lookaheads.subset hl
  rw [prospect_ofSource hs] at hmem
  exact Decoder.decodable_of_mem_prospect hmem hcode

/-- A scanner stands before what its decoder reads to the end. -/
theorem exists_awaits_of_prospect
    (hcodes : (Decoder.ofSource source options).prospect.lookaheads.map Lookahead.codePoint? =
      cs.map some)
    (hfine : (Decoder.ofSource source options).prospect.fault? = none) :
    ∃ s, ofSource source options = .ok s ∧ s.Awaits cs := by
  cases hs : ofSource source options with
  | error e =>
    obtain ⟨fault, decoder, hnext, -⟩ := of_ofSource_error hs
    rw [Decoder.prospect_of_error hnext] at hfine
    cases hfine
  | ok s =>
    rw [← prospect_ofSource hs] at hcodes hfine
    obtain ⟨cs', h⟩ : ∃ cs', s.Awaits cs' := by
      rw [exists_awaits_iff]
      cases hending : s.prospect.ending with
      | ok position => exact ⟨position, rfl⟩
      | error e =>
        rw [Prospect.fault?, hending] at hfine
        cases hfine
    have heq := h.prospect.1.symm.trans hcodes
    obtain rfl := (List.map_inj_right fun _ _ => Option.some.inj).1 heq
    exact ⟨s, rfl, h⟩

/-- **Whatever can be read is the input of some scanner.** -/
theorem exists_awaits_of_decodable (options : Options) (h : ∀ c ∈ cs, c.Decodable options.utf8) :
    ∃ source s, ofSource source options = .ok s ∧ s.Awaits cs := by
  cases hmode : options.utf8 with
  | strict =>
    rw [hmode] at h
    obtain ⟨text, rfl⟩ : ∃ text, cs = codes text := by
      induction cs with
      | nil => exact ⟨[], rfl⟩
      | cons c cs ih =>
        obtain ⟨⟨x, rfl⟩, htail⟩ := List.forall_mem_cons.1 h
        obtain ⟨text, rfl⟩ := ih htail
        exact ⟨x :: text, rfl⟩
    obtain ⟨s, hs, hawaits, -⟩ := awaits_ofSource (.memory _) options
    exact ⟨_, s, hs, hawaits⟩
  | permissive =>
    -- Each number is spelled in four bytes.
    rw [hmode] at h
    have hwhole : ∀ group ∈ cs.map fun c => Utf8.spread c.value, Utf8.Whole group := by
      intro group hgroup
      obtain ⟨c, hc, rfl⟩ := List.mem_map.1 hgroup
      exact Utf8.whole_spread (h c hc)
    obtain ⟨hcontents, hending, hserves⟩ :=
      (Source.Delivers.memory (cs.map fun c => Utf8.spread c.value).flatten).spec
    obtain ⟨hvalues, hfine⟩ := Decoder.prospect_of_groups
      (d := Decoder.ofSource (.memory _) options) ⟨options.capacity_pos, hserves⟩ hmode hending
      hwhole (Or.inl rfl) (hcontents.trans (List.append_nil _).symm)
    refine ⟨_, exists_awaits_of_prospect ?_ hfine⟩
    rw [hvalues, List.map_map]
    refine List.map_congr_left fun c hc => ?_
    exact congrArg some (CodePoint.ext (Utf8.groupValue_spread (h c hc)))

end Scanner

end RdfTurtle
