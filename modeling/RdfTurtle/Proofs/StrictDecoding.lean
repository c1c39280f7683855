import RdfTurtle.Proofs.Decoding
import RdfTurtle.Proofs.Encodings.WellFormed

/-! # Strict decoding is UTF-8

A strict decoder reads the characters that its bytes encode, as far as they are well-formed, and
then says why it stops: the bytes end, they end within a group, or no character begins there.

* **`Utf8.CutShort`** — bytes that end within the group that their lead announces.
* **`Utf8.fault?`** — what is wrong where no character begins.
* **`Decoder.stops`** — a strict decoder stops where no character begins.
* **`Decoder.decodes_wellFormed`** — what is decoded is the longest well-formed prefix. -/

namespace RdfTurtle

namespace Utf8

/-- How many bytes the group of a lead byte has that announces more than itself, by its bit
pattern. -/
def announced (lead : UInt8) : Nat := if lead < 0xE0 then 2 else if lead < 0xF0 then 3 else 4

/-- The bytes begin with a lead byte and are fewer than it announces. -/
def CutShort : List UInt8 → Prop
  | [] => False
  | lead :: further => 0xC0 ≤ lead ∧ lead ≤ 0xF7 ∧ (lead :: further).length < announced lead

instance : (bytes : List UInt8) → Decidable (CutShort bytes)
  | [] => inferInstanceAs (Decidable False)
  | _ :: _ => inferInstanceAs (Decidable (_ ∧ _ ∧ _))

/-- What is wrong with bytes that begin with no character: nothing if there are none. -/
def fault? (bytes : List UInt8) : Option LexFault :=
  if bytes = [] then none
  else if CutShort bytes then some .prematureEnd
  else some .invalidUtf8

section Leads

variable {lead : UInt8} {further : List UInt8}

/-- A lead of more than itself announces its further bytes and itself. -/
theorem announced_eq (h : 0xC0 ≤ lead) : announced lead = furtherBytes lead + 1 := by
  rw [announced, furtherBytes, if_neg (UInt8.not_lt.2 h)]
  split
  · rfl
  · split <;> rfl

/-- Which bytes announce more than themselves. -/
theorem isLead_iff (h : 0xC0 ≤ lead) : isLead lead ↔ lead ≤ 0xF7 := by
  have hC0 : 192 ≤ lead.toNat := UInt8.le_iff_toNat_le.1 h
  simp only [isLead, Bool.or_eq_true, Bool.and_eq_true, decide_eq_true_eq, UInt8.lt_iff_toNat_lt,
    UInt8.le_iff_toNat_le, UInt8.reduceToNat]
  omega

/-- Bytes are cut short when fewer than the further bytes of a lead are left. -/
theorem cutShort_iff :
    CutShort (lead :: further) ↔ isLead lead ∧ further.length < furtherBytes lead := by
  by_cases h : 0xC0 ≤ lead
  · rw [CutShort, announced_eq h, isLead_iff h, List.length_cons, Nat.succ_lt_succ_iff]
    exact ⟨fun hcut => hcut.2, fun hcut => ⟨h, hcut⟩⟩
  · have hnone : furtherBytes lead = 0 := by rw [furtherBytes, if_pos (UInt8.not_le.1 h)]
    rw [hnone]
    exact ⟨fun hcut => absurd hcut.1 h, fun hcut => absurd hcut.2 (Nat.not_lt_zero _)⟩

end Leads

end Utf8

/-- What is wrong behind the lookaheads, if anything is. -/
def Prospect.fault? (p : Prospect) : Option LexFault :=
  match p.ending with
  | .ok _ => none
  | .error e => some e.fault

namespace Decoder

variable {d : Decoder}

/-- Where too few bytes are left the input ends too early. -/
theorem further_of_length_lt {n : Nat} (hd : d.Serves) (he : d.source.ending = .closed)
    (h : d.contents.length < n) : ∃ d', further n d = .error .prematureEnd d' := by
  induction n generalizing d with
  | zero => exact absurd h (Nat.not_lt_zero _)
  | succ n ih =>
    cases hc : d.contents with
    | nil =>
      obtain ⟨d', hn, -, -⟩ := nextByte_of_closed hd hc he
      refine ⟨d', ?_⟩
      simp only [further, bind, EStateM.bind, hn]
      rfl
    | cons byte bytes =>
      obtain ⟨d₁, hn, hbytes, hk⟩ := nextByte_of_cons hd hc
      rw [hc, ← hbytes] at h
      obtain ⟨d', hrest⟩ := ih hk.serves (hk.ending.trans he) (Nat.lt_of_succ_lt_succ h)
      refine ⟨d', ?_⟩
      simp only [further, bind, EStateM.bind, hn, hrest]

/-- A strict decoder finds no group where no character begins, and says whether the bytes are cut
short. -/
theorem group_of_not_begins {lead : UInt8} (hd : d.Serves) (he : d.source.ending = .closed)
    (h : ¬ Utf8.Begins (lead :: d.contents)) :
    ∃ fault d', group .strict lead d = .error fault d' ∧
      some fault = Utf8.fault? (lead :: d.contents) := by
  rw [Utf8.fault?, if_neg (List.cons_ne_nil _ _), group]
  by_cases hlead : Utf8.isLead lead
  · rw [if_pos hlead]
    by_cases hshort : d.contents.length < Utf8.furtherBytes lead
    · obtain ⟨d', hfurther⟩ := further_of_length_lt hd he hshort
      refine ⟨.prematureEnd, d', ?_, (if_pos (Utf8.cutShort_iff.2 ⟨hlead, hshort⟩)).symm⟩
      simp only [bind, EStateM.bind, hfurther]
    · -- All bytes of the group are read, and they encode nothing.
      obtain ⟨further, rest, hsplit, hlength⟩ : ∃ further rest,
          d.contents = further ++ rest ∧ Utf8.furtherBytes lead = further.length :=
        ⟨_, _, (List.take_append_drop (Utf8.furtherBytes lead) _).symm,
          (List.length_take_of_le (Nat.le_of_not_lt hshort)).symm⟩
      have hnone : Utf8.scalar? lead further = none := by
        refine Option.eq_none_iff_forall_ne_some.2 fun x hx => h ⟨x, rest, ?_⟩
        rw [← Utf8.eq_utf8EncodeChar hx hlength, hsplit, List.cons_append]
      obtain ⟨d', hfurther, -, -⟩ := further_of_append hd hsplit
      rw [← hlength] at hfurther
      refine ⟨.invalidUtf8, d', ?_,
        (if_neg fun hcut => hshort (Utf8.cutShort_iff.1 hcut).2).symm⟩
      simp only [bind, EStateM.bind, hfurther, hnone]
      rfl
  · rw [if_neg hlead]
    exact ⟨.invalidUtf8, d, rfl, (if_neg fun hcut => hlead (Utf8.cutShort_iff.1 hcut).1).symm⟩

/-- **A strict decoder stops where no character begins**, and says why. -/
theorem stops (hd : d.Serves) (hmode : d.mode = .strict) (he : d.source.ending = .closed)
    (h : ¬ Utf8.Begins d.contents) :
    d.prospect.lookaheads = [] ∧ d.prospect.fault? = Utf8.fault? d.contents := by
  cases hc : d.contents with
  | nil =>
    obtain ⟨d', hnext⟩ := next_of_closed hd hc he
    rw [prospect_of_none hnext]
    exact ⟨rfl, rfl⟩
  | cons lead further =>
    obtain ⟨d₁, hbyte, hfurther, hk⟩ := nextByte_of_cons hd hc
    rw [hc, ← hfurther] at h
    obtain ⟨fault, d', hgroup, hfault⟩ := group_of_not_begins hk.serves (hk.ending.trans he) h
    have hnext : d.next = .error fault d' := by
      rw [next_of_lead hbyte, hk.mode.trans hmode, hgroup]
    rw [prospect_of_error hnext, ← hfurther]
    exact ⟨rfl, hfault⟩

/-- A strict decoder reads the characters at the front of its bytes, up to where none begins. -/
theorem prospect_of_encode {text : List Char} {rest : List UInt8} (hd : d.Serves)
    (hmode : d.mode = .strict) (he : d.source.ending = .closed)
    (h : d.contents = Utf8.encode text ++ rest) (hrest : ¬ Utf8.Begins rest) :
    d.prospect.lookaheads.map Lookahead.codePoint? = (codes text).map some ∧
      d.prospect.fault? = Utf8.fault? rest := by
  induction text generalizing d with
  | nil =>
    rw [Utf8.encode_nil, List.nil_append] at h
    rw [← h] at hrest ⊢
    obtain ⟨hlookaheads, hfault⟩ := stops hd hmode he hrest
    exact ⟨by rw [hlookaheads]; rfl, hfault⟩
  | cons x text ih =>
    rw [Utf8.encode_cons, List.append_assoc] at h
    obtain ⟨d', hnext, hc, hd', he'⟩ := next_of_cons hd h
    have hlocates := d.locates_next
    rw [hnext] at hlocates
    have hmode' : d'.mode = .strict := (congrArg Prod.snd hlocates.passed).trans hmode
    obtain ⟨hcodes, hfault⟩ := ih hd' hmode' (he'.trans he) hc
    rw [prospect_of_some hnext]
    exact ⟨by rw [List.map_cons, hcodes]; rfl, hfault⟩

/-- **Strict decoding is UTF-8.** Whatever bytes a source delivers, in whatever pieces, a strict
decoder with a buffer of any size reads the text whose encoding is the longest well-formed prefix of
them. Then it reports the end of input if no bytes are left, a premature end if they are fewer than
their lead announces, and ill-formed bytes otherwise. -/
theorem decodes_wellFormed {source : Source} {bytes : List UInt8} {options : Options}
    (h : source.Delivers bytes .closed) (hstrict : options.utf8 = .strict) :
    ∃ text rest, bytes = Utf8.encode text ++ rest ∧
      (∀ front, Utf8.WellFormed front → front <+: bytes → front <+: Utf8.encode text) ∧
      (ofSource source options).prospect.lookaheads.map Lookahead.codePoint? =
        (codes text).map some ∧
      (ofSource source options).prospect.fault? = Utf8.fault? rest := by
  obtain ⟨hcontents, hending, hserves⟩ := h.spec
  obtain ⟨text, rest, hsplit, hrest⟩ := Utf8.exists_encode bytes
  refine ⟨text, rest, hsplit, ?_, ?_⟩
  · rintro front hfront ⟨behind, hbehind⟩
    obtain ⟨before, rfl⟩ := Utf8.wellFormed_iff.1 hfront
    exact Utf8.encode_prefix hrest (hbehind.trans hsplit)
  · exact prospect_of_encode ⟨options.capacity_pos, hserves⟩ hstrict hending
      (hcontents.trans hsplit) hrest

/-- Of a character and a surrogate, cut into two pieces and decoded a byte at a time, the character
is decoded. The surrogate is ill-formed. -/
theorem decodes_wellFormed_surrogate :
    (Source.chunks [[0xC3], [0xA9, 0xED, 0xA0, 0x80]]).Delivers [0xC3, 0xA9, 0xED, 0xA0, 0x80]
        .closed ∧
      ({ bufferSize := 1, utf8 := .strict } : Options).utf8 = .strict ∧
      (ofSource (.chunks [[0xC3], [0xA9, 0xED, 0xA0, 0x80]])
          { bufferSize := 1, utf8 := .strict }).prospect.lookaheads =
        [⟨some (CodePoint.ofChar 'é'), ⟨1, 1⟩⟩] ∧
      (ofSource (.chunks [[0xC3], [0xA9, 0xED, 0xA0, 0x80]])
          { bufferSize := 1, utf8 := .strict }).prospect.fault? = some .invalidUtf8 := by
  have hdelivers := Source.Delivers.chunks [[0xC3], [0xA9, 0xED, 0xA0, 0x80]]
  have hread : (ofSource (.chunks [[0xC3], [0xA9, 0xED, 0xA0, 0x80]])
      { bufferSize := 1, utf8 := .strict }).prospect.lookaheads =
        [⟨some (CodePoint.ofChar 'é'), ⟨1, 1⟩⟩] := by
    decide +kernel
  obtain ⟨text, rest, hsplit, -, hcodes, hfault⟩ :=
    @decodes_wellFormed _ _ { bufferSize := 1, utf8 := .strict } hdelivers rfl
  refine ⟨hdelivers, rfl, hread, ?_⟩
  -- The text is the character alone, so that the rest is the surrogate.
  have htext : text = ['é'] := by
    rw [hread] at hcodes
    have hsame : codes ['é'] = codes text :=
      List.map_injective_iff.2 (fun _ _ => Option.some.inj) hcodes
    exact (List.map_injective_iff.2 (fun _ _ => CodePoint.ofChar_inj.1) hsame).symm
  rw [htext] at hsplit
  have hencoded : [[0xC3], [0xA9, 0xED, 0xA0, 0x80]].flatten =
      Utf8.encode ['é'] ++ [0xED, 0xA0, 0x80] := by
    decide +kernel
  obtain rfl := List.append_cancel_left (hencoded.symm.trans hsplit)
  rw [hfault]
  decide

end Decoder

end RdfTurtle
