import RdfTurtle.Proofs.Modes
import RdfTurtle.Proofs.StrictDecoding

/-! # Lenient decoding takes every byte

A lenient decoder checks nothing. The first byte of a group says how long the group is, whatever
bytes follow, and every group has a number; only the last group can be cut short.

* **`Utf8.Whole`**, **`Utf8.Cut`** — a group as long as its first byte says, and one that is
  shorter.
* **`Utf8.groupValue`** — the number of a group, and **`Utf8.groupValue_le`** its bound;
  **`Utf8.groupValue_spread`** every number within the bound has a group.
* **`Decoder.prospect_of_groups`** — a lenient decoder reads group by group.
* **`Decoder.value_le_of_permissive`** — no lenient decoder reads a greater number.
* **`Decoder.decodes_groups`** — lenient decoding is total up to a group that is cut short. -/

namespace RdfTurtle

namespace Utf8

/-- How many bytes a group has, by its first byte. -/
def groupLength (first : UInt8) : Nat :=
  if first ≤ 0xBF then 1 else if first ≤ 0xDF then 2 else if first ≤ 0xEF then 3 else 4

/-- The bytes are one group, as long as the first of them says. -/
def Whole : List UInt8 → Prop
  | [] => False
  | first :: further => (first :: further).length = groupLength first

/-- The bytes begin a group that has more of them. -/
def Cut : List UInt8 → Prop
  | [] => False
  | first :: further => (first :: further).length < groupLength first

/-- The number of a group: the payload bits of the first byte, and behind them the low six bits of
each further byte. The first byte has five payload bits in a group of two bytes, four in one of
three and three in one of four. A byte that stands alone is its own number. -/
def groupValue : List UInt8 → Nat
  | [first] => first.toNat
  | [first, a] => first.toNat % 2 ^ 5 * 2 ^ 6 + a.toNat % 2 ^ 6
  | [first, a, b] => first.toNat % 2 ^ 4 * 2 ^ 12 + a.toNat % 2 ^ 6 * 2 ^ 6 + b.toNat % 2 ^ 6
  | [first, a, b, c] =>
    first.toNat % 2 ^ 3 * 2 ^ 18 + a.toNat % 2 ^ 6 * 2 ^ 12 + b.toNat % 2 ^ 6 * 2 ^ 6 +
      c.toNat % 2 ^ 6
  | _ => 0

section Groups

variable {first : UInt8} {further bytes : List UInt8}

/-- How many bytes a first byte announces, and which bits of it are payload. -/
theorem payload_cases (first : UInt8) :
    (furtherBytes first = 0 ∧ payload first = first.toNat ∧ first ≤ 0xBF) ∨
    (furtherBytes first = 1 ∧ payload first = first.toNat % 32 ∧ ¬ first ≤ 0xBF ∧ first ≤ 0xDF) ∨
    (furtherBytes first = 2 ∧ payload first = first.toNat % 16 ∧ ¬ first ≤ 0xDF ∧ first ≤ 0xEF) ∨
    (furtherBytes first = 3 ∧ payload first = first.toNat % 8 ∧ ¬ first ≤ 0xEF) := by
  have hlt : first.toNat < 256 := first.toNat_lt
  have hfurther := furtherBytes_ofNat hlt
  have hpayload := payload_ofNat hlt
  rw [UInt8.ofNat_toNat] at hfurther hpayload
  simp only [hfurther, hpayload, UInt8.le_iff_toNat_le, UInt8.reduceToNat]
  split
  · omega
  · split
    · omega
    · split <;> omega

/-- A group is its first byte and the further bytes that this announces. -/
theorem groupLength_eq (first : UInt8) : groupLength first = furtherBytes first + 1 := by
  have hcases := payload_cases first
  simp only [UInt8.le_iff_toNat_le, UInt8.reduceToNat] at hcases
  simp only [groupLength, UInt8.le_iff_toNat_le, UInt8.reduceToNat]
  split
  · omega
  · split
    · omega
    · split <;> omega

/-- A group is whole if it has all of them. -/
theorem whole_iff : Whole (first :: further) ↔ further.length = furtherBytes first := by
  rw [Whole, groupLength_eq, List.length_cons, Nat.succ_inj]

/-- It is cut if some are missing. -/
theorem cut_iff : Cut (first :: further) ↔ further.length < furtherBytes first := by
  rw [Cut, groupLength_eq, List.length_cons, Nat.succ_lt_succ_iff]

/-- What a group spells is its number. -/
theorem spell_eq_groupValue (h : further.length = furtherBytes first) :
    spell first further = ⟨groupValue (first :: further)⟩ := by
  rcases payload_cases first with hfirst | hfirst | hfirst | hfirst
  · obtain rfl : further = [] := List.length_eq_zero_iff.1 (h.trans hfirst.1)
    rw [spell_nil, hfirst.2.1]
    rfl
  · obtain ⟨a, rfl⟩ := List.length_eq_one_iff.1 (h.trans hfirst.1)
    rw [spell, hfirst.2.1]
    rfl
  · obtain ⟨a, b, rfl⟩ := List.length_eq_two.1 (h.trans hfirst.1)
    rw [spell, hfirst.2.1]
    simp only [List.foldl_cons, List.foldl_nil, groupValue, CodePoint.mk.injEq]
    omega
  · obtain ⟨a, b, c, rfl⟩ := List.length_eq_three.1 (h.trans hfirst.1)
    rw [spell, hfirst.2.1]
    simp only [List.foldl_cons, List.foldl_nil, groupValue, CodePoint.mk.injEq]
    omega

/-- No group has a number of more than twenty-one bits. -/
theorem groupValue_le (bytes : List UInt8) : groupValue bytes ≤ 0x1FFFFF := by
  unfold groupValue
  split
  · next first =>
    have := first.toNat_lt
    omega
  all_goals omega

/-- Four bytes for a number. -/
def spread (n : Nat) : List UInt8 :=
  [.ofNat (0xF0 + n / 2 ^ 18), .ofNat (0x80 + n / 2 ^ 12 % 2 ^ 6),
    .ofNat (0x80 + n / 2 ^ 6 % 2 ^ 6), .ofNat (0x80 + n % 2 ^ 6)]

/-- Every number of twenty-one bits has a group. -/
theorem groupValue_spread {n : Nat} (h : n ≤ 0x1FFFFF) : groupValue (spread n) = n := by
  rw [spread, groupValue, toNat_ofNat (by omega), toNat_ofNat (by omega), toNat_ofNat (by omega),
    toNat_ofNat (by omega)]
  omega

/-- Four bytes for a number are a whole group. -/
theorem whole_spread {n : Nat} (h : n ≤ 0x1FFFFF) : Whole (spread n) := by
  rw [spread, whole_iff, furtherBytes_ofNat (by omega), if_neg (by omega), if_neg (by omega),
    if_neg (by omega)]
  rfl

/-- All groups at the front of bytes, and what is left if the last one is cut short. -/
theorem exists_groups (bytes : List UInt8) :
    ∃ (groups : List (List UInt8)) (rest : List UInt8), bytes = groups.flatten ++ rest ∧
      (∀ group ∈ groups, Whole group) ∧ (rest = [] ∨ Cut rest) := by
  induction hn : bytes.length using Nat.strongRecOn generalizing bytes with
  | ind n ih =>
    subst hn
    cases bytes with
    | nil => exact ⟨[], [], rfl, List.forall_mem_nil _, Or.inl rfl⟩
    | cons first behind =>
      by_cases hshort : behind.length < furtherBytes first
      · exact ⟨[], first :: behind, rfl, List.forall_mem_nil _, Or.inr (cut_iff.2 hshort)⟩
      · have hlength := List.length_take_of_le (Nat.le_of_not_lt hshort)
        have hless : (behind.drop (furtherBytes first)).length < (first :: behind).length := by
          rw [List.length_drop, List.length_cons]
          omega
        obtain ⟨groups, rest, hsplit, hgroups, hrest⟩ := ih _ hless _ rfl
        refine ⟨(first :: behind.take (furtherBytes first)) :: groups, rest, ?_, ?_, hrest⟩
        · rw [List.flatten_cons, List.append_assoc, ← hsplit, List.cons_append,
            List.take_append_drop]
        · exact List.forall_mem_cons.2 ⟨whole_iff.2 hlength, hgroups⟩

end Groups

end Utf8

namespace Decoder

variable {d : Decoder} {groups : List (List UInt8)} {bytes rest : List UInt8}

/-- The first group comes next, with its number. -/
theorem next_of_whole (hd : d.Serves) (hmode : d.mode = .permissive) (hgroup : Utf8.Whole bytes)
    (h : d.contents = bytes ++ rest) :
    ∃ position d', d.next = .ok ⟨some ⟨Utf8.groupValue bytes⟩, position⟩ d' ∧ d'.contents = rest ∧
      d'.Serves ∧ d'.mode = .permissive ∧ d'.source.ending = d.source.ending := by
  cases bytes with
  | nil => exact hgroup.elim
  | cons first further =>
    have hlength := Utf8.whole_iff.1 hgroup
    obtain ⟨d₁, hbyte, hc₁, hk₁⟩ := nextByte_of_cons hd h
    obtain ⟨d₂, hfurther, hc₂, hk₂⟩ := further_of_append hk₁.serves hc₁
    have hmode₁ : d₁.mode = .permissive := hk₁.mode.trans hmode
    have hread : group d₁.mode first d₁ = .ok (Utf8.spell first further) d₂ := by
      rw [hlength] at hfurther
      rw [hmode₁]
      simp only [group, bind, EStateM.bind, hfurther]
      rfl
    have hnext := next_of_lead hbyte
    rw [hread, Utf8.spell_eq_groupValue hlength] at hnext
    exact ⟨_, _, hnext, hc₂, hk₂.serves, hk₂.mode.trans hmode₁, hk₂.ending.trans hk₁.ending⟩

/-- Where no group is left but one that is cut short the input ends, too early in the second
case. -/
theorem prospect_of_cut (hd : d.Serves) (hmode : d.mode = .permissive)
    (he : d.source.ending = .closed) (h : d.contents = [] ∨ Utf8.Cut d.contents) :
    d.prospect.lookaheads = [] ∧
      d.prospect.fault? = if d.contents = [] then none else some .prematureEnd := by
  cases hc : d.contents with
  | nil =>
    obtain ⟨d', hnext⟩ := next_of_closed hd hc he
    rw [prospect_of_none hnext]
    exact ⟨rfl, rfl⟩
  | cons first further =>
    have hcut : Utf8.Cut (first :: further) := hc ▸ h.resolve_left (by simp [hc])
    obtain ⟨d₁, hbyte, hc₁, hk₁⟩ := nextByte_of_cons hd hc
    obtain ⟨d₂, hfurther⟩ := further_of_length_lt hk₁.serves (hk₁.ending.trans he)
      (hc₁ ▸ Utf8.cut_iff.1 hcut)
    have hnext : d.next = .error .prematureEnd d₂ := by
      rw [next_of_lead hbyte, hk₁.mode.trans hmode]
      simp only [group, bind, EStateM.bind, hfurther]
    rw [prospect_of_error hnext, if_neg (List.cons_ne_nil _ _)]
    exact ⟨rfl, rfl⟩

/-- **A lenient decoder reads group by group**, and ends too early in a group that is cut short. -/
theorem prospect_of_groups (hd : d.Serves) (hmode : d.mode = .permissive)
    (he : d.source.ending = .closed) (hgroups : ∀ group ∈ groups, Utf8.Whole group)
    (hrest : rest = [] ∨ Utf8.Cut rest) (h : d.contents = groups.flatten ++ rest) :
    d.prospect.lookaheads.map Lookahead.codePoint? =
        groups.map (fun group => some ⟨Utf8.groupValue group⟩) ∧
      d.prospect.fault? = if rest = [] then none else some .prematureEnd := by
  induction groups generalizing d with
  | nil =>
    rw [List.flatten_nil, List.nil_append] at h
    rw [← h] at hrest ⊢
    obtain ⟨hlookaheads, hfault⟩ := prospect_of_cut hd hmode he hrest
    exact ⟨by rw [hlookaheads]; rfl, hfault⟩
  | cons group groups ih =>
    obtain ⟨hgroup, hgroups⟩ := List.forall_mem_cons.1 hgroups
    rw [List.flatten_cons, List.append_assoc] at h
    obtain ⟨position, d', hnext, hc, hd', hmode', he'⟩ := next_of_whole hd hmode hgroup h
    obtain ⟨hvalues, hfault⟩ := ih hd' hmode' (he'.trans he) hgroups hc
    rw [prospect_of_some hnext]
    exact ⟨by rw [List.map_cons, hvalues]; rfl, hfault⟩

/-- No lenient decoder has a number of more than twenty-one bits before it, whatever its source. -/
theorem value_le_of_permissive (hmode : d.mode = .permissive) {l : Lookahead}
    (hl : l ∈ d.prospect.lookaheads) {c : CodePoint} (hc : l.codePoint? = some c) :
    c.value ≤ 0x1FFFFF := by
  obtain ⟨lead, e, e', hgroup⟩ := exists_group_of_mem_prospect hl hc
  rw [hmode] at hgroup
  obtain ⟨further, e₁, hfurther, hspell⟩ := ok_of_bind hgroup
  injection hspell with hspell
  obtain ⟨-, hlength⟩ := contents_of_further hfurther
  rw [← hspell, Utf8.spell_eq_groupValue hlength]
  exact Utf8.groupValue_le _

/-- **Lenient decoding is total up to a group that is cut short.** Whatever bytes a source delivers,
in whatever pieces, they fall into groups whose length their first byte decides, and what is left is
nothing or a group that is cut short. A lenient decoder with a buffer of any size reads the numbers
of the groups, which have twenty-one bits at most. Then it reports the end of input, or a premature
end if a group is cut short, and nothing else. From well-formed bytes it reads the code points at
the positions that a strict decoder reads, up to the same end. -/
theorem decodes_groups {source : Source} {bytes : List UInt8} {options : Options}
    (h : source.Delivers bytes .closed) (hmode : options.utf8 = .permissive) :
    ∃ (groups : List (List UInt8)) (rest : List UInt8), bytes = groups.flatten ++ rest ∧
      (∀ group ∈ groups, Utf8.Whole group) ∧ (rest = [] ∨ Utf8.Cut rest) ∧
      (ofSource source options).prospect.lookaheads.map Lookahead.codePoint? =
        groups.map (fun group => some ⟨Utf8.groupValue group⟩) ∧
      (∀ group ∈ groups, Utf8.groupValue group ≤ 0x1FFFFF) ∧
      (ofSource source options).prospect.fault? =
        (if rest = [] then none else some .prematureEnd) ∧
      (Utf8.WellFormed bytes → (ofSource source options).prospect =
        (ofSource source { options with utf8 := .strict }).prospect) := by
  obtain ⟨hcontents, hending, hserves⟩ := h.spec
  obtain ⟨groups, rest, hsplit, hgroups, hrest⟩ := Utf8.exists_groups bytes
  obtain ⟨hvalues, hfault⟩ := prospect_of_groups (d := ofSource source options)
    ⟨options.capacity_pos, hserves⟩ hmode hending hgroups hrest (hcontents.trans hsplit)
  refine ⟨groups, rest, hsplit, hgroups, hrest, hvalues, fun _ _ => Utf8.groupValue_le _, hfault,
    fun hwell => ?_⟩
  have hbefore : (ofSource source options).contents = bytes := hcontents
  exact (prospect_checking (hbefore ▸ hwell) .strict).symm

/-- Of two pieces, decoded a byte at a time: a lead takes the byte behind it, whatever that is, a
further byte stands alone, and the last group is cut short. -/
theorem decodes_groups_cut :
    (Source.chunks [[0xC1], [0x3C, 0x80, 0xE2, 0x82]]).Delivers [0xC1, 0x3C, 0x80, 0xE2, 0x82]
        .closed ∧
      ({ bufferSize := 1 } : Options).utf8 = .permissive ∧
      ∃ (groups : List (List UInt8)) (rest : List UInt8),
        [0xC1, 0x3C, 0x80, 0xE2, 0x82] = groups.flatten ++ rest ∧
        (∀ group ∈ groups, Utf8.Whole group) ∧ (rest = [] ∨ Utf8.Cut rest) ∧
        groups.map (fun group => some (CodePoint.mk (Utf8.groupValue group))) =
          [some ⟨0x7C⟩, some ⟨0x80⟩] ∧
        (if rest = [] then none else some LexFault.prematureEnd) = some .prematureEnd := by
  have hdelivers := Source.Delivers.chunks [[0xC1], [0x3C, 0x80, 0xE2, 0x82]]
  have hread : (ofSource (.chunks [[0xC1], [0x3C, 0x80, 0xE2, 0x82]])
      { bufferSize := 1 }).prospect.lookaheads.map Lookahead.codePoint? =
        [some ⟨0x7C⟩, some ⟨0x80⟩] := by
    decide +kernel
  have hended : (ofSource (.chunks [[0xC1], [0x3C, 0x80, 0xE2, 0x82]])
      { bufferSize := 1 }).prospect.fault? = some .prematureEnd := by
    decide +kernel
  obtain ⟨groups, rest, hsplit, hgroups, hrest, hvalues, -, hfault, -⟩ :=
    @decodes_groups _ _ { bufferSize := 1 } hdelivers rfl
  exact ⟨hdelivers, rfl, groups, rest, hsplit, hgroups, hrest, hvalues.symm.trans hread,
    hfault.symm.trans hended⟩

end Decoder

end RdfTurtle
