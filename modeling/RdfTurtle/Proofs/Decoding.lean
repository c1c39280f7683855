import RdfTurtle.Proofs.Comparison.Leading
import RdfTurtle.Proofs.Prospect

/-! # What a decoder has before it

A decoder has the code points before it that it still decodes, each at its place, up to the end of
the bytes or to the first that mean nothing. A scanner has before it what it holds, and then what
its decoder has.

* **`Decoder.prospect`** — the lookaheads that are still to be decoded, and how they end.
* **`Scanner.prospect_eq`** — a scanner has before it what it holds and what its decoder has.
* **`Decoder.locates_next`** — only code points that are decoded move the locator.
* **`Decoder.alike_prospect`** — decoders with the same bytes to come decode them alike. -/

namespace RdfTurtle

/-- What is held comes first. Behind an end that is held nothing comes. -/
def Prospect.behind (p : Prospect) : List Lookahead → Prospect
  | [] => p
  | ⟨none, position⟩ :: _ => ⟨[], .ok position⟩
  | ⟨some c, position⟩ :: held =>
    ⟨⟨some c, position⟩ :: (p.behind held).lookaheads, (p.behind held).ending⟩

namespace Decoder

/-- The lookaheads that are still to be decoded, and the end or the failure behind them. -/
def prospect (d : Decoder) : Prospect :=
  match _h : d.next with
  | .ok ⟨some c, position⟩ d' =>
    ⟨⟨some c, position⟩ :: (prospect d').lookaheads, (prospect d').ending⟩
  | .ok ⟨none, position⟩ _ => ⟨[], .ok position⟩
  | .error fault d' => ⟨[], .error ⟨fault, d'.locator.position⟩⟩
termination_by d.size
decreasing_by all_goals exact size_of_next ‹_›

section Equations

variable {d d' : Decoder} {position : Position}

/-- What comes of decoding a group behind its lead. -/
theorem next_of_lead {lead : UInt8} (h : nextByte d = .ok (some lead) d') :
    d.next = match group d'.mode lead d' with
      | .ok c e => .ok ⟨some c, e.locator.position⟩ { e with locator := e.locator.pass c }
      | .error fault e => .error fault e := by
  unfold next
  simp only [bind, EStateM.bind, h]
  simp only [get_apply]
  cases group d'.mode lead d' <;> rfl

/-- A code point that is decoded comes first. -/
theorem prospect_of_some {c : CodePoint} (h : d.next = .ok ⟨some c, position⟩ d') :
    d.prospect = ⟨⟨some c, position⟩ :: d'.prospect.lookaheads, d'.prospect.ending⟩ := by
  rw [prospect]
  split <;> simp_all

/-- At the end nothing comes. -/
theorem prospect_of_none (h : d.next = .ok ⟨none, position⟩ d') :
    d.prospect = ⟨[], .ok position⟩ := by
  rw [prospect]
  split <;> simp_all

/-- Nothing comes where decoding fails. -/
theorem prospect_of_error {fault : LexFault} (h : d.next = .error fault d') :
    d.prospect = ⟨[], .error ⟨fault, d'.locator.position⟩⟩ := by
  rw [prospect]
  split <;> simp_all

/-- The lookahead that is decoded comes first, unless it is the end. -/
theorem prospect_of_next {l : Lookahead} (h : d.next = .ok l d') :
    d.prospect = d'.prospect.behind [l] := by
  rcases l with ⟨_ | c, position⟩
  · exact prospect_of_none h
  · exact prospect_of_some h

end Equations

end Decoder

namespace Scanner

/-- **A scanner has before it what it holds, and then what its decoder has.** -/
theorem prospect_eq (s : Scanner) : s.prospect = s.decoder.prospect.behind s.queue := by
  induction hn : s.size using Nat.strongRecOn generalizing s with
  | ind n ih =>
    subst hn
    rcases hcurrent : s.current with ⟨_ | c, position⟩
    · have hend : s.atEnd := by
        rw [atEnd, hcurrent]
        rfl
      rw [prospect_of_atEnd hend, queue, hcurrent]
      rfl
    have hend : ¬ s.atEnd := by
      rw [atEnd, hcurrent]
      exact Bool.false_ne_true
    have hlt := size_step_lt (codePoint_of_not_atEnd hend).choose_spec
    -- A step takes what is held first, and decodes when nothing is.
    cases hp : s.putBack with
    | cons first held =>
      have hs := step_of_putBack hp
      rw [hs, finalState_ok] at hlt
      rw [prospect_of_step hend hs, ih _ hlt _ rfl, queue, queue, hcurrent, hp]
      rfl
    | nil =>
      cases hn : s.decoder.next with
      | ok l d =>
        have hs := step_of_next hp hn
        rw [hs, finalState_ok] at hlt
        rw [prospect_of_step hend hs, ih _ hlt _ rfl, queue, queue, hcurrent, hp,
          Decoder.prospect_of_next hn]
        rfl
      | error fault d =>
        rw [prospect_of_step_error hend (step_of_next_error hp hn), queue, hcurrent, hp,
          Decoder.prospect_of_error hn]
        rfl

/-- A scanner over a source has before it what the decoder has. -/
theorem prospect_ofSource {source : Source} {options : Options} {s : Scanner}
    (h : ofSource source options = .ok s) :
    s.prospect = (Decoder.ofSource source options).prospect := by
  obtain ⟨current, decoder, hnext, rfl⟩ := of_ofSource_ok h
  rw [prospect_eq, Decoder.prospect_of_next hnext]
  rfl

end Scanner

namespace Decoder

/-! ## The locator -/

/-- Where a decoder stands, and how it decodes. -/
def standing (d : Decoder) : Locator × Strictness := (d.locator, d.mode)

/-- Reading a byte does not move a decoder. -/
theorem standing_nextByte (d : Decoder) : (finalState (nextByte d)).standing = d.standing := by
  unfold nextByte
  split
  · rfl
  · split <;> rfl

/-- Nor does reading several. -/
theorem standing_further (n : Nat) {standing : Locator × Strictness} {d : Decoder}
    (hd : d.standing = standing) : (finalState (further n d)).standing = standing := by
  induction n generalizing d with
  | zero => exact hd
  | succ n ih =>
    refine finalState_bind (I := fun d : Decoder => d.standing = standing)
      (d.standing_nextByte.trans hd) fun byte? t ht => ?_
    cases byte? with
    | none => exact ht
    | some byte =>
      exact finalState_bind (I := fun d : Decoder => d.standing = standing) (ih ht) fun _ _ h => h

/-- Only passing a code point moves a decoder. -/
theorem standing_group (mode : Strictness) (lead : UInt8) (d : Decoder) :
    (finalState (group mode lead d)).standing = d.standing := by
  cases mode with
  | permissive =>
    exact finalState_bind (I := fun e : Decoder => e.standing = d.standing)
      (standing_further _ rfl) fun _ _ h => h
  | strict =>
    simp only [group]
    split
    · refine finalState_bind (I := fun e : Decoder => e.standing = d.standing)
        (standing_further _ rfl) fun bytes t ht => ?_
      cases Utf8.scalar? lead bytes <;> exact ht
    · rfl

/-- How decoding moves a decoder: its locator passes the code point that is decoded, and stays where
nothing is. It always decodes in the same way. -/
inductive Locates (standing : Locator × Strictness) :
    EStateM.Result LexFault Decoder Lookahead → Prop
  | passes {c : CodePoint} {d : Decoder} (moved : d.standing = (standing.1.pass c, standing.2)) :
    Locates standing (.ok ⟨some c, standing.1.position⟩ d)
  | ends {d : Decoder} (stays : d.standing = standing) :
    Locates standing (.ok ⟨none, standing.1.position⟩ d)
  | fails {fault : LexFault} {d : Decoder} (stays : d.standing = standing) :
    Locates standing (.error fault d)

/-- A code point that is decoded has been passed. -/
theorem Locates.passed {standing : Locator × Strictness} {c : CodePoint} {position : Position}
    {d : Decoder} (h : Locates standing (.ok ⟨some c, position⟩ d)) :
    d.standing = (standing.1.pass c, standing.2) := by
  cases h with
  | passes moved => exact moved

/-- **Only code points that are decoded move the locator**, and they are where it was. -/
theorem locates_next (d : Decoder) : Locates d.standing d.next := by
  have hbyte := d.standing_nextByte
  unfold next
  simp only [bind, EStateM.bind]
  cases hb : nextByte d with
  | error fault d₁ =>
    rw [hb, finalState_error] at hbyte
    exact .fails hbyte
  | ok byte? d₁ =>
    rw [hb, finalState_ok] at hbyte
    rw [← hbyte]
    cases byte? with
    | none => exact .ends rfl
    | some lead =>
      -- The bytes of the group are read before the locator passes what they encode.
      have hgroup := standing_group d₁.mode lead d₁
      show Locates d₁.standing ((group d₁.mode lead >>= pass) d₁)
      simp only [bind, EStateM.bind]
      cases hg : group d₁.mode lead d₁ with
      | error fault d₂ =>
        rw [hg, finalState_error] at hgroup
        exact .fails hgroup
      | ok c d₂ =>
        rw [hg, finalState_ok] at hgroup
        rw [← hgroup]
        exact .passes rfl

/-! ## The prospects of two decoders -/

variable {d d' : Decoder}

/-- **Decoders with the same bytes to come have alike prospects**, if the likeness follows their
locators. -/
theorem alike_prospect {k : Likeness} {L : Locator → Locator → Prop} (hL : Tracks L k.Positions)
    (hadmits : ∀ c, k.Admits c) (h : d.Agrees L d') : d.prospect.Alike k d'.prospect := by
  -- Each prospect unfolds by one code point, and the decoders agree again behind it.
  induction hn : d.size using Nat.strongRecOn generalizing d d' with
  | ind n ih =>
    subst hn
    have hnext := simulates_next hL h
    cases hd : d.next with
    | ok l e =>
      rw [hd] at hnext
      obtain ⟨l', e', hd', ⟨hcode, hposition⟩, he⟩ := hnext.of_ok
      obtain ⟨code?, position⟩ := l
      obtain ⟨code?', position'⟩ := l'
      obtain rfl : code? = code?' := hcode
      cases code? with
      | none =>
        rw [prospect_of_none hd, prospect_of_none hd']
        exact ⟨.nil, .ok hposition⟩
      | some c =>
        rw [prospect_of_some hd, prospect_of_some hd']
        obtain ⟨hlookaheads, hending⟩ := ih _ (size_of_next hd) he rfl
        exact ⟨.cons ⟨rfl, hposition, fun c _ => hadmits c⟩ hlookaheads, hending⟩
    | error fault e =>
      rw [hd] at hnext
      obtain ⟨fault', e', hd', rfl, he⟩ := hnext.of_error
      rw [prospect_of_error hd, prospect_of_error hd']
      exact ⟨.nil, .error ⟨rfl, hL.position he.locator⟩⟩

/-- The end is decoded only where no bytes are left. -/
theorem contents_of_next_none {position : Position} (hd : d.Serves)
    (h : d.next = .ok ⟨none, position⟩ d') : d.contents = [] := by
  obtain ⟨byte?, e, hbyte, h⟩ := ok_of_bind h
  cases byte? with
  | none => exact (ending_of_nextByte_none hd hbyte).1
  | some lead =>
    obtain ⟨_, _, _, h⟩ := ok_of_bind h
    obtain ⟨_, _, _, h⟩ := ok_of_bind h
    cases h

end Decoder

end RdfTurtle
