import RdfTurtle.CodePoint

/-! # Character classes

A **character class** is a sorted table of disjoint ranges of code points. Membership is stated
without the order (`some range holds the code point`) and decided with it, by binary search.

* **`CharClass`** — the table, its order a field.
* **`CharClass.contains`** — binary search in it.
* **`CharClass.contains_iff`** — the search answers membership. -/

namespace RdfTurtle

/-- The numbers from `first` to `last`, both included. -/
structure Range where
  first : Nat
  last : Nat
  first_le_last : first ≤ last := by decide

instance : Membership CodePoint Range := ⟨fun r c => r.first ≤ c.value ∧ c.value ≤ r.last⟩

/-- A code point is in a range when it lies between the ends. -/
theorem Range.mem_iff {c : CodePoint} {r : Range} :
    c ∈ r ↔ r.first ≤ c.value ∧ c.value ≤ r.last := Iff.rfl

/-- Disjoint ranges in ascending order. -/
structure CharClass where
  ranges : Array Range
  sorted : ranges.toList.Pairwise (fun a b => a.last < b.first) := by decide

namespace CharClass

instance : Membership CodePoint CharClass := ⟨fun k c => ∃ r ∈ k.ranges, c ∈ r⟩

/-- A code point is in a class when some range of the class holds it. -/
theorem mem_iff {c : CodePoint} {k : CharClass} :
    c ∈ k ↔ ∃ r ∈ k.ranges, r.first ≤ c.value ∧ c.value ≤ r.last := Iff.rfl

/-- Looks for `c` among the ranges with index from `lo` up to `hi`, which is not included. -/
def search (ranges : Array Range) (c : CodePoint) (lo hi : Nat) : Bool :=
  if h : lo < hi ∧ hi ≤ ranges.size then
    let mid := lo + (hi - lo) / 2
    have : mid < ranges.size := by omega
    if c.value < ranges[mid].first then search ranges c lo mid
    else if ranges[mid].last < c.value then search ranges c (mid + 1) hi
    else true
  else false
termination_by hi - lo

/-- Earlier ranges of a sorted table end before later ones begin. -/
theorem last_lt_first (k : CharClass) {i j : Nat} (hi : i < k.ranges.size)
    (hj : j < k.ranges.size) (hij : i < j) : k.ranges[i].last < k.ranges[j].first := by
  have h := List.pairwise_iff_getElem.1 k.sorted i j (by simpa using hi) (by simpa using hj) hij
  simpa using h

/-- On a sorted table the search finds a range exactly when one with an index in `[lo, hi)` holds
the code point. -/
theorem search_iff (k : CharClass) (c : CodePoint) (lo hi : Nat) (hhi : hi ≤ k.ranges.size) :
    search k.ranges c lo hi = true ↔
      ∃ i, ∃ h : i < k.ranges.size, lo ≤ i ∧ i < hi ∧ c ∈ k.ranges[i] := by
  -- A code point outside the middle range is in none on the other side of it, as the table is
  -- sorted.
  fun_induction search k.ranges c lo hi with
  | case1 lo hi h mid hmid hlt ih =>
    rw [ih (by omega)]
    constructor
    · rintro ⟨i, hi', hlo, hlt', hmem⟩
      exact ⟨i, hi', hlo, by omega, hmem⟩
    · rintro ⟨i, hi', hlo, hlt', hmem⟩
      refine ⟨i, hi', hlo, ?_, hmem⟩
      rw [Range.mem_iff] at hmem
      by_cases him : i < mid
      · exact him
      · rcases Nat.lt_or_eq_of_le (Nat.le_of_not_lt him) with hgt | rfl
        · have h1 := k.last_lt_first hmid hi' hgt
          have h2 := k.ranges[mid].first_le_last
          omega
        · omega
  | case2 lo hi h mid hmid hge hlt ih =>
    rw [ih (by omega)]
    constructor
    · rintro ⟨i, hi', hlo, hlt', hmem⟩
      exact ⟨i, hi', by omega, hlt', hmem⟩
    · rintro ⟨i, hi', hlo, hlt', hmem⟩
      refine ⟨i, hi', ?_, hlt', hmem⟩
      rw [Range.mem_iff] at hmem
      by_cases him : mid < i
      · exact him
      · rcases Nat.lt_or_eq_of_le (Nat.le_of_not_lt him) with hgt | rfl
        · have h1 := k.last_lt_first hi' hmid hgt
          have h2 := k.ranges[mid].first_le_last
          omega
        · omega
  | case3 lo hi h mid hmid hge hle =>
    simp only [true_iff]
    exact ⟨mid, hmid, by omega, by omega, Range.mem_iff.2 ⟨by omega, by omega⟩⟩
  | case4 lo hi h =>
    simp only [Bool.false_eq_true, false_iff]
    rintro ⟨i, hi', hlo, hlt', -⟩
    omega

/-- Whether the class holds `c`, by binary search. -/
def contains (k : CharClass) (c : CodePoint) : Bool := search k.ranges c 0 k.ranges.size

/-- Binary search answers membership. -/
theorem contains_iff {k : CharClass} {c : CodePoint} : k.contains c = true ↔ c ∈ k := by
  rw [contains, search_iff k c 0 _ (Nat.le_refl _), mem_iff]
  constructor
  · rintro ⟨i, hi, -, -, hmem⟩
    exact ⟨k.ranges[i], Array.getElem_mem hi, hmem⟩
  · rintro ⟨r, hr, hmem⟩
    obtain ⟨i, hi, rfl⟩ := Array.mem_iff_getElem.1 hr
    exact ⟨i, hi, Nat.zero_le _, hi, hmem⟩

instance (k : CharClass) (c : CodePoint) : Decidable (c ∈ k) :=
  decidable_of_iff _ contains_iff

end CharClass

end RdfTurtle
