import RdfTurtle.Proofs.Recognition.Numbers
import RdfTurtle.Proofs.Recognition.Taking

/-! # Keywords and the names they begin

A word of letters is a keyword only if it does not go on as the namespace of a prefixed name, and a
namespace is read alike whether or not it begins like a keyword.

* **`Apart`**, **`ApartBehindDots`** — what may stand behind a keyword.
* **`State.takes_keyword`** — a keyword is taken in each of its spellings and ends so.
* **`Scan.SameNamespaces`**, **`State.takes_namespace`** — a namespace is taken from within a
  keyword as from within a name. -/

namespace RdfTurtle

/-- What follows cannot go on a name: neither a character of names, nor a colon, nor a dot. -/
def Apart (rest : List CodePoint) : Prop :=
  ∀ c ∈ rest.head?, c ∉ CharClass.nameChar ∧ c ≠ ':' ∧ c ≠ '.'

/-- What follows cannot go on a name, even if it begins with dots. -/
def ApartBehindDots (rest : List CodePoint) : Prop :=
  (∀ c ∈ rest.head?, c ≠ ':') ∧
    ∀ c ∈ (rest.dropWhile (· = CodePoint.ofChar '.')).head?, c ∉ CharClass.nameChar

/-- What has to follow a keyword: dots behind a boolean may end a statement. -/
def Keyword.EndsBefore (k : Keyword) (rest : List CodePoint) : Prop :=
  if k.isBoolean then ApartBehindDots rest else Apart rest

/-- The two runs come to the same namespaces. -/
def Scan.SameNamespaces (r r' : Scan) : Prop :=
  ∀ text, r.Takes .namespaceName text ↔ r'.Takes .namespaceName text

namespace State

open Move (Chosen)

variable {iri : Strictness} {p : Production} {st : State} {c : CodePoint} {k : Keyword}
  {letters : List Char} {ds cs text : List CodePoint}

/-! ## Keywords -/

/-- No keyword is a namespace. -/
theorem production_ne_namespaceName (k : Keyword) : k.production ≠ .namespaceName := by
  cases k <;> decide

/-- The words of booleans are tokens of one kind. -/
theorem production_of_isBoolean (hk : k.isBoolean = true) : k.production = .boolean := by
  cases k <;> first | rfl | cases hk

/-- There is no move within a name exactly where what follows cannot go it on. -/
theorem ofNamespace_eq_none :
    Move.ofNamespace c = none ↔ c ∉ CharClass.nameChar ∧ c ≠ ':' ∧ c ≠ '.' := by
  rw [Move.ofNamespace]
  split_ifs <;> simp_all

/-- Dots behind a boolean are given back unless a name goes on behind them. -/
theorem takes_booleanDots :
    (State.booleanDots.scan iri ds cs).Takes .boolean [] ↔
      ∀ c ∈ (cs.dropWhile (· = CodePoint.ofChar '.')).head?, c ∉ CharClass.nameChar := by
  induction cs generalizing ds with
  | nil => simp [Scan.Takes, scan, accepting]
  | cons c cs ih =>
    by_cases hname : c ∈ CharClass.nameChar
    · have hnext : State.booleanDots.next iri c = some (.take .namespaceBody) := by
        simp only [next, if_pos hname]
      have hdot : c ≠ '.' := fun h => Syntax.dot_notMem_nameChar (h ▸ hname)
      rw [takes_of_take hnext]
      simp [hdot, hname]
    · by_cases hdot : c = '.'
      · have hnext : State.booleanDots.next iri c = some (.defer .booleanDots) := by
          simp only [next, if_neg hname, if_pos hdot]
        rw [takes_of_defer hnext, ih]
        simp [hdot]
      · have hnext : State.booleanDots.next iri c = none := by
          simp only [next, if_neg hname, if_neg hdot]
        rw [takes_of_stuck hnext]
        simp [accepting, hdot, hname]

/-- A word that does not go on as a name is a keyword. -/
theorem takes_word (hnext : (State.keyword k []).next iri c = Move.ofNamespace c) :
    ((State.keyword k []).scan iri [] (c :: cs)).Takes k.production [] ↔
      c ∉ CharClass.nameChar ∧ c ≠ ':' ∧ c ≠ '.' := by
  rw [← ofNamespace_eq_none]
  cases hm : Move.ofNamespace c with
  | none =>
    rw [takes_of_stuck (hnext.trans hm)]
    simp [accepting]
  | some m =>
    rcases cases_of_ofNamespace hm with ⟨-, rfl⟩ | ⟨-, rfl⟩ | ⟨-, rfl⟩
    · simp [takes_of_finish (hnext.trans hm)]
    · simp [takes_of_take (hnext.trans hm)]
    · simp [takes_of_take (hnext.trans hm)]

/-- A word is a keyword if it ends before what follows. -/
theorem takes_keyword_nil :
    ((State.keyword k []).scan iri [] cs).Takes k.production [] ↔ k.EndsBefore cs := by
  cases cs with
  | nil => simp [Scan.Takes, scan, accepting, Keyword.EndsBefore, Apart, ApartBehindDots]
  | cons c cs =>
    by_cases hk : k.isBoolean
    · rw [Keyword.EndsBefore, if_pos hk, ApartBehindDots]
      by_cases hdot : c = '.'
      · have hnext : (State.keyword k []).next iri c = some (.defer .booleanDots) := by
          simp only [next, if_pos (And.intro hk hdot)]
        rw [takes_of_defer hnext, production_of_isBoolean hk, takes_booleanDots]
        simp [hdot]
      · rw [takes_word (by simp [next, hdot])]
        simp [hdot, and_comm]
    · rw [Keyword.EndsBefore, if_neg hk, takes_word (by simp [next, hk])]
      simp [Apart]

/-- **A keyword is taken in each of its spellings** if it ends before what follows. -/
theorem takes_keyword :
    ((State.keyword k letters).scan iri [] (text ++ cs)).Takes k.production text ↔
      List.Forall₂ k.Reads letters text ∧ k.EndsBefore cs := by
  -- What is taken is a spelling in any case; a spelling is followed letter by letter.
  rw [← and_iff_right_of_imp fun h =>
    (keyword_of_path (path_of_takes h) (production_ne_namespaceName k)).2]
  refine and_congr_right fun hreads => ?_
  induction hreads with
  | nil => exact takes_keyword_nil
  | @cons x c letters text hread _ ih =>
    have hnext : (State.keyword k (x :: letters)).next iri c =
        some (.take (.keyword k letters)) := by
      simp only [next, if_pos hread]
    rw [List.cons_append, takes_cons_of_take hnext, ih]

/-! ## Namespaces -/

/-- A character of names goes on a name. -/
theorem ofNamespace_of_nameChar (h : c ∈ CharClass.nameChar) :
    Move.ofNamespace c = some (.take .namespaceBody) := by
  have hcolon : c ≠ ':' := fun hc => Syntax.colon_notMem_nameChar (hc ▸ h)
  rw [Move.ofNamespace, if_neg hcolon, if_pos h]

/-- Behind all letters of a keyword a namespace goes on as within a name; only a dot behind a
boolean is deferred and not taken. -/
theorem sameNamespaces_word
    (hdots : ∀ ds, (State.booleanDots.scan iri ds cs).SameNamespaces
      ((State.namespaceDots.scan iri [] cs).after ds)) :
    ((State.keyword k []).scan iri [] (c :: cs)).SameNamespaces
      (State.namespaceBody.scan iri [] (c :: cs)) := by
  intro text
  by_cases hdot : k.isBoolean ∧ c = '.'
  · have hnext : (State.keyword k []).next iri c = some (.defer .booleanDots) := by
      simp only [next, if_pos hdot]
    have hbody : State.namespaceBody.next iri c = some (.take .namespaceDots) := by
      rw [hdot.2]
      simp [next, Move.ofNamespace, Syntax.dot_notMem_nameChar]
    rw [takes_of_defer hnext, scan_of_take hbody]
    exact hdots _ text
  · have haccepting : (State.keyword k []).accepting = some .namespaceName ↔
        State.namespaceBody.accepting = some .namespaceName := by
      simp [accepting, production_ne_namespaceName]
    exact takes_congr (by simp only [next, if_neg hdot]) haccepting

/-- The next letter of a keyword is a character of a name as well. -/
theorem sameNamespaces_letter {x : Char} (hx : x ∈ k.tail)
    (hletters : ((State.keyword k letters).scan iri [] cs).SameNamespaces
      (State.namespaceBody.scan iri [] cs)) :
    ((State.keyword k (x :: letters)).scan iri [] (c :: cs)).SameNamespaces
      (State.namespaceBody.scan iri [] (c :: cs)) := by
  intro text
  by_cases hread : k.Reads x c
  · have hname := Keyword.nameChar_of_reads hx hread
    have hnext : (State.keyword k (x :: letters)).next iri c =
        some (.take (.keyword k letters)) := by
      simp only [next, if_pos hread]
    have hbody : State.namespaceBody.next iri c = some (.take .namespaceBody) :=
      ofNamespace_of_nameChar hname
    rw [takes_of_take hnext, takes_of_take hbody]
    simp only [hletters _]
  · exact takes_congr (by simp only [next, if_neg hread]) (by simp [accepting])

/-- Behind dots a namespace goes on alike, whether they are deferred or taken. -/
theorem sameNamespaces_booleanDots
    (hdots : ∀ ds, (State.booleanDots.scan iri ds cs).SameNamespaces
      ((State.namespaceDots.scan iri [] cs).after ds)) :
    (State.booleanDots.scan iri ds (c :: cs)).SameNamespaces
      ((State.namespaceDots.scan iri [] (c :: cs)).after ds) := by
  intro text
  by_cases hname : c ∈ CharClass.nameChar
  · have hnext : State.booleanDots.next iri c = some (.take .namespaceBody) := by
      simp only [next, if_pos hname]
    have hbody : State.namespaceDots.next iri c = some (.take .namespaceBody) := by
      simp only [next, if_pos hname]
    rw [scan_of_take hnext, scan_of_take hbody, Scan.after_after]
    rfl
  · by_cases hdot : c = '.'
    · have hnext : State.booleanDots.next iri c = some (.defer .booleanDots) := by
        simp only [next, if_neg hname, if_pos hdot]
      have hbody : State.namespaceDots.next iri c = some (.take .namespaceDots) := by
        simp only [next, if_neg hname, if_pos hdot]
      rw [takes_of_defer hnext, scan_of_take hbody, hdots _ text, Scan.after_after]
      rfl
    · have hnext : State.booleanDots.next iri c = none := by
        simp only [next, if_neg hname, if_neg hdot]
      have hbody : State.namespaceDots.next iri c = none := by
        simp only [next, if_neg hname, if_neg hdot]
      rw [takes_of_stuck hnext, Scan.takes_after]
      simp [takes_of_stuck hbody, accepting]

/-- **A namespace may begin like a keyword**: from within a keyword it is taken as from within a
name, and from behind dots that a boolean would give back as from behind dots of a name. -/
theorem takes_namespace (cs : List CodePoint) :
    (∀ (k : Keyword) (letters : List Char), letters <:+ k.tail →
      ((State.keyword k letters).scan iri [] cs).SameNamespaces
        (State.namespaceBody.scan iri [] cs)) ∧
      ∀ ds : List CodePoint, (State.booleanDots.scan iri ds cs).SameNamespaces
        ((State.namespaceDots.scan iri [] cs).after ds) := by
  -- Both at once, as a dot leads from the one to the other.
  induction cs with
  | nil =>
    constructor
    · intro k letters _ text
      cases letters <;> simp [Scan.Takes, scan, accepting, production_ne_namespaceName]
    · intro ds text
      simp [Scan.Takes, scan, accepting, Scan.after]
  | cons c cs ih =>
    obtain ⟨hkeyword, hdots⟩ := ih
    refine ⟨fun k letters hletters => ?_, fun ds => sameNamespaces_booleanDots hdots⟩
    cases letters with
    | nil => exact sameNamespaces_word hdots
    | cons x letters =>
      exact sameNamespaces_letter (hletters.subset List.mem_cons_self)
        (hkeyword k letters ((List.suffix_cons x letters).trans hletters))

end State

end RdfTurtle
