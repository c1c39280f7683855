import RdfTurtle.Proofs.Recognition.Bodies

/-! # Recognizing names

* **`Label.accepts`**, **`Namespace.accepts`**, **`LocalName.accepts`** — names are read to their
  end. A dot belongs to a name if the name goes on behind it.
* **`NamesIri`** — the places at which an IRI may be named. -/

namespace RdfTurtle.Syntax

open State

variable {iri : Strictness} {p : Production} {rest : List CodePoint} {st : State} {text : List Char}

/-! ## Labels -/

/-- Without its first element a list ends as before, unless nothing is left. -/
theorem getLast?_of_cons {α : Type} {x y : α} {xs : List α} (h : (x :: xs).getLast? ≠ some y) :
    xs.getLast? ≠ some y := by
  intro hlast
  apply h
  rw [List.getLast?_cons, hlast]
  rfl

/-- A list whose last element is not its first one goes on. -/
theorem ne_nil_of_getLast? {α : Type} {x : α} {xs : List α} (h : (x :: xs).getLast? ≠ some x) :
    xs ≠ [] := by
  intro hnil
  subst hnil
  exact h rfl

/-- A label goes on with characters of names, and with dots as long as such a character follows. -/
theorem accepts_label {chars ds : List Char} (hds : chars = [] → ds = [])
    (hchars : ∀ y ∈ chars, (y : CodePoint) ∈ CharClass.nameChar ∨ y = '.')
    (hlast : chars.getLast? ≠ some '.') (hrest : Separated rest) :
    Accepts iri .blankNodeLabel rest .label ds chars := by
  -- Deferred dots count if the label goes on; at its end there are none, as it does not end with
  -- a dot.
  induction chars generalizing ds with
  | nil =>
    rw [hds rfl]
    exact .stop_separated rfl (by decide) hrest
  | cons y chars ih =>
    have hmore := fun z hz => hchars z (List.mem_cons_of_mem y hz)
    have hlast' := getLast?_of_cons hlast
    by_cases hy : (y : CodePoint) ∈ CharClass.nameChar
    · have hnext : State.label.next iri y = some (.take .label) := by simp only [next, if_pos hy]
      exact .take hnext (ih (fun _ => rfl) hmore hlast')
    · have hdot : y = '.' := (hchars y List.mem_cons_self).resolve_left hy
      subst hdot
      have hnext : State.label.next iri '.' = some (.defer .label) := by
        simp only [next, if_neg hy, if_true]
      exact .defer hnext (ih (fun h => absurd h (ne_nil_of_getLast? hlast)) hmore hlast')

/-- A blank node label is read to its end. -/
theorem Label.accepts (l : Label) (hst : st.next iri '_' = some (.take .labelColon))
    (hrest : Separated rest) : Accepts iri .blankNodeLabel rest st [] l.text := by
  obtain ⟨chars, hlabel⟩ := l
  have hcolon : State.labelColon.next iri ':' = some (.take .labelFirst) := by
    simp only [next, if_true]
  cases chars with
  | nil => exact hlabel.elim
  | cons x chars =>
    obtain ⟨hfirst, hchars, hlast⟩ := hlabel
    have hnext : State.labelFirst.next iri x = some (.take .label) := by
      simp only [next, if_pos hfirst]
    exact .take hst (.take hcolon (.take hnext
      (accepts_label (fun _ => rfl) hchars hlast hrest)))

/-- Neither a colon nor a dot is a character of names. -/
theorem colon_notMem_nameChar : CodePoint.ofChar ':' ∉ CharClass.nameChar := by decide +kernel

/-- A dot is no character of names. -/
theorem dot_notMem_nameChar : CodePoint.ofChar '.' ∉ CharClass.nameChar := by decide +kernel

/-- The states within the name of a namespace. A keyword is one as long as it may turn out to be a
name. -/
inductive InNamespace : State → Prop
  | body : InNamespace .namespaceBody
  | keyword (k : Keyword) {rest : List Char} (h : rest <:+ k.tail) : InNamespace (.keyword k rest)

/-- The states behind a dot in the name of a namespace. -/
inductive AfterDots : State → Prop
  | dots : AfterDots .namespaceDots
  | booleanDots : AfterDots .booleanDots

/-- A character of a name leads on in the name. -/
theorem next_of_nameChar {x : Char} (hst : InNamespace st)
    (hx : (x : CodePoint) ∈ CharClass.nameChar) :
    ∃ st', st.next iri x = some (.take st') ∧ InNamespace st' := by
  have hcolon : (x : CodePoint) ≠ ':' := fun h => colon_notMem_nameChar (h ▸ hx)
  have hdot : (x : CodePoint) ≠ '.' := fun h => dot_notMem_nameChar (h ▸ hx)
  have hbody : Move.ofNamespace x = some (.take .namespaceBody) := by
    rw [Move.ofNamespace, if_neg hcolon, if_pos hx]
  cases hst with
  | body => exact ⟨_, hbody, .body⟩
  | @keyword k letters h =>
    cases letters with
    | nil =>
      have hno : ¬ (k.isBoolean = true ∧ (x : CodePoint) = '.') := fun h => hdot h.2
      exact ⟨_, by simp only [next, if_neg hno, hbody], .body⟩
    | cons y letters =>
      by_cases hy : k.Reads y x
      · have hsuffix : letters <:+ k.tail := (List.suffix_cons y letters).trans h
        exact ⟨_, by simp only [next, if_pos hy], .keyword k hsuffix⟩
      · exact ⟨_, by simp only [next, if_neg hy, hbody], .body⟩

/-- The colon ends the name. -/
theorem next_of_colon (hst : InNamespace st) :
    st.next iri ':' = some (.finish .namespaceName) := by
  have hcolon : Move.ofNamespace ':' = some (.finish .namespaceName) := by
    rw [Move.ofNamespace, if_pos rfl]
  cases hst with
  | body => exact hcolon
  | @keyword k letters h =>
    cases letters with
    | nil => simpa [next] using hcolon
    | cons y letters =>
      have hno : ¬ k.Reads y ':' := fun hy =>
        colon_notMem_nameChar (Keyword.nameChar_of_reads (h.subset List.mem_cons_self) hy)
      simp only [next, if_neg hno, hcolon]

/-- A dot in a name is taken or deferred. -/
theorem next_of_dot (hst : InNamespace st) : ∃ st', AfterDots st' ∧
    (st.next iri '.' = some (.take st') ∨ st.next iri '.' = some (.defer st')) := by
  have hdot : Move.ofNamespace '.' = some (.take .namespaceDots) := by
    simp [Move.ofNamespace, dot_notMem_nameChar]
  cases hst with
  | body => exact ⟨_, .dots, Or.inl hdot⟩
  | @keyword k letters h =>
    cases letters with
    | nil =>
      by_cases hk : k.isBoolean = true
      · exact ⟨_, .booleanDots, Or.inr (by simp [next, hk])⟩
      · exact ⟨_, .dots, Or.inl (by simp [next, hk, hdot])⟩
    | cons y letters =>
      have hno : ¬ k.Reads y '.' := fun hy =>
        dot_notMem_nameChar (Keyword.nameChar_of_reads (h.subset List.mem_cons_self) hy)
      exact ⟨_, .dots, Or.inl (by simp only [next, if_neg hno, hdot])⟩

/-- Behind dots a character of a name leads back into the name. -/
theorem next_afterDots {x : Char} (hst : AfterDots st)
    (hx : (x : CodePoint) ∈ CharClass.nameChar) :
    st.next iri x = some (.take .namespaceBody) := by
  cases hst <;> simp only [next, if_pos hx]

/-- Dots may follow each other. -/
theorem next_dot_afterDots (hst : AfterDots st) :
    st.next iri '.' = some (.take st) ∨ st.next iri '.' = some (.defer st) := by
  cases hst with
  | dots => exact Or.inl (by simp only [next, if_neg dot_notMem_nameChar, if_true])
  | booleanDots => exact Or.inr (by simp only [next, if_neg dot_notMem_nameChar, if_true])

/-- The rest of the name of a namespace is read to its colon, from within the name and from behind
dots. -/
theorem accepts_namespace {chars : List Char}
    (hchars : ∀ y ∈ chars, (y : CodePoint) ∈ CharClass.nameChar ∨ y = '.')
    (hlast : chars.getLast? ≠ some '.') :
    (∀ st, InNamespace st → Accepts iri .namespaceName rest st [] (chars ++ [':'])) ∧
      (chars ≠ [] → ∀ st ds, AfterDots st →
        Accepts iri .namespaceName rest st ds (chars ++ [':'])) := by
  -- Both at once: a dot leads behind dots, and a character of a name back into the name.
  induction chars with
  | nil =>
    constructor
    · intro st hst
      exact .finish (next_of_colon hst)
    · exact fun h => absurd rfl h
  | cons y chars ih =>
    obtain ⟨hname, hdots⟩ :=
      ih (fun z hz => hchars z (List.mem_cons_of_mem y hz)) (getLast?_of_cons hlast)
    by_cases hy : (y : CodePoint) ∈ CharClass.nameChar
    · constructor
      · intro st hst
        obtain ⟨st', hnext, hst'⟩ := next_of_nameChar hst hy
        exact .take hnext (hname st' hst')
      · intro _ st ds hst
        exact .take (next_afterDots hst hy) (hname _ .body)
    · have hdot : y = '.' := (hchars y List.mem_cons_self).resolve_left hy
      subst hdot
      have hmore := hdots (ne_nil_of_getLast? hlast)
      constructor
      · intro st hst
        obtain ⟨st', hst', hnext | hnext⟩ := next_of_dot hst
        · exact .take hnext (hmore st' [] hst')
        · exact .defer hnext (hmore st' _ hst')
      · intro _ st ds hst
        rcases next_dot_afterDots hst with hnext | hnext
        · exact .take hnext (hmore st [] hst)
        · exact .defer hnext (hmore st _ hst)

/-- First characters of names are letters or lie beyond them. -/
theorem range_of_nameStart {c : CodePoint} (h : c ∈ CharClass.nameStart) :
    0x41 ≤ c.value ∧ c.value ≤ 0x5A ∨ 0x61 ≤ c.value := by
  simp [CharClass.nameStart, CharClass.mem_iff] at h
  omega

/-- The places at which an IRI may be named. -/
def NamesIri (r : Recognizer) : Prop :=
  r = .statement ∨ r = .predicate ∨ r = .object ∨ r = .datatype

/-- An IRI reference begins with an angle bracket wherever an IRI may be named. -/
theorem next_of_bracket {r : Recognizer} (hr : NamesIri r ∨ r = .iriRef) :
    (State.start r).next iri '<' = some (.take (.body .iri)) := by
  rcases hr with (rfl | rfl | rfl | rfl) | rfl <;>
    simp [next, Move.ofResource, Keyword.Reads, Keyword.foldsCase, CharClass.sign,
      CharClass.digit, CharClass.mem_iff]

/-- A colon by itself names the namespace without characters. -/
theorem next_of_startColon {r : Recognizer} (hr : NamesIri r ∨ r = .namespaceName) :
    (State.start r).next iri ':' = some (.finish .namespaceName) := by
  rcases hr with (rfl | rfl | rfl | rfl) | rfl <;>
    simp [next, Move.ofResource, Keyword.Reads, Keyword.foldsCase, CharClass.sign,
      CharClass.digit, CharClass.mem_iff]

/-- A first character of a name begins a namespace wherever an IRI may be named. -/
theorem next_of_nameStart {r : Recognizer} {x : Char} (hr : NamesIri r ∨ r = .namespaceName)
    (hx : (x : CodePoint) ∈ CharClass.nameStart) :
    ∃ st', (State.start r).next iri x = some (.take st') ∧ InNamespace st' := by
  have hrange := range_of_nameStart hx
  have hne (y : Char) (hy : ¬ (0x41 ≤ y.toNat ∧ y.toNat ≤ 0x5A ∨ 0x61 ≤ y.toNat)) :
      (x : CodePoint) ≠ y := by
    intro h
    rw [h] at hrange
    exact hy hrange
  have hcolon := hne ':' (by decide)
  have hresource : Move.ofResource x = some (.take .namespaceBody) := by
    rw [Move.ofResource, if_neg (hne '<' (by decide)), if_neg hcolon, if_pos hx]
  have hkeyword (k : Keyword) : ∃ st', Move.ofKeyword k = some (.take st') ∧ InNamespace st' :=
    ⟨_, rfl, .keyword k (List.suffix_refl _)⟩
  -- The letters of a keyword are tried before a name: then the name begins as the keyword does.
  rcases hr with (rfl | rfl | rfl | rfl) | rfl
  · simp only [next, if_neg (hne '@' (by decide)), if_neg (hne '_' (by decide))]
    split
    · exact hkeyword .sparqlBase
    · split
      · exact hkeyword .sparqlPrefix
      · exact ⟨_, hresource, .body⟩
  · simp only [next, if_neg (hne ';' (by decide)), if_neg (hne '.' (by decide))]
    split
    · exact hkeyword .typeWord
    · exact ⟨_, hresource, .body⟩
  · have hsign : (x : CodePoint) ∉ CharClass.sign := by
      intro h
      simp [CharClass.sign, CharClass.mem_iff] at h
      simp at hrange
      omega
    have hdigit : (x : CodePoint) ∉ CharClass.digit := by
      intro h
      rw [CharClass.mem_digit] at h
      omega
    simp only [next, if_neg (hne '_' (by decide)), if_neg (hne '.' (by decide)),
      if_neg (hne '"' (by decide)), if_neg (hne '\'' (by decide)), if_neg hsign, if_neg hdigit]
    split
    · exact hkeyword .trueWord
    · split
      · exact hkeyword .falseWord
      · exact ⟨_, hresource, .body⟩
  · exact ⟨_, hresource, .body⟩
  · exact ⟨_, by simp only [next, if_neg hcolon, if_pos hx], .body⟩

/-- A namespace is read to its colon. -/
theorem Namespace.accepts {r : Recognizer} (n : Namespace)
    (hr : NamesIri r ∨ r = .namespaceName) :
    Accepts iri .namespaceName rest (.start r) [] n.text := by
  obtain ⟨chars, hname⟩ := n
  cases chars with
  | nil => exact .finish (next_of_startColon hr)
  | cons x chars =>
    obtain ⟨hfirst, hchars, hlast⟩ := hname (by simp)
    obtain ⟨st', hnext, hst'⟩ := next_of_nameStart hr hfirst
    exact .take hnext ((accepts_namespace hchars hlast).1 st' hst')

/-! ### Local names -/

/-- A piece of a local name other than a dot is taken. -/
theorem LocalPiece.accepts {ds : List Char} (piece : LocalPiece) (hpiece : piece ≠ .dot)
    (hst : st = .body .localName ∨ st = .start .localName ∧ piece.Begins)
    (hmore : Accepts iri p rest (.body .localName) [] text) :
    Accepts iri p rest st ds (piece.text ++ text) := by
  -- At the start and behind it the automaton differs only in the plain characters.
  cases piece with
  | plain x h =>
    have hnext : st.next iri x = some (.take (.body .localName)) := by
      rcases hst with rfl | ⟨rfl, hbegins⟩
      · simp only [next, if_pos h]
      · simp only [next, if_pos (show (x : CodePoint) ∈ CharClass.localStart from hbegins)]
    exact .take hnext hmore
  | dot => exact absurd rfl hpiece
  | percent x y hx hy =>
    have hnext : st.next iri '%' = some (.take (.hex 1 .localName)) := by
      rcases hst with rfl | ⟨rfl, -⟩ <;>
        simp [next, CharClass.localStart, CharClass.localChar, CharClass.mem_iff]
    have hdigits : ∀ z ∈ [x, y], (z : CodePoint) ∈ CharClass.hexDigit := by
      intro z hz
      rcases List.mem_pair.1 hz with rfl | rfl
      · exact hx
      · exact hy
    exact .take hnext (accepts_hex rfl hdigits hmore)
  | escape x h =>
    have hnext : st.next iri '\\' = some (.take (.escape .localName)) := by
      rcases hst with rfl | ⟨rfl, -⟩ <;>
        simp [next, CharClass.localStart, CharClass.localChar, CharClass.mem_iff]
    have hescape : (State.escape .localName).next iri x = some (.take (.body .localName)) := by
      simp only [next, if_pos h]
    exact .take hnext (.take hescape hmore)

/-- A local name goes on with pieces, and with dots as long as another piece follows. -/
theorem accepts_localBody {pieces : List LocalPiece} {ds : List Char} (hds : pieces = [] → ds = [])
    (hlast : pieces.getLast? ≠ some .dot) (hrest : Separated rest) :
    Accepts iri .localName rest (.body .localName) ds (pieces.flatMap LocalPiece.text) := by
  induction pieces generalizing ds with
  | nil =>
    rw [hds rfl]
    exact .stop_separated rfl (by decide) hrest
  | cons piece pieces ih =>
    have hlast' := getLast?_of_cons hlast
    by_cases hpiece : piece = .dot
    · subst hpiece
      have hnext : (State.body .localName).next iri '.' = some (.defer (.body .localName)) := by
        simp [next, CharClass.localChar, CharClass.mem_iff]
      exact .defer hnext (ih (fun h => absurd h (ne_nil_of_getLast? hlast)) hlast')
    · exact piece.accepts hpiece (Or.inl rfl) (ih (fun _ => rfl) hlast')

/-- A local name is read to its end. -/
theorem LocalName.accepts (n : LocalName) (hrest : Separated rest) :
    Accepts iri .localName rest (.start .localName) [] n.text := by
  obtain ⟨pieces, hbegins, hlast⟩ := n
  cases pieces with
  | nil => exact .stop_separated rfl (by decide) hrest
  | cons piece pieces =>
    have hfirst : piece.Begins := hbegins piece rfl
    have hpiece : piece ≠ .dot := by
      intro hdot
      rw [hdot] at hfirst
      exact hfirst
    exact piece.accepts hpiece (Or.inr ⟨rfl, hfirst⟩)
      (accepts_localBody (fun _ => rfl) (getLast?_of_cons hlast) hrest)

end RdfTurtle.Syntax
