import RdfTurtle.Proofs.WellFormed
import RdfTurtle.Iri.Standard

/-! # Rereading what was yielded

A yielded triple need not be read back from its printed form: an IRI may have a `>` or a backslash,
which an escape in the document stood for, and is printed as it is. The `>` then ends the reference
before its end, and the backslash begins an escape, so that another IRI is read or none at all.
These two characters are all that can go wrong.

* **`Token.Cuts`** — a token is an IRI reference that ends at the first `>` of a text.
* **`Parser.plain_of_resource`** — only an IRI without the two characters is read back.
* **`Parser.plain_of_next`** — a printed triple that is read back has only such IRIs.
* **`reread_iff_plain`** — a yielded triple is read back exactly if it has only such IRIs. -/

namespace RdfTurtle

open Syntax

/-! ## Brackets -/

namespace State

/-- The states between angle brackets. -/
inductive InIri : State → Prop
  | body : InIri (.body .iri)
  | escape : InIri (.escape .iri)
  | hex (n : Nat) : InIri (.hex n .iri)

variable {iri : Strictness} {st : State}

/-- Between angle brackets a `>` ends the token wherever it may stand, and nothing else does. -/
theorem next_of_inIri (hst : InIri st) {x : Char} {m : Move} (h : st.next iri x = some m) :
    x = '>' ∧ m = .finish .iriRef ∨ x ≠ '>' ∧ ∃ st', m = .take st' ∧ InIri st' := by
  -- Only the body looks for a `>`; an escape and its digits do not admit it.
  cases hst with
  | body =>
    simp only [next] at h
    split at h
    · cases h
    · split at h
      · next hx => exact Or.inl ⟨CodePoint.ofChar_inj.1 hx, (Option.some.inj h).symm⟩
      · next hx =>
        have hx : x ≠ '>' := fun h => hx (CodePoint.ofChar_inj.2 h)
        split at h
        · exact Or.inr ⟨hx, _, (Option.some.inj h).symm, .escape⟩
        · exact Or.inr ⟨hx, _, (Option.some.inj h).symm, .body⟩
  | escape =>
    have hx : x ≠ '>' := by
      rintro rfl
      simp [next, Move.ofNumericEscape] at h
    simp only [next, Move.ofNumericEscape] at h
    split at h
    · exact Or.inr ⟨hx, _, (Option.some.inj h).symm, .hex 3⟩
    · split at h
      · exact Or.inr ⟨hx, _, (Option.some.inj h).symm, .hex 7⟩
      · cases h
  | hex n =>
    have hx : x ≠ '>' := by
      rintro rfl
      simp [next, CharClass.hexDigit, CharClass.mem_iff] at h
    simp only [next] at h
    split at h
    · cases n with
      | zero => exact Or.inr ⟨hx, _, (Option.some.inj h).symm, .body⟩
      | succ n => exact Or.inr ⟨hx, _, (Option.some.inj h).symm, .hex n⟩
    · cases h

/-- A token that is read from between angle brackets ends at the first `>`. -/
theorem scan_of_inIri (hst : InIri st) {text : List Char} {q : Production}
    (h : (st.scan iri [] (codes text)).production? = some q) :
    q = .iriRef ∧ ∃ w more : List Char, text = w ++ '>' :: more ∧ '>' ∉ w ∧
      (st.scan iri [] (codes text)).kept = codes (w ++ ['>']) := by
  -- The states between the brackets are kept by every step; none of them accepts, so the text
  -- cannot have ended.
  have haccepting : st.accepting = none := by cases hst <;> rfl
  induction text generalizing st with
  | nil =>
    have hnone : st.accepting = some q := h
    rw [haccepting] at hnone
    cases hnone
  | cons x text ih =>
    rw [codes_cons] at h ⊢
    cases hnext : st.next iri x with
    | none =>
      have hnone : ∀ c ∈ (CodePoint.ofChar x :: codes text).head?, st.next iri c = none := by
        intro c hc
        rw [← Option.some.inj hc]
        exact hnext
      rw [scan_of_none hnone, haccepting] at h
      cases h
    | some m =>
      rcases next_of_inIri hst hnext with ⟨rfl, rfl⟩ | ⟨hx, st', rfl, hst'⟩
      · rw [scan_of_finish hnext] at h ⊢
        exact ⟨(Option.some.inj h).symm, [], text, rfl, by simp, rfl⟩
      · have haccepting' : st'.accepting = none := by cases hst' <;> rfl
        rw [scan_of_take hnext] at h ⊢
        obtain ⟨hq, w, more, rfl, hw, hkept⟩ := ih hst' h haccepting'
        refine ⟨hq, x :: w, more, rfl, ?_, ?_⟩
        · exact fun hmem => (List.mem_cons.1 hmem).elim (fun h => hx h.symm) hw
        · rw [Scan.after, hkept]
          rfl

end State

/-- The token is the IRI reference that ends at the first `>` of the text behind its `<`. -/
def Token.Cuts (token : Token) (text : List Char) : Prop :=
  ∃ w more : List Char, text = w ++ '>' :: more ∧ '>' ∉ w ∧ token.Is .iriRef ('<' :: (w ++ ['>']))

/-- What is cut off at a `>` is an IRI reference. -/
theorem Token.Cuts.production {token : Token} {text : List Char} (h : token.Cuts text) :
    token.production = .iriRef := by
  obtain ⟨w, more, -, -, his⟩ := h
  exact his.1

/-- What is decoded from before the first `>` is the whole text before some `>` only if there is
nothing to decode. -/
theorem plain_of_decode {iri : String} {w more rest : List Char}
    (h : iri.toList ++ '>' :: rest = w ++ '>' :: more) (hw : '>' ∉ w)
    (hdecode : Escape.iri? w = some iri.toList) : PlainIri iri := by
  obtain ⟨hle, hlt⟩ := Escape.length_decode hdecode
  have heq : w = iri.toList := by
    rcases List.append_eq_append_iff.1 h with ⟨gap, hgap, hrest⟩ | ⟨gap, hgap, hrest⟩
    · cases gap with
      | nil => rw [hgap, List.append_nil]
      | cons x gap =>
        injection hrest with hx _
        subst hx
        rw [hgap] at hw
        simp at hw
    -- Decoding does not lengthen, so no text is cut off either.
    · rw [hgap, List.length_append] at hle
      have hgapnil : gap = [] := List.eq_nil_of_length_eq_zero (by omega)
      rw [hgap, hgapnil, List.append_nil]
  rw [heq] at hw hlt
  exact ⟨hw, fun hmem => Nat.lt_irrefl _ (hlt hmem)⟩

namespace Parser

variable {α β : Type} {iri : Strictness} {c : Context} {e : Expected} {p p' : Parser}

/-- What is known to succeed comes first in what succeeded. -/
theorem Reads.peel {start middle : Place} {x : Action α} {Q : α → Prop} {f : α → Action β} {b : β}
    (hx : Reads iri start x Q middle) (hp : p.Stands iri start) (h : (x >>= f) p = .ok b p') :
    ∃ a p₁, Q a ∧ p₁.Stands iri middle ∧ f a p₁ = .ok b p' := by
  obtain ⟨a, p₁, hx, ha, hp₁⟩ := hx p hp
  obtain ⟨a', p₁', hx', h⟩ := ok_of_bind h
  rw [hx] at hx'
  injection hx' with haa hpp
  subst haa hpp
  exact ⟨a, p₁, ha, hp₁, h⟩

/-- A token that begins with `<` is an IRI reference that ends at the first `>`. -/
theorem cuts_of_lex {r : Recognizer} (hr : NamesIri r ∨ r = .iriRef) {text : List Char}
    {token : Token} (hp : p.Stands iri ⟨c, e, codes ('<' :: text)⟩)
    (h : lex r p = .ok token p') : token.Cuts text ∧ p'.base? = c.base? := by
  have hanswer := Scanner.answers_recognize r hp.awaits
  have hscan : (State.start r).scan p.scanner.options.iri [] (codes ('<' :: text)) =
      ((State.body .iri).scan iri [] (codes text)).after [CodePoint.ofChar '<'] := by
    rw [hp.strictness, codes_cons, State.scan_of_take (next_of_bracket hr)]
    rfl
  -- The run behind the `<` is one between angle brackets, which ends at the first `>`.
  rw [hscan] at hanswer
  obtain ⟨l, scanner, hl, rfl, rfl⟩ := of_lex_ok h
  rw [hl] at hanswer
  generalize hresult : EStateM.Result.ok l scanner = result at hanswer
  cases hanswer with
  | @accepted q s' hproduction hawaits hextends =>
    injection hresult with hl' hs
    subst hl' hs
    obtain ⟨rfl, w, more, htext, hw, hkept⟩ := State.scan_of_inIri .body hproduction
    refine ⟨⟨w, more, htext, hw, rfl, ?_⟩, hp.base⟩
    have hchars : scanner.text = (Text.empty p.scanner.options.encoding).append
        (codes ('<' :: (w ++ ['>']))) := by
      rw [hextends.text, Scan.after, hkept]
      rfl
    show scanner.text.chars = _
    rw [hchars]
    exact Text.chars_append _ _
  | rejected => cases hresult

variable [IriLibrary]

/-- **Only an IRI without `>` and backslash is read back.** -/
theorem plain_of_resource {token : Token} {s text : String} {rest : List Char}
    (ht : token.Cuts (s.toList ++ '>' :: rest)) (hbase : p.base? = none)
    (h : resource token p = .ok text p') (heq : text = s) : PlainIri s := by
  subst heq
  obtain ⟨w, more, htext, hw, his⟩ := ht
  have hinner : token.inner 1 = w := inner_of_is (n := 1) his
  unfold resource at h
  rw [his.1] at h
  simp only [hinner] at h
  cases hdecode : Escape.iri? w with
  | none =>
    rw [hdecode] at h
    cases h
  | some reference =>
    rw [hdecode] at h
    obtain ⟨q, p₁, hq, h⟩ := ok_of_bind h
    injection hq with hq hp₁
    subst hq hp₁
    -- Without a base the reference is taken as it was decoded.
    rw [hbase] at h
    injection h with h _
    apply plain_of_decode htext hw
    rw [hdecode, ← h, String.toList_ofList]

/-! ## Moves -/

omit [IriLibrary] in
/-- Nothing but the space before a token is passed over with the blanks. -/
theorem solid_bracket (rest : List CodePoint) : Solid (CodePoint.ofChar '<' :: rest) := by
  intro c hc
  rw [← Option.some.inj hc]
  simp [CharClass.blank, CharClass.mem_iff]

/-- A statement that begins with `<` has the IRI between the brackets as its subject. -/
theorem subject_of_move {s : String} {rest : List Char} {o : Outcome} (hc : c.base? = none)
    (hp : p.Stands iri ⟨c, .statement, codes ('<' :: (s.toList ++ '>' :: rest))⟩)
    (h : move p = .ok o p') :
    o = .onward ∧ ∃ text, p'.expected = .predicate (.iri text) false ∧
      (text = s → PlainIri s) := by
  simp only [move, hp.expected] at h
  obtain ⟨_, p₁, -, hp₁, h⟩ := (reads_skipBlank ⟨[]⟩ (solid_bracket _)).peel hp h
  obtain ⟨q, p₂, hq, h⟩ := ok_of_bind h
  injection hq with hq hp₂
  subst hq hp₂
  rw [hp₁.awaits.atEnd] at h
  obtain ⟨token, p₃, hlex, h⟩ := ok_of_bind h
  obtain ⟨hcuts, hbase⟩ := cuts_of_lex (Or.inl (Or.inl rfl)) hp₁ hlex
  obtain ⟨_, p₄, hread, h⟩ := ok_of_bind h
  injection h with ho hp'
  subst ho hp'
  rw [readStatement, hcuts.production] at hread
  obtain ⟨text, p₅, hnamed, hexpect⟩ := ok_of_bind hread
  injection hexpect with _ hp₄
  subst hp₄
  exact ⟨rfl, text, rfl, plain_of_resource hcuts (hbase.trans hc) hnamed⟩

/-- A predicate that begins with `<` is the IRI between the brackets. -/
theorem predicate_of_move {subject : Term} {s : String} {rest : List Char} {o : Outcome}
    (hc : c.base? = none)
    (hp : p.Stands iri
      ⟨c, .predicate subject false, codes (' ' :: '<' :: (s.toList ++ '>' :: rest))⟩)
    (h : move p = .ok o p') :
    o = .onward ∧ ∃ text, p'.expected = .object subject (.iri text) ∧
      (text = s → PlainIri s) := by
  simp only [move, hp.expected] at h
  obtain ⟨token, p₁, hlex, h⟩ := ok_of_bind h
  obtain ⟨_, p₂, -, hp₂, hlex⟩ := (reads_skipBlank Gap.space.blanks (solid_bracket _)).peel hp hlex
  obtain ⟨hcuts, hbase⟩ := cuts_of_lex (Or.inl (Or.inr (Or.inl rfl))) hp₂ hlex
  obtain ⟨_, p₃, hread, h⟩ := ok_of_bind h
  injection h with ho hp'
  subst ho hp'
  rw [readPredicate, hcuts.production] at hread
  obtain ⟨text, p₄, hnamed, hexpect⟩ := ok_of_bind hread
  injection hexpect with _ hp₃
  subst hp₃
  exact ⟨rfl, text, rfl, plain_of_resource hcuts (hbase.trans hc) hnamed⟩

/-- An object that begins with `<` is the IRI between the brackets. -/
theorem object_of_move {subject predicate : Term} {s : String} {rest : List Char} {o : Outcome}
    (hc : c.base? = none)
    (hp : p.Stands iri
      ⟨c, .object subject predicate, codes (' ' :: '<' :: (s.toList ++ '>' :: rest))⟩)
    (h : move p = .ok o p') :
    ∃ text, o = .triple ⟨subject, predicate, .iri text⟩ ∧ (text = s → PlainIri s) := by
  simp only [move, hp.expected] at h
  obtain ⟨token, p₁, hlex, h⟩ := ok_of_bind h
  obtain ⟨_, p₂, -, hp₂, hlex⟩ := (reads_skipBlank Gap.space.blanks (solid_bracket _)).peel hp hlex
  obtain ⟨hcuts, hbase⟩ := cuts_of_lex (Or.inl (Or.inr (Or.inr (Or.inl rfl)))) hp₂ hlex
  obtain ⟨t, p₃, hread, h⟩ := ok_of_bind h
  injection h with ho hp'
  subst ho hp'
  obtain ⟨result, p₄, hobject, hread⟩ := ok_of_bind hread
  rw [readObject, hcuts.production] at hobject
  obtain ⟨text, p₅, hnamed, hobject⟩ := ok_of_bind hobject
  obtain ⟨terminator, p₆, -, hobject⟩ := ok_of_bind hobject
  injection hobject with hresult _
  subst hresult
  injection hread with ht _
  exact ⟨text, by rw [← ht], plain_of_resource hcuts (hbase.trans hc) hnamed⟩

/-- A string before `^^` and `<` has the IRI between the brackets as its datatype. -/
theorem datatype_of_move {subject predicate : Term} {lexical s : String} {rest : List Char}
    {o : Outcome} (hc : c.base? = none)
    (hp : p.Stands iri ⟨c, .object subject predicate,
      codes (' ' :: ((Literal.quote lexical).toList ++
        '^' :: '^' :: '<' :: (s.toList ++ '>' :: rest)))⟩)
    (h : move p = .ok o p') :
    ∃ text, o = .triple ⟨subject, predicate, .literal (.typed lexical text)⟩ ∧
      (text = s → PlainIri s) := by
  -- The quoted form and the mark behind it are read as they were printed.
  obtain ⟨string, hquote, hvalue⟩ := exists_string lexical
  rw [← hquote] at hp
  simp only [move, hp.expected] at h
  have hcaret : ∀ c ∈ (CodePoint.ofChar '^' :: CodePoint.ofChar '^' ::
      codes ('<' :: (s.toList ++ '>' :: rest))).head?, c ≠ string.quote.char := by
    intro c hc
    rw [← Option.some.inj hc]
    cases string.quote <;> simp [Quote.char]
  have htext : codes (' ' :: (string.text ++ '^' :: '^' :: '<' :: (s.toList ++ '>' :: rest))) =
      codes Gap.space.blanks.text ++ (codes string.text ++ (codes ['^', '^'] ++
        codes ('<' :: (s.toList ++ '>' :: rest)))) := by
    simp
  rw [htext] at hp
  obtain ⟨token, p₁, ht, hp₁, h⟩ := (reads_lexAfterBlank Gap.space.blanks
    (string.accepts (next_of_quote _) hcaret) (by simp) string.text_ne_nil).peel hp h
  obtain ⟨t, p₂, hread, h⟩ := ok_of_bind h
  injection h with ho hp'
  subst ho hp'
  obtain ⟨result, p₃, hobject, hread⟩ := ok_of_bind hread
  rw [readObject_of_string ht, hvalue, String.ofList_toList] at hobject
  obtain ⟨mark, p₄, hmark, hp₄, hobject⟩ := (reads_lexAfterBlank ⟨[]⟩ accepts_datatypeMark (by simp)
    (List.cons_ne_nil _ _)).peel hp₁ hobject
  rw [hmark.1] at hobject
  -- What follows is a reference only as far as its first `>`.
  obtain ⟨token', p₅, hlex, hobject⟩ := ok_of_bind hobject
  obtain ⟨_, p₆, -, hp₆, hlex⟩ := (reads_skipBlank ⟨[]⟩ (solid_bracket _)).peel hp₄ hlex
  obtain ⟨hcuts, hbase⟩ := cuts_of_lex (Or.inl (Or.inr (Or.inr (Or.inr rfl)))) hp₆ hlex
  obtain ⟨text, p₇, hnamed, hobject⟩ := ok_of_bind hobject
  obtain ⟨terminator, p₈, -, hobject⟩ := ok_of_bind hobject
  injection hobject with hresult _
  subst hresult
  injection hread with ht _
  exact ⟨text, by rw [← ht]; rfl, plain_of_resource hcuts (hbase.trans hc) hnamed⟩

/-! ## Triples -/

/-- A triple that comes next is completed by the next move, or after it. -/
theorem move_of_next {t : Triple} (h : next p = (some (.triple t), p')) :
    move p = .ok (.triple t) p' ∨
      ∃ p₁, move p = .ok .onward p₁ ∧ next p₁ = (some (.triple t), p') := by
  cases hmove : move p with
  | ok o p₁ =>
    cases o with
    | triple u =>
      rw [next_of_triple hmove] at h
      injection h with hu hp'
      rw [Item.triple.inj (Option.some.inj hu), hp']
      exact Or.inl rfl
    | onward => exact Or.inr ⟨p₁, rfl, next_of_onward hmove ▸ h⟩
    | finished =>
      rw [next_of_finished hmove] at h
      cases h
  | error e p₁ =>
    rw [next_of_error hmove] at h
    cases h

/-- The next triple has the subject and predicate that are remembered. -/
theorem triple_of_next_object {subject predicate : Term} {t : Triple}
    (hexpected : p.expected = .object subject predicate)
    (h : next p = (some (.triple t), p')) :
    move p = .ok (.triple t) p' ∧ t.subject = subject ∧ t.predicate = predicate := by
  have hmoves {o : Outcome} {p₁ : Parser} (hmove : move p = .ok o p₁) :
      ∃ object, o = .triple ⟨subject, predicate, object⟩ := by
    cases moved_of_move hmove with
    | object hx _ hread =>
      obtain ⟨rfl, rfl⟩ := Expected.object.inj (hexpected.symm.trans hx)
      obtain ⟨result, _, -, hread⟩ := ok_of_bind hread
      injection hread with ht _
      exact ⟨result.1, by rw [← ht]⟩
    | stopped hx | ended hx | began hx | predicate hx => cases hexpected.symm.trans hx
  rcases move_of_next h with hmove | ⟨p₁, hmove, -⟩
  · obtain ⟨object, ho⟩ := hmoves hmove
    rw [Outcome.triple.inj ho] at hmove ⊢
    exact ⟨hmove, rfl, rfl⟩
  · obtain ⟨object, ho⟩ := hmoves hmove
    cases ho

/-- The next triple has the subject that is remembered. -/
theorem subject_of_next {subject : Term} {t : Triple}
    (hexpected : p.expected = .predicate subject false)
    (h : next p = (some (.triple t), p')) : t.subject = subject := by
  have hmoves {o : Outcome} {p₁ : Parser} (hmove : move p = .ok o p₁) :
      o = .onward ∧ ∃ predicate, p₁.expected = .object subject predicate := by
    cases moved_of_move hmove with
    | @predicate _ _ token _ _ hx _ hread =>
      obtain ⟨rfl, rfl⟩ := Expected.predicate.inj (hexpected.symm.trans hx)
      refine ⟨rfl, ?_⟩
      -- A dot and a semicolon are refused before a predicate; the other two tokens name one.
      generalize hx : readPredicate subject false token = x at hread
      unfold readPredicate at hx
      split at hx <;> subst hx
      · cases hread
      · cases hread
      · injection hread with _ hp₁
        exact ⟨_, by rw [← hp₁]⟩
      · obtain ⟨text, p₄, -, hread⟩ := ok_of_bind hread
        injection hread with _ hp₁
        exact ⟨_, by rw [← hp₁]⟩
    | stopped hx | ended hx | began hx | object hx => cases hexpected.symm.trans hx
  rcases move_of_next h with hmove | ⟨p₁, hmove, hnext⟩
  · cases (hmoves hmove).1
  · obtain ⟨predicate, hexpected'⟩ := (hmoves hmove).2
    exact (triple_of_next_object hexpected' hnext).2.1

/-- The subject of a printed triple that is read back has a plain IRI, if it has one. -/
theorem plain_subject {t : Triple} {rest : List Char} (hc : c.base? = none)
    (hsubject : t.subject.WellFormed) (hresource : ∀ l, t.subject ≠ .literal l)
    (hp : p.Stands iri ⟨c, .statement, codes (t.subject.render.toList ++ rest)⟩)
    (h : next p = (some (.triple t), p')) : ∀ iri ∈ t.subject.iris, PlainIri iri := by
  obtain ⟨subject, predicate, object⟩ := t
  intro text htext
  cases hsubject with
  | iri s =>
    obtain rfl : text = s := List.mem_singleton.1 htext
    have hrender : (Term.iri text).render.toList ++ rest =
        '<' :: (text.toList ++ '>' :: rest) := by simp [Term.render]
    rw [hrender] at hp
    rcases move_of_next h with hmove | ⟨p₁, hmove, hnext⟩
    · cases (subject_of_move hc hp hmove).1
    · obtain ⟨-, named, hexpected, hplain⟩ := subject_of_move hc hp hmove
      injection subject_of_next hexpected hnext with hnamed
      exact hplain hnamed.symm
  | blank => cases htext
  | plain | typed | tagged => exact absurd rfl (hresource _)

/-- The predicate of a printed triple that is read back is a plain IRI. -/
theorem plain_predicate {t : Triple} {subject : Term} {verb : String} {rest : List Char}
    (hc : c.base? = none) (hpredicate : t.predicate = .iri verb)
    (hp : p.Stands iri
      ⟨c, .predicate subject false, codes (' ' :: '<' :: (verb.toList ++ '>' :: rest))⟩)
    (h : next p = (some (.triple t), p')) : PlainIri verb := by
  rcases move_of_next h with hmove | ⟨p₁, hmove, hnext⟩
  · cases (predicate_of_move hc hp hmove).1
  · obtain ⟨-, named, hexpected, hplain⟩ := predicate_of_move hc hp hmove
    have hnamed := (triple_of_next_object hexpected hnext).2.2
    rw [hpredicate] at hnamed
    injection hnamed with hnamed
    exact hplain hnamed.symm

/-- The object of a printed triple that is read back has plain IRIs only. -/
theorem plain_object {t : Triple} {rest : List Char} (hc : c.base? = none)
    (hobject : t.object.WellFormed)
    (hp : p.Stands iri
      ⟨c, .object t.subject t.predicate, codes (' ' :: (t.object.render.toList ++ rest))⟩)
    (h : next p = (some (.triple t), p')) : ∀ iri ∈ t.object.iris, PlainIri iri := by
  obtain ⟨subject, predicate, object⟩ := t
  obtain ⟨hmove, -, -⟩ := triple_of_next_object hp.expected h
  intro text htext
  -- Only an IRI and a datatype are printed between angle brackets.
  cases hobject with
  | iri s =>
    obtain rfl : text = s := List.mem_singleton.1 htext
    have hrender : (Term.iri text).render.toList ++ rest =
        '<' :: (text.toList ++ '>' :: rest) := by simp [Term.render]
    rw [hrender] at hp
    obtain ⟨named, ho, hplain⟩ := object_of_move hc hp hmove
    injection ho with ho
    injection ho with _ _ hnamed
    injection hnamed with hnamed
    exact hplain hnamed.symm
  | typed lexical datatype =>
    obtain rfl : text = datatype := List.mem_singleton.1 htext
    have hrender : (Term.literal (.typed lexical text)).render.toList ++ rest =
        (Literal.quote lexical).toList ++ '^' :: '^' :: '<' :: (text.toList ++ '>' :: rest) := by
      simp [Term.render, Literal.render, Literal.suffix, Literal.typed]
    rw [hrender] at hp
    obtain ⟨named, ho, hplain⟩ := datatype_of_move hc hp hmove
    injection ho with ho
    injection ho with _ _ hnamed
    injection hnamed with hnamed
    injection hnamed with _ hnamed
    injection hnamed with hnamed
    exact hplain hnamed.symm
  | blank | plain | tagged => cases htext

/-- **A printed triple that is read back has only plain IRIs**: up to each IRI it is read as it was
printed, and then only a plain one is read back. -/
theorem plain_of_next {t : Triple} (hc : c.base? = none) (ht : t.WellFormed)
    (hp : p.Stands .permissive ⟨c, .statement, codes t.render.toList⟩)
    (h : next p = (some (.triple t), p')) : t.Plain := by
  obtain ⟨verb, hverb⟩ := ht.predicate
  have htext : t.render.toList = t.subject.render.toList ++
      (' ' :: '<' :: (verb.toList ++ '>' :: (' ' :: (t.object.render.toList ++ [' ', '.'])))) := by
    simp [Triple.render, hverb, Term.render]
  have hspace (rest : List Char) : Separated (codes (' ' :: rest)) := Gap.space.separated
  rw [htext] at hp
  -- The subject is plain, so that the parser comes to the predicate as it was printed.
  have hsubject := plain_subject hc ht.subject ht.resource hp h
  obtain ⟨s, hs, hsterm⟩ := Term.exists_subject ht.subject ht.resource hsubject
  rw [← hs, codes_append] at hp
  obtain ⟨_, p₁, hmove, rfl, hp₁⟩ := reads_subject ⟨[]⟩ s (hsterm c hc) (hspace _) p hp
  rw [next_of_onward hmove] at h
  -- The predicate is plain too, and leads to the object as it was printed.
  have hpredicate := plain_predicate hc hverb hp₁ h
  obtain ⟨r, hr, hrterm⟩ := exists_iriRef hpredicate
  have hverbterm : (Verb.ref (.reference r)).term? c = some t.predicate := by
    simp [Verb.term?, Ref.iri?, hrterm c hc, hverb]
  have hpredicatetext : codes (' ' :: '<' :: (verb.toList ++
      '>' :: (' ' :: (t.object.render.toList ++ [' ', '.'])))) =
        codes Gap.space.text ++ (codes (Verb.ref (.reference r)).text ++
          codes (' ' :: (t.object.render.toList ++ [' ', '.']))) := by
    simp [Verb.text, Ref.text, hr]
  rw [hpredicatetext] at hp₁
  obtain ⟨_, p₂, hmove', rfl, hp₂⟩ := reads_verb Gap.space _ hverbterm (hspace _) p₁ hp₁
  rw [next_of_onward hmove'] at h
  have hobject := plain_object hc ht.object hp₂ h
  intro text hmem
  rcases List.mem_append.1 hmem with hmem | hmem
  · exact hsubject text hmem
  · rcases List.mem_append.1 hmem with hmem | hmem
    · rw [hverb] at hmem
      rw [List.mem_singleton.1 hmem]
      exact hpredicate
    · exact hobject text hmem

end Parser

/-- A printed triple does not begin with a byte order mark. -/
theorem Triple.head_render_ne {t : Triple} (h : t.WellFormed) :
    ∀ x ∈ (codes t.render.toList).head?, x ≠ Parser.byteOrderMark := by
  obtain ⟨subject, predicate, object⟩ := t
  obtain ⟨hsubject, hresource, -, -⟩ := h
  intro x hx
  cases hsubject with
  | iri text =>
    simp [render, Term.render] at hx
    rw [← hx]
    decide
  | blank h =>
    simp [render, Term.render] at hx
    rw [← hx]
    decide
  | plain | typed | tagged => exact absurd rfl (hresource _)

section

variable [IriLibrary]

/-- A well-formed triple is read back from its printed form exactly if its IRIs are plain. -/
theorem Triple.reread_iff {t : Triple} (h : t.WellFormed) {source : Source}
    (hsource : source.Delivers t.render.toUTF8.toList .closed) :
    parse source = [.triple t] ↔ t.Plain := by
  constructor
  -- The one item is what the first step of the parser yields.
  · intro hparse
    rw [← String.ofList_toList (s := t.render)] at hsource
    obtain ⟨p, hcreate, hp⟩ :=
      @Parser.stands_create _ _ {} none _ hsource rfl (head_render_ne h)
    rw [parse, hcreate] at hparse
    have hitems : p.items = [.triple t] := hparse
    cases hnext : p.next with
    | mk i? p' =>
      cases i? with
      | none =>
        rw [Parser.items_of_next_none hnext] at hitems
        cases hitems
      | some i =>
        rw [Parser.items_of_next hnext] at hitems
        injection hitems with hi _
        subst hi
        exact Parser.plain_of_next rfl h hp hnext
  · -- The printed form of a plain triple is a document of one statement.
    intro hplain
    obtain ⟨s, hs, hmeaning⟩ := exists_statement h hplain
    have hd : (Document.prepend ⟨[]⟩ s ⟨[], ⟨[]⟩⟩).text = t.render.toList := by
      rw [Document.text_prepend, hs]
      simp [Blanks.text, Document.text, statementsText]
    have hmeaning' : (Document.prepend ⟨[]⟩ s ⟨[], ⟨[]⟩⟩).meaning? ⟨none, .empty⟩ =
        some ([t], ⟨none, .empty⟩) := Document.meaning?_prepend (hmeaning _ rfl) rfl
    exact parse_of_document hd hmeaning' hsource

/-- **A yielded triple is read back exactly if no IRI in it has a `>` or a backslash.** -/
theorem reread_iff_plain {source : Source} {options : ParserOptions} {t : Triple}
    (h : .triple t ∈ parse source options) {source' : Source}
    (hsource : source'.Delivers t.render.toUTF8.toList .closed) :
    parse source' = [.triple t] ↔ t.Plain :=
  Triple.reread_iff (wellFormed_of_mem_parse h) hsource

end

section

open scoped Iri.Standard

/-- A literal with a datatype is read back. -/
theorem reread_datatype :
    .triple ⟨.blank "a", .iri "b", .literal (.typed "c\n" "d")⟩ ∈
        parse (.memory "_:a <b> '''c\n'''^^<d>.".toUTF8.toList) ∧
      parse (.memory
          (Triple.mk (.blank "a") (.iri "b") (.literal (.typed "c\n" "d"))).render.toUTF8.toList) =
        [.triple ⟨.blank "a", .iri "b", .literal (.typed "c\n" "d")⟩] := by
  have hmem : .triple ⟨.blank "a", .iri "b", .literal (.typed "c\n" "d")⟩ ∈
      parse (.memory "_:a <b> '''c\n'''^^<d>.".toUTF8.toList) := by
    decide +kernel
  refine ⟨hmem, (reread_iff_plain hmem (.memory _)).2 ?_⟩
  simp [Triple.Plain, Triple.iris, Term.iris, PlainIri, Literal.typed]

/-- An IRI with a `>` is yielded, and its printed form is not read back. -/
theorem not_reread_bracket :
    .triple ⟨.iri "a", .iri "b", .iri "c>d"⟩ ∈
        parse (.memory "<a> <b> <c\\u003Ed> .".toUTF8.toList) ∧
      (Triple.mk (.iri "a") (.iri "b") (.iri "c>d")).render = "<a> <b> <c>d> ." ∧
      parse (.memory "<a> <b> <c>d> .".toUTF8.toList) ≠
        [.triple ⟨.iri "a", .iri "b", .iri "c>d"⟩] := by
  decide +kernel

end

end RdfTurtle
