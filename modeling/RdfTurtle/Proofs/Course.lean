import RdfTurtle.Proofs.Prospect
import RdfTurtle.Proofs.Pursuit

/-! # The course of a move

A move reads tokens, with blanks before them, and then settles what it has read: it declares, or
sets what comes next. A `.` is the last token that it reads. When it fails it has settled nothing: a
token stands in the wrong place or means nothing, or the next one cannot be read.

* **`Parser.Course`** — a parser that comes from one place to another by reading tokens.
* **`Parser.Scans`** — an action that only reads tokens; **`Parser.Concludes`** one that may settle
  something behind them.
* **`Parser.Proceeds`** — the course of a move, to where it settles something or trips.
* **`Parser.proceeds_move`** — every move proceeds, unless it finds nothing more to read. -/

namespace RdfTurtle

/-! ## Tokens that are no dots -/

namespace State

variable {iri : Strictness} {p : Production} {ds cs : List CodePoint}

/-- Where a namespace is asked for, only words begin. -/
theorem word_of_path (h : Path iri p (.start .namespaceName) ds cs) : p.family = .word := by
  refine family_of_only h rfl fun c => ?_
  refine Move.Only.ite (fun _ => .some rfl) fun _ => ?_
  exact Move.Only.ite (fun _ => .some rfl) fun _ => .none

end State

/-- The error is not one of reading tokens. -/
def DocumentError.Plain : DocumentError → Prop
  | .lex _ => False
  | _ => True

/-- Parsing goes on after an error that is not one of reading tokens. -/
theorem DocumentError.Plain.recoverable {e : DocumentError} (h : e.Plain) :
    e.recoverable = true := by
  cases e with
  | lex => exact h.elim
  | _ => rfl

/-- The last of the tokens is a dot. -/
def Dotted (ts : List Token) : Prop := ∃ t, ts.getLast? = some t ∧ t.production = .dot

/-- No token at all is no dot. -/
theorem not_dotted_nil : ¬ Dotted [] := fun ⟨_, h, _⟩ => by cases h

/-- A single token is the last one. -/
theorem dotted_singleton {t : Token} : Dotted [t] ↔ t.production = .dot := by
  refine ⟨fun ⟨u, h, hu⟩ => ?_, fun ht => ⟨t, rfl, ht⟩⟩
  obtain rfl : t = u := Option.some.inj h
  exact hu

/-- The last token of a list is the last one of its end. -/
theorem dotted_append {ts us : List Token} (hus : us ≠ []) : Dotted (ts ++ us) ↔ Dotted us := by
  unfold Dotted
  rw [List.getLast?_append_of_ne_nil ts hus]

/-- A token in front that is no dot makes no difference. -/
theorem dotted_cons {t : Token} {ts : List Token} (ht : t.production ≠ .dot) :
    Dotted (t :: ts) ↔ Dotted ts := by
  cases ts with
  | nil => exact iff_of_false (mt dotted_singleton.1 ht) not_dotted_nil
  | cons u us => exact @dotted_append [t] _ (List.cons_ne_nil u us)

namespace Parser

variable {α β : Type}

/-! ## Courses -/

/-- The parser comes from the first place to the second by reading the tokens, with blanks before
them. With a dot it ends. -/
inductive Course : Parser → List Token → Parser → Prop
  | done (p : Parser) : Course p [] p
  | blank {p p' q : Parser} {ts : List Token} (h : p.skipBlank = .ok () p')
    (rest : Course p' ts q) : Course p ts q
  | token {p p' q : Parser} {ts : List Token} {r : Recognizer} {t : Token}
    (h : p.lex r = .ok t p') (ht : t.production ≠ .dot) (rest : Course p' ts q) :
    Course p (t :: ts) q
  | dot {p q : Parser} {r : Recognizer} {t : Token} (h : p.lex r = .ok t q)
    (ht : t.production = .dot) : Course p [t] q

/-- Passing over blanks changes nothing but the scanner. -/
theorem frame_skipBlank (p : Parser) :
    finalState p.skipBlank = { p with scanner := (finalState p.skipBlank).scanner } := by
  unfold skipBlank
  split <;> rfl

/-- Reading a token changes nothing but the scanner and what is known of the last token. -/
theorem frame_lex (p : Parser) (r : Recognizer) :
    finalState (p.lex r) =
      { p with
        scanner := (finalState (p.lex r)).scanner
        afterDot := (finalState (p.lex r)).afterDot } := by
  unfold lex
  split <;> rfl

/-- While it reads, the parser changes nothing but its scanner and what it knows of the last
token. -/
theorem Course.frame {p q : Parser} {ts : List Token} (h : Course p ts q) :
    q = { p with scanner := q.scanner, afterDot := q.afterDot } := by
  induction h with
  | done => rfl
  | @blank p p' q ts h _ ih =>
    have hframe := p.frame_skipBlank
    rw [h, finalState_ok] at hframe
    rw [hframe] at ih
    exact ih
  | @token p p' q ts r t h _ _ ih =>
    have hframe := p.frame_lex r
    rw [h, finalState_ok] at hframe
    rw [hframe] at ih
    exact ih
  | @dot p q r t h =>
    have hframe := p.frame_lex r
    rwa [h, finalState_ok] at hframe

/-- What is expected stays the same while tokens are read. -/
theorem Course.expected {p q : Parser} {ts : List Token} (h : Course p ts q) :
    q.expected = p.expected := by
  rw [h.frame]

/-- What the parser knows of the last token is whether it was a dot. -/
theorem Course.afterDot {p q : Parser} {ts : List Token} (h : Course p ts q) :
    (ts = [] → q.afterDot = p.afterDot) ∧ (ts ≠ [] → (q.afterDot = true ↔ Dotted ts)) := by
  have hlex {p p' : Parser} {r : Recognizer} {t : Token} (h : p.lex r = .ok t p') :
      p'.afterDot = decide (t.production = .dot) := by
    obtain ⟨l, scanner, -, rfl, rfl⟩ := of_lex_ok h
    rfl
  induction h with
  | done => exact ⟨fun _ => rfl, fun h => absurd rfl h⟩
  | @blank p p' q ts h _ ih =>
    have hframe := p.frame_skipBlank
    rw [h, finalState_ok] at hframe
    rw [hframe] at ih
    exact ih
  | @token p p' q ts r t h ht _ ih =>
    refine ⟨by simp, fun _ => ?_⟩
    rw [dotted_cons ht]
    by_cases hts : ts = []
    · subst hts
      rw [ih.1 rfl, hlex h]
      simp [ht, not_dotted_nil]
    · exact ih.2 hts
  | dot h ht =>
    refine ⟨by simp, fun _ => ?_⟩
    rw [dotted_singleton, hlex h, decide_eq_true_iff]

/-- A course that has not ended goes on. -/
theorem Course.trans {p q q' : Parser} {ts us : List Token} (h : Course p ts q)
    (hts : ¬ Dotted ts) (h' : Course q us q') : Course p (ts ++ us) q' := by
  induction h with
  | done => exact h'
  | blank h _ ih => exact .blank h (ih hts h')
  | token h ht _ ih => exact .token h ht (ih (mt (dotted_cons ht).2 hts) h')
  | dot h ht => exact absurd (dotted_singleton.2 ht) hts

/-- No token can be read, or what is before it cannot be passed over. -/
def Refuses (p : Parser) (e : DocumentError) (q : Parser) : Prop :=
  p.skipBlank = .error e q ∨ ∃ r, p.lex r = .error e q

/-! ## What is left to read -/

/-- Blanks that are passed over leave an end of what was to come. -/
theorem leaves_skipBlank {p q : Parser} (h : p.skipBlank = .ok () q) :
    q.scanner.prospect.EndOf p.scanner.prospect := by
  obtain ⟨l, scanner, hr, rfl⟩ := of_skipBlank_ok h
  exact Scanner.endOf_of_recognize hr

/-- So does a token that is read. -/
theorem leaves_lex {p q : Parser} {r : Recognizer} {t : Token} (h : p.lex r = .ok t q) :
    q.scanner.prospect.EndOf p.scanner.prospect := by
  obtain ⟨l, scanner, hr, -, rfl⟩ := of_lex_ok h
  exact Scanner.endOf_of_recognize hr

/-- **A course leaves an end of what was to come.** -/
theorem Course.leaves {p q : Parser} {ts : List Token} (h : Course p ts q) :
    q.scanner.prospect.EndOf p.scanner.prospect := by
  induction h with
  | done => exact .refl _
  | blank h _ ih => exact ih.trans (leaves_skipBlank h)
  | token h _ _ ih => exact ih.trans (leaves_lex h)
  | dot h => exact leaves_lex h

/-- A parser that cannot read on is told what the scanner is. -/
theorem Refuses.recognize {p q : Parser} {e : DocumentError} (h : Refuses p e q) :
    ∃ r fault, e = .lex fault ∧ p.scanner.recognize r = .error fault q.scanner := by
  rcases h with h | ⟨r, h⟩
  · obtain ⟨fault, scanner, hr, he, rfl⟩ := of_skipBlank_error h
    exact ⟨.blank, fault, he, hr⟩
  · obtain ⟨fault, scanner, hr, he, rfl⟩ := of_lex_error h
    exact ⟨r, fault, he, hr⟩

/-- A parser that cannot read on leaves an end of what was to come, unless it has met the failure
behind it. -/
theorem Refuses.leaves {p q : Parser} {e : DocumentError} (h : Refuses p e q) :
    ∃ fault, e = .lex fault ∧
      (q.scanner.prospect.EndOf p.scanner.prospect ∧
          (∀ failure, p.scanner.prospect.ending = .error failure →
            ∃ c, fault.fault = .unexpectedCharacter c) ∨
        p.scanner.prospect.ending = .error fault ∧ q.scanner.atEnd) := by
  obtain ⟨r, fault, he, hr⟩ := h.recognize
  have hleaves := p.scanner.leaves_recognize r
  rw [hr] at hleaves
  refine ⟨fault, he, ?_⟩
  cases hleaves with
  | rejected rest fault => exact Or.inl ⟨rest, fault⟩
  | failed ending hend => exact Or.inr ⟨ending, hend⟩

/-- Blanks cannot be passed over only where the input fails, so that it has ended then. A token that
cannot be read is no dot. -/
theorem Refuses.afterDot {p q : Parser} {e : DocumentError} (h : Refuses p e q) :
    q.afterDot = false ∨ q.scanner.atEnd := by
  rcases h with h | ⟨r, h⟩
  · obtain ⟨fault, scanner, hr, -, rfl⟩ := of_skipBlank_error h
    exact Or.inr (Scanner.atEnd_of_blank_error hr)
  · obtain ⟨fault, scanner, -, -, rfl⟩ := of_lex_error h
    exact Or.inl rfl

/-! ## Where an action comes to -/

/-- Where an action comes to from `p`: by a course that ends in `q` it gives a value, with `given`
holding of what it has settled since, or fails there for another reason than its input, or cannot
read on. -/
inductive Goes (p : Parser) (given : List Token → α → Parser → Parser → Prop) :
    EStateM.Result DocumentError Parser α → Prop
  | gives {a : α} {ts : List Token} {q p' : Parser} (course : Course p ts q)
    (settled : given ts a q p') : Goes p given (.ok a p')
  | throws {e : DocumentError} {ts : List Token} {q : Parser} (course : Course p ts q)
    (plain : e.Plain) : Goes p given (.error e q)
  | refuses {e : DocumentError} {ts : List Token} {q p' : Parser} (course : Course p ts q)
    (undotted : ¬ Dotted ts) (refused : Refuses q e p') : Goes p given (.error e p')

/-- Behind a course that has not ended an action comes to the same, along the longer course. -/
theorem Goes.behind {p q : Parser} {ts : List Token} {r : EStateM.Result DocumentError Parser α}
    {given given' : List Token → α → Parser → Parser → Prop} (hc : Course p ts q)
    (hts : ¬ Dotted ts) (h : Goes q given r)
    (hgiven : ∀ ⦃us a q' p'⦄, given us a q' p' → given' (ts ++ us) a q' p') : Goes p given' r := by
  cases h with
  | gives course settled => exact .gives (hc.trans hts course) (hgiven settled)
  | throws course plain => exact .throws (hc.trans hts course) plain
  | @refuses e us _ _ course undotted refused =>
    refine .refuses (hc.trans hts course) ?_ refused
    cases us with
    | nil => rwa [List.append_nil]
    | cons u us => exact mt (dotted_append (List.cons_ne_nil u us)).1 undotted

/-- An action that follows another comes to what it does behind the course of the first. -/
theorem Goes.bind {p : Parser} {x : Action α} {f : α → Action β}
    {given : List Token → α → Parser → Parser → Prop}
    {given' : List Token → β → Parser → Parser → Prop} (hx : Goes p given (x p))
    (hf : ∀ ⦃ts a q p'⦄, Course p ts q → given ts a q p' → Goes p given' (f a p')) :
    Goes p given' ((x >>= f) p) := by
  simp only [Bind.bind, EStateM.bind]
  generalize x p = result at hx
  cases hx with
  | gives course settled => exact hf course settled
  | throws course plain => exact .throws course plain
  | refuses course undotted refused => exact .refuses course undotted refused

/-! ## Actions that read tokens -/

/-- The action only reads tokens. What it gives after a dot satisfies `Q`. -/
def Scans (x : Action α) (Q : α → Prop) : Prop :=
  ∀ p, Goes p (fun ts a q p' => p' = q ∧ (Dotted ts → Q a)) (x p)

/-- What only reads tokens gives its value at the end of a course. -/
theorem Scans.course {x : Action α} {Q : α → Prop} {p q : Parser} {a : α} (hx : Scans x Q)
    (h : x p = .ok a q) : ∃ ts, Course p ts q := by
  have hgoes := hx p
  rw [h] at hgoes
  cases hgoes with
  | gives course settled => exact ⟨_, settled.1 ▸ course⟩

/-- The action does nothing but give a value or fail for another reason than its input. -/
def Still (x : Action α) (Q : α → Prop) : Prop :=
  ∀ p, (∃ a, x p = .ok a p ∧ Q a) ∨ ∃ e, x p = .error e p ∧ e.Plain

/-- A result does nothing. -/
theorem Still.pure {a : α} {Q : α → Prop} (h : Q a) : Still (Pure.pure a) Q :=
  fun _ => Or.inl ⟨a, rfl, h⟩

/-- Nor does an error that is not the scanner's. -/
theorem Still.throw {e : DocumentError} {Q : α → Prop} (h : e.Plain) :
    Still (MonadExcept.throw e) Q := fun _ => Or.inr ⟨e, rfl, h⟩

/-- Nor do two actions that do nothing. -/
theorem Still.bind {x : Action α} {f : α → Action β} {Q : α → Prop} {Q' : β → Prop}
    (hx : Still x Q) (hf : ∀ a, Q a → Still (f a) Q') : Still (x >>= f) Q' := by
  intro p
  rcases hx p with ⟨a, ha, hQ⟩ | ⟨e, he, hplain⟩
  · rcases hf a hQ p with ⟨b, hb, hQ'⟩ | ⟨e, he, hplain⟩
    · refine Or.inl ⟨b, ?_, hQ'⟩
      simp only [Bind.bind, EStateM.bind, ha, hb]
    · refine Or.inr ⟨e, ?_, hplain⟩
      simp only [Bind.bind, EStateM.bind, ha, he]
  · refine Or.inr ⟨e, ?_, hplain⟩
    simp only [Bind.bind, EStateM.bind, he]

/-- What does nothing reads nothing. -/
theorem Still.scans {x : Action α} {Q Q' : α → Prop} (h : Still x Q) : Scans x Q' := by
  intro p
  rcases h p with ⟨a, ha, -⟩ | ⟨e, he, hplain⟩
  · rw [ha]
    exact .gives (.done p) ⟨rfl, fun hdot => absurd hdot not_dotted_nil⟩
  · rw [he]
    exact .throws (.done p) hplain

/-- A result reads no token. -/
theorem scans_pure (a : α) {Q : α → Prop} : Scans (Pure.pure a) Q :=
  (Still.pure (Q := fun _ => True) trivial).scans

/-- An error that is not the scanner's reads none. -/
theorem scans_throw {e : DocumentError} {Q : α → Prop} (h : e.Plain) :
    Scans (MonadExcept.throw e) Q :=
  (Still.throw (Q := fun _ => True) h).scans

/-- One action reads behind another. Behind a dot it must do nothing. -/
theorem Scans.bind {x : Action α} {f : α → Action β} {Q : α → Prop} {Q' : β → Prop}
    (hx : Scans x Q) (hf : ∀ a, Scans (f a) Q') (hdot : ∀ a, Q a → Still (f a) Q') :
    Scans (x >>= f) Q' := by
  intro p
  refine (hx p).bind ?_
  rintro ts a _ p₁ course ⟨rfl, hQ⟩
  by_cases hts : Dotted ts
  · rcases hdot a (hQ hts) p₁ with ⟨b, hb, hQ'⟩ | ⟨e, he, hplain⟩
    · rw [hb]
      exact .gives course ⟨rfl, fun _ => hQ'⟩
    · rw [he]
      exact .throws course hplain
  · refine (hf a p₁).behind course hts ?_
    rintro us b q p' ⟨rfl, hQ'⟩
    refine ⟨rfl, fun hdotted => hQ' ?_⟩
    cases us with
    | nil => exact absurd (List.append_nil ts ▸ hdotted) hts
    | cons u us => exact (dotted_append (List.cons_ne_nil u us)).1 hdotted

/-- What never gives a value after a dot may be followed by anything that reads tokens. -/
theorem Scans.bind_undotted {x : Action α} {f : α → Action β} {Q' : β → Prop}
    (hx : Scans x fun _ => False) (hf : ∀ a, Scans (f a) Q') : Scans (x >>= f) Q' :=
  hx.bind hf fun _ => False.elim

/-- Reading a token is a course of one token. -/
theorem scans_lex (r : Recognizer) : Scans (lex r) fun t => t.production = .dot := by
  intro p
  cases h : p.lex r with
  | ok t q =>
    by_cases ht : t.production = .dot
    · exact .gives (.dot h ht) ⟨rfl, fun _ => ht⟩
    · refine .gives (.token h ht (.done q)) ⟨rfl, fun hdot => ?_⟩
      exact absurd (dotted_singleton.1 hdot) ht
  | error e q => exact .refuses (.done p) not_dotted_nil (Or.inr ⟨r, h⟩)

/-- Passing over blanks is a course without tokens. -/
theorem scans_skipBlank : Scans skipBlank fun _ => False := by
  intro p
  cases h : p.skipBlank with
  | ok u q => exact .gives (.blank h (.done q)) ⟨rfl, not_dotted_nil⟩
  | error e q => exact .refuses (.done p) not_dotted_nil (Or.inl h)

/-- A token is read behind blanks. -/
theorem scans_lexAfterBlank (r : Recognizer) :
    Scans (lexAfterBlank r) fun t => t.production = .dot :=
  scans_skipBlank.bind_undotted fun _ => scans_lex r

/-- A token of this place is never a dot. -/
def Dotless (r : Recognizer) : Prop :=
  ∀ ⦃iri p cs⦄, State.Path iri p (.start r) [] cs → p ≠ .dot

/-- A local name is no dot. -/
theorem dotless_localName : Dotless .localName := by
  rintro iri p cs h rfl
  cases State.family_of_path h rfl

/-- Nor is the name of a namespace. -/
theorem dotless_namespaceName : Dotless .namespaceName := by
  rintro iri p cs h rfl
  cases State.word_of_path h

/-- A token of a place without dots is none. -/
theorem production_of_dotless {r : Recognizer} (hr : Dotless r) {p q : Parser} {t : Token}
    (h : p.lex r = .ok t q) : t.production ≠ .dot := by
  obtain ⟨l, scanner, hl, rfl, -⟩ := of_lex_ok h
  obtain ⟨cs, -, hpath⟩ := Scanner.path_of_recognize hl
  exact hr hpath

/-- Where no dot may stand the course goes on behind the token. -/
theorem scans_lex_of_dotless {r : Recognizer} (hr : Dotless r) :
    Scans (lex r) fun _ => False := by
  intro p
  cases h : p.lex r with
  | ok t q =>
    have ht := production_of_dotless hr h
    exact .gives (.token h ht (.done q)) ⟨rfl, mt dotted_singleton.1 ht⟩
  | error e q => exact .refuses (.done p) not_dotted_nil (Or.inr ⟨r, h⟩)

section

variable [IriLibrary]

/-- Resolving a reference reads nothing. -/
theorem still_resolve (reference : List Char) (position : Position) :
    Still (resolve reference position) fun _ => True := by
  intro p
  simp only [resolve, bind, EStateM.bind]
  simp only [get_apply]
  cases p.base? with
  | none => exact Or.inl ⟨_, rfl, trivial⟩
  | some base =>
    dsimp only
    cases IriLibrary.resolve base reference with
    | ok iri => exact Or.inl ⟨_, rfl, trivial⟩
    | error e => exact Or.inr ⟨_, rfl, trivial⟩

omit [IriLibrary] in
/-- A prefixed name is read with its local part. -/
theorem scans_expand (t : Token) : Scans (expand t) fun _ => False := by
  intro p
  simp only [expand, bind, EStateM.bind]
  simp only [get_apply]
  cases p.prefixes.find? (namespaceName t) with
  | none => exact .throws (.done p) trivial
  | some iri =>
    exact (scans_lex_of_dotless dotless_localName).bind_undotted (fun _ => scans_pure _) p

/-- A token stands for no IRI unless it names one. -/
theorem still_resource {t : Token} (ht : t.production = .dot) (Q : String → Prop) :
    Still (resource t) Q := by
  unfold resource
  rw [ht]
  exact .throw trivial

/-- The IRI of a token is read with what belongs to the token. -/
theorem scans_resource (t : Token) : Scans (resource t) fun _ => False := by
  unfold resource
  split
  · split
    · exact (still_resolve _ _).scans
    · exact scans_throw trivial
  · exact scans_expand t
  · exact scans_throw trivial

omit [IriLibrary] in
/-- A directive is read with its dot. -/
theorem scans_readDot : Scans readDot fun _ => True := by
  have hstill (t : Token) : Still (unless t.production = .dot do throw t.unexpected : Action Unit)
      fun _ => True := by
    split
    · exact .pure trivial
    · exact .throw trivial
  exact (scans_lexAfterBlank .terminator).bind (fun t => (hstill t).scans) fun t _ => hstill t

/-- A declaration is read up to its dot. -/
theorem scans_readDeclared (dotted : Bool) : Scans (readDeclared dotted) fun _ => True := by
  apply (scans_lexAfterBlank .iriRef).bind
  · intro t
    apply (scans_resource t).bind_undotted
    intro iri
    cases dotted with
    | false => exact scans_pure _
    | true =>
      exact scans_readDot.bind (fun _ => scans_pure _)
        fun _ _ => .pure trivial
  · intro t ht
    exact (still_resource ht fun _ => False).bind fun _ => False.elim

omit [IriLibrary] in
/-- The token that ends an object may be a dot. -/
theorem scans_readTerminator : Scans readTerminator fun t => t.production = .dot :=
  scans_lexAfterBlank .terminator

omit [IriLibrary] in
/-- A term that is known is an object once the token after it is read. -/
theorem scans_ended (term : Term) :
    Scans (do return (term, ← readTerminator)) fun o => o.2.production = .dot :=
  scans_readTerminator.bind (fun _ => scans_pure _)
    fun _ ht => .pure ht

/-- An object that a name stands for. -/
theorem scans_named (t : Token) (term : String → Term) :
    Scans (do let iri ← resource t; return (term iri, ← readTerminator))
      fun o => o.2.production = .dot :=
  (scans_resource t).bind_undotted fun _ => scans_ended _

/-- What follows a string is read up to the token that ends the object. -/
theorem scans_readSuffix (lexical : String) :
    Scans (readSuffix lexical) fun o => o.2.production = .dot := by
  apply (scans_lexAfterBlank .literalSuffix).bind
  · intro t
    split
    · exact scans_ended _
    · apply (scans_lexAfterBlank .datatype).bind
      · exact fun d => scans_named d fun datatype => .literal ⟨lexical, some datatype, none⟩
      · exact fun d hd => (still_resource hd fun _ => False).bind fun _ => False.elim
    · exact scans_pure _
  · intro t ht
    rw [ht]
    exact .pure ht

/-- So is what follows the token of a string. -/
theorem scans_readString (n : Nat) (t : Token) :
    Scans (readString n t) fun o => o.2.production = .dot := by
  unfold readString
  split
  · exact scans_readSuffix _
  · exact scans_throw trivial

/-- So is an object, from its first token on. -/
theorem scans_readObject (t : Token) : Scans (readObject t) fun o => o.2.production = .dot := by
  unfold readObject
  split
  · exact scans_named t .iri
  · exact scans_named t .iri
  · exact scans_ended _
  · exact scans_ended _
  · exact scans_ended _
  · exact scans_ended _
  · exact scans_ended _
  · exact scans_readString 1 t
  · exact scans_readString 3 t
  · exact scans_throw trivial

end

/-! ## Actions that settle what they have read -/

/-- The parser declares or expects something else, and has read nothing since. It declares only
where it goes on to another statement. -/
structure Settled (q p : Parser) : Prop where
  scanner : p.scanner = q.scanner
  recover : p.recover = q.recover
  afterDot : p.afterDot = q.afterDot
  onward : q.expected ≠ .nothing → p.expected ≠ .nothing
  kept : p.base? = q.base? ∧ p.prefixes = q.prefixes ∨
    q.expected = .statement ∧ p.expected = .statement

/-- From where `S` is expected the action reads tokens and then settles something. After a dot it
settles on the next statement. -/
def Concludes (S : Expected → Prop) (x : Action α) : Prop :=
  ∀ p, S p.expected →
    Goes p (fun ts _ q p' => Settled q p' ∧ (Dotted ts → p'.expected = .statement)) (x p)

/-- The action reads nothing, and settles something unless it fails for another reason than its
input: on the next statement, if `C` holds. -/
def Settles (S : Expected → Prop) (C : Prop) (x : Action α) : Prop :=
  ∀ q, S q.expected →
    (∃ a p, x q = .ok a p ∧ Settled q p ∧ (C → p.expected = .statement)) ∨
      ∃ e, x q = .error e q ∧ e.Plain

section Concludes

variable {S : Expected → Prop} {C : Prop} {x : Action α} {f : α → Action β} {Q : α → Prop}

/-- An error settles nothing. -/
theorem Settles.throw {e : DocumentError} (h : e.Plain) :
    Settles S C (MonadExcept.throw e : Action α) := fun _ _ => Or.inr ⟨e, rfl, h⟩

/-- What settles something, read behind no dot, concludes. -/
theorem Settles.concludes (h : Settles S C x) : Concludes S x := by
  intro p hp
  rcases h p hp with ⟨a, p', ha, hsettled, -⟩ | ⟨e, he, hplain⟩
  · rw [ha]
    exact .gives (.done p) ⟨hsettled, fun hdot => absurd hdot not_dotted_nil⟩
  · rw [he]
    exact .throws (.done p) hplain

/-- What was read is settled. -/
theorem Scans.concludes (hx : Scans x Q) (hf : ∀ a, Settles S (Q a) (f a)) :
    Concludes S (x >>= f) := by
  intro p hp
  refine (hx p).bind ?_
  rintro ts a _ p₁ course ⟨rfl, hQ⟩
  rcases hf a p₁ (course.expected ▸ hp) with ⟨b, p', hb, hsettled, hclosed⟩ | ⟨e, he, hplain⟩
  · rw [hb]
    exact .gives course ⟨hsettled, fun hdot => hclosed (hQ hdot)⟩
  · rw [he]
    exact .throws course hplain

/-- What follows concludes. -/
theorem Scans.bind_concludes (hx : Scans x fun _ => False) (hf : ∀ a, Concludes S (f a)) :
    Concludes S (x >>= f) := by
  intro p hp
  refine (hx p).bind ?_
  rintro ts a _ p₁ course ⟨rfl, hts⟩
  refine (hf a p₁ (course.expected ▸ hp)).behind course hts ?_
  rintro us b q p' ⟨hsettled, hclosed⟩
  refine ⟨hsettled, fun hdot => ?_⟩
  cases us with
  | nil => exact absurd (List.append_nil ts ▸ hdot) hts
  | cons u us => exact hclosed ((dotted_append (List.cons_ne_nil u us)).1 hdot)

end Concludes

/-- To expect something settles it. -/
theorem settles_expect {S : Expected → Prop} {C : Prop} {e : Expected} (he : e ≠ .nothing)
    (h : C → e = .statement) : Settles S C (expect e) :=
  fun q _ => Or.inl ⟨(), { q with expected := e }, rfl,
    ⟨rfl, rfl, rfl, fun _ => he, Or.inl ⟨rfl, rfl⟩⟩, h⟩

/-- It needs no token to be read for that. -/
theorem concludes_expect {S : Expected → Prop} {e : Expected} (he : e ≠ .nothing) :
    Concludes S (expect e) := (settles_expect he False.elim).concludes

/-- An error concludes without having settled anything. -/
theorem concludes_throw {S : Expected → Prop} {e : DocumentError} (h : e.Plain) :
    Concludes S (MonadExcept.throw e : Action α) := (Settles.throw (C := False) h).concludes

/-- What is given in place of a value changes nothing. -/
theorem Concludes.map {S : Expected → Prop} {x : Action α} (h : Concludes S x) (g : α → β) :
    Concludes S (do return g (← x)) := by
  intro p hp
  exact (h p hp).bind fun ts a q p' course settled => .gives course settled

/-- What is given in place of a value settles the same. -/
theorem Settles.map {S : Expected → Prop} {C : Prop} {x : Action α} (h : Settles S C x)
    (g : α → β) : Settles S C (do return g (← x)) := by
  intro q hq
  simp only [bind, EStateM.bind]
  rcases h q hq with ⟨a, p, ha, hsettled⟩ | ⟨e, he, hplain⟩
  · rw [ha]
    exact Or.inl ⟨g a, p, rfl, hsettled⟩
  · rw [he]
    exact Or.inr ⟨e, rfl, hplain⟩

section

variable [IriLibrary]

/-- A name is settled as something that comes next. -/
theorem concludes_named {S : Expected → Prop} (t : Token) {e : String → Expected}
    (he : ∀ iri, e iri ≠ .nothing) : Concludes S (do let iri ← resource t; expect (e iri)) :=
  (scans_resource t).concludes fun iri => settles_expect (he iri) False.elim

/-- A declaration leaves the parser before the next statement. -/
theorem concludes_readBase (dotted : Bool) : Concludes (· = .statement) (readBase dotted) := by
  apply (scans_readDeclared dotted).concludes
  rintro ⟨token, iri⟩ q hq
  dsimp only
  cases IriLibrary.parse iri.toList with
  | ok base =>
    exact Or.inl ⟨(), _, rfl, ⟨rfl, rfl, rfl, id, Or.inr ⟨hq, hq⟩⟩, fun _ => hq⟩
  | error e => exact Or.inr ⟨_, rfl, trivial⟩

/-- So does the declaration of a namespace. -/
theorem concludes_readPrefix (dotted : Bool) :
    Concludes (· = .statement) (readPrefix dotted) := by
  apply (scans_skipBlank.bind_undotted fun _ =>
    scans_lex_of_dotless dotless_namespaceName).bind_concludes
  intro name
  apply (scans_readDeclared dotted).concludes
  rintro ⟨token, iri⟩ q hq
  exact Or.inl ⟨(), _, rfl, ⟨rfl, rfl, rfl, id, Or.inr ⟨hq, hq⟩⟩, fun _ => hq⟩

/-- What follows the first token of a statement is read and settled. -/
theorem concludes_readStatement (t : Token) : Concludes (· = .statement) (readStatement t) := by
  unfold readStatement
  split
  · exact concludes_readBase true
  · exact concludes_readBase false
  · exact concludes_readPrefix true
  · exact concludes_readPrefix false
  · exact concludes_named t (by simp)
  · exact concludes_named t (by simp)
  · exact concludes_expect (by simp)
  · exact concludes_throw trivial

/-- So is what follows a token in the place of a predicate. -/
theorem concludes_readPredicate (subject : Term) (continued : Bool) (t : Token) :
    Concludes (fun _ => True) (readPredicate subject continued t) := by
  unfold readPredicate
  split
  · split
    · exact concludes_expect (by simp)
    · exact concludes_throw trivial
  · split
    · exact concludes_expect (by simp)
    · exact concludes_throw trivial
  · exact concludes_expect (by simp)
  · exact concludes_named t (by simp)

/-- A triple is complete with the token that ends its object, and what follows is settled by that
token. -/
theorem concludes_readTriple (subject predicate : Term) (t : Token) :
    Concludes (fun _ => True) (readTriple subject predicate t) := by
  apply (scans_readObject t).concludes
  rintro ⟨object, terminator⟩
  dsimp only
  have hexpected : expectedAfter subject predicate terminator.production ≠ .nothing := by
    unfold expectedAfter
    split <;> simp
  have hsettles : Settles (fun _ => True) (terminator.production = .dot)
      (expect (expectedAfter subject predicate terminator.production)) :=
    settles_expect hexpected fun hdot => by rw [hdot]; rfl
  exact hsettles.map fun _ => Triple.mk subject predicate object

end

/-! ## Moves -/

/-- A move that fails: what it has read means nothing or stands in the wrong place, or it cannot
read on. -/
inductive Trips (p : Parser) : List Token → DocumentError → Parser → Prop
  | thrown {ts : List Token} {e : DocumentError} {q : Parser} (course : Course p ts q)
    (some : ts ≠ []) (plain : e.Plain) : Trips p ts e q
  | refused {ts : List Token} {e : DocumentError} {q q' : Parser} (course : Course p ts q)
    (undotted : ¬ Dotted ts) (refused : Refuses q e q') : Trips p ts e q'

/-- Blanks in front of a move that fails belong to it. -/
theorem Trips.blank {p p' q : Parser} {ts : List Token} {e : DocumentError}
    (hp : p.skipBlank = .ok () p') (h : Trips p' ts e q) : Trips p ts e q := by
  cases h with
  | thrown course some plain => exact .thrown (.blank hp course) some plain
  | refused course undotted refused => exact .refused (.blank hp course) undotted refused

/-- Where a move comes to from `p`: along a course to where it settles, on the next statement if the
course has ended with a dot, or it trips. -/
inductive Proceeds (p : Parser) : EStateM.Result DocumentError Parser α → Prop
  | settles {a : α} {ts : List Token} {q p' : Parser} (course : Course p ts q)
    (settled : Settled q p') (closed : Dotted ts → p'.expected = .statement) :
    Proceeds p (.ok a p')
  | trips {e : DocumentError} {ts : List Token} {q : Parser} (trip : Trips p ts e q) :
    Proceeds p (.error e q)

/-- Blanks in front of a move belong to it. -/
theorem Proceeds.blank {p p₁ : Parser} {r : EStateM.Result DocumentError Parser α}
    (hp : p.skipBlank = .ok () p₁) (h : Proceeds p₁ r) : Proceeds p r := by
  cases h with
  | settles course settled closed => exact .settles (.blank hp course) settled closed
  | trips trip => exact .trips (trip.blank hp)

section Tokens

variable {S : Expected → Prop} {y : Token → Action α} {p : Parser}

/-- A token is read, and something is done with it. -/
theorem proceeds_lex (r : Recognizer) (hp : S p.expected) (hy : ∀ t, Concludes S (y t))
    (hdot : ∀ t, t.production = .dot → Settles S True (y t)) :
    Proceeds p ((lex r >>= y) p) := by
  simp only [bind, EStateM.bind]
  -- A dot has to settle the statement or is an error; behind another token the rest decides.
  cases hlex : p.lex r with
  | error e q => exact .trips (.refused (.done p) not_dotted_nil (Or.inr ⟨r, hlex⟩))
  | ok t q =>
    dsimp only
    by_cases ht : t.production = .dot
    · have hq : S q.expected := (Course.dot hlex ht).expected ▸ hp
      rcases hdot t ht q hq with ⟨a, p', ha, hsettled, hclosed⟩ | ⟨e, he, hplain⟩
      · rw [ha]
        exact .settles (.dot hlex ht) hsettled fun _ => hclosed trivial
      · rw [he]
        exact .trips (.thrown (.dot hlex ht) (List.cons_ne_nil t []) hplain)
    · have hq : S q.expected := (Course.token hlex ht (.done q)).expected ▸ hp
      have hgoes := hy t q hq
      generalize y t q = result at hgoes
      cases hgoes with
      | gives course settled =>
        exact .settles (.token hlex ht course) settled.1 (settled.2 ∘ (dotted_cons ht).1)
      | throws course plain =>
        exact .trips (.thrown (.token hlex ht course) (List.cons_ne_nil t _) plain)
      | refuses course undotted refused =>
        exact .trips (.refused (.token hlex ht course) (mt (dotted_cons ht).1 undotted) refused)

/-- So is a token behind blanks. -/
theorem proceeds_lexAfterBlank (r : Recognizer) (hp : S p.expected)
    (hy : ∀ t, Concludes S (y t)) (hdot : ∀ t, t.production = .dot → Settles S True (y t)) :
    Proceeds p ((lexAfterBlank r >>= y) p) := by
  have hassoc : (lexAfterBlank r >>= y) p = (skipBlank >>= fun _ => lex r >>= y) p := by
    simp only [lexAfterBlank, bind, EStateM.bind]
    cases p.skipBlank <;> rfl
  rw [hassoc]
  simp only [bind, EStateM.bind]
  cases hblank : p.skipBlank with
  | error e q => exact .trips (.refused (.done p) not_dotted_nil (Or.inl hblank))
  | ok u q =>
    have hq : S q.expected := (Course.blank hblank (.done q)).expected ▸ hp
    exact (proceeds_lex r hq hy hdot).blank hblank

end Tokens

section

variable [IriLibrary]

/-- The move finds nothing more to read. -/
def Finishes (p : Parser) : Prop :=
  ∃ p', p.move = .ok .finished p' ∧
    (p.expected = .nothing ∧ p' = p ∨
      ∃ q, p.skipBlank = .ok () q ∧ q.scanner.atEnd ∧ p' = { q with expected := .nothing })

/-- In the place of a statement the blanks are behind before its token is read, or before nothing
more is there to read. -/
theorem proceeds_moveStatement {p : Parser} (hx : p.expected = .statement) :
    Proceeds p (moveStatement p) ∨ ∃ q, p.skipBlank = .ok () q ∧ q.scanner.atEnd ∧
      moveStatement p = .ok .finished { q with expected := .nothing } := by
  have hbegin {q : Parser} (hq : q.expected = .statement) :
      Proceeds q ((do readStatement (← lex .statement); return Outcome.onward : Action Outcome)
        q) := by
    apply proceeds_lex .statement (S := (· = .statement)) hq
    · exact fun t => (concludes_readStatement t).map fun _ => Outcome.onward
    · intro t ht
      refine Settles.map ?_ fun _ => Outcome.onward
      unfold readStatement
      rw [ht]
      exact .throw trivial
  simp only [moveStatement, bind, EStateM.bind]
  cases hblank : p.skipBlank with
  | error e q => exact Or.inl (.trips (.refused (.done p) not_dotted_nil (Or.inl hblank)))
  | ok u q =>
    simp only [get_apply]
    have hq : q.expected = .statement := (Course.blank hblank (.done q)).expected.trans hx
    by_cases hend : q.scanner.atEnd
    · rw [if_pos hend]
      exact Or.inr ⟨q, rfl, hend, rfl⟩
    · rw [if_neg hend]
      exact Or.inl ((hbegin hq).blank hblank)

/-- In the place of a predicate a dot may only end predicates that have gone before. -/
theorem proceeds_movePredicate (subject : Term) (continued : Bool) (p : Parser) :
    Proceeds p (movePredicate subject continued p) := by
  apply proceeds_lexAfterBlank .predicate (S := fun _ => True) trivial
  · exact fun t => (concludes_readPredicate subject continued t).map fun _ => Outcome.onward
  · intro t ht
    unfold readPredicate
    rw [ht]
    refine Settles.map ?_ fun _ => Outcome.onward
    cases continued with
    | true => exact settles_expect (by simp) fun _ => rfl
    | false => exact .throw trivial

/-- In the place of an object no dot stands. -/
theorem proceeds_moveObject (subject predicate : Term) (p : Parser) :
    Proceeds p (moveObject subject predicate p) := by
  apply proceeds_lexAfterBlank .object (S := fun _ => True) trivial
  · exact fun t => (concludes_readTriple subject predicate t).map Outcome.triple
  · intro t ht
    refine Settles.map ?_ Outcome.triple
    intro q _
    refine Or.inr ⟨t.unexpected, ?_, trivial⟩
    simp only [readTriple, readObject, ht]
    rfl

/-- **Every move proceeds along a course**, unless it finds nothing more to read. -/
theorem proceeds_move (p : Parser) : Proceeds p p.move ∨ p.Finishes := by
  cases hx : p.expected with
  | nothing =>
    refine Or.inr ⟨p, ?_, Or.inl ⟨hx, rfl⟩⟩
    simp only [move, hx]
  | statement =>
    have hmove : p.move = moveStatement p := by simp only [move, hx]
    rw [Finishes, hmove]
    rcases proceeds_moveStatement hx with hproceeds | ⟨q, hblank, hend, hfinished⟩
    · exact Or.inl hproceeds
    · exact Or.inr ⟨_, hfinished, Or.inr ⟨q, hblank, hend, rfl⟩⟩
  | predicate subject continued =>
    have hmove : p.move = movePredicate subject continued p := by simp only [move, hx]
    rw [hmove]
    exact Or.inl (proceeds_movePredicate subject continued p)
  | object subject predicate =>
    have hmove : p.move = moveObject subject predicate p := by simp only [move, hx]
    rw [hmove]
    exact Or.inl (proceeds_moveObject subject predicate p)

/-- Parsing goes on as long as it has not finished. -/
theorem expected_of_move_onward {p p' : Parser} {o : Outcome} (hx : p.expected ≠ .nothing)
    (hm : p.move = .ok o p') (ho : o ≠ .finished) : p'.expected ≠ .nothing := by
  rcases p.proceeds_move with hproceeds | ⟨p'', hfinished, -⟩
  · rw [hm] at hproceeds
    cases hproceeds with
    | settles course settled => exact settled.onward (course.expected ▸ hx)
  · rw [hm] at hfinished
    injection hfinished with h _
    exact absurd h ho

/-- A move finishes only where a statement may begin, or nothing, and finds nothing more to read. -/
theorem finishes_of_move {p p' : Parser} (hm : p.move = .ok .finished p') :
    (p.expected = .nothing ∨ p.expected = .statement) ∧ p.Finishes := by
  cases moved_of_move hm with
  | stopped hx => exact ⟨Or.inl hx, p, hm, Or.inl ⟨hx, rfl⟩⟩
  | ended hx hblank hend => exact ⟨Or.inr hx, _, hm, Or.inr ⟨_, hblank, hend, rfl⟩⟩

/-- Parsing finishes at the end of input. -/
theorem atEnd_of_move_finished {p p' : Parser} (hx : p.expected ≠ .nothing)
    (hm : p.move = .ok .finished p') : p'.scanner.atEnd := by
  obtain ⟨-, p'', hm', ⟨hn, -⟩ | ⟨q, -, hend, rfl⟩⟩ := finishes_of_move hm
  · exact absurd hn hx
  · rw [hm] at hm'
    injection hm' with _ hp'
    rw [hp']
    exact hend

/-- Where parsing has finished nothing comes next. -/
theorem expected_of_move_finished {p p' : Parser} (hm : p.move = .ok .finished p') :
    p'.expected = .nothing := by
  obtain ⟨-, p'', hm', hend⟩ := finishes_of_move hm
  rw [hm] at hm'
  injection hm' with _ hp'
  subst hp'
  rcases hend with ⟨hn, rfl⟩ | ⟨q, -, -, rfl⟩
  · exact hn
  · rfl

end

end Parser

end RdfTurtle
