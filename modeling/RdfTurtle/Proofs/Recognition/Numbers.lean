import RdfTurtle.Proofs.Recognition.Families

/-! # Numbers, booleans and namespaces by their states

What is read as a number, as a boolean or as a namespace is one of the grammar. A dot that was
deferred belongs to a number if digits or an exponent follow, and a word that goes on is the
beginning of a namespace.

* **`Move.Chosen`** — a path that goes on with the move that is chosen for a code point.
* **`State.run_of_path`** — a state that keeps to the characters of a class.
* **`State.number_of_path`**, **`State.boolean_of_path`**, **`State.namespace_of_path`** — what is
  read is one. -/

namespace RdfTurtle

/-- A path that goes on with a move for the code point, `ds` being deferred before it. -/
inductive Move.Path (iri : Strictness) (p : Production) (c : CodePoint) (ds : List CodePoint) :
    Move → List CodePoint → Prop
  | finish : Path iri p c ds (.finish p) (ds ++ [c])
  | take {st : State} {cs : List CodePoint} (more : State.Path iri p st [] cs) :
    Path iri p c ds (.take st) (ds ++ [c] ++ cs)
  | skip {st : State} {cs : List CodePoint} (more : State.Path iri p st ds cs) :
    Path iri p c ds (.skip st) cs
  | defer {st : State} {cs : List CodePoint} (more : State.Path iri p st (ds ++ [c]) cs) :
    Path iri p c ds (.defer st) cs

/-- Some move is chosen, and the path goes on with it. -/
def Move.Chosen (iri : Strictness) (p : Production) (c : CodePoint) (ds cs : List CodePoint)
    (m? : Option Move) : Prop :=
  ∃ m, m? = some m ∧ m.Path iri p c ds cs

namespace Move.Chosen

variable {iri : Strictness} {p : Production} {st : State} {c : CodePoint} {ds cs : List CodePoint}
variable {q : Prop} [Decidable q] {a b : Option Move}

/-- Where there is no move none is chosen. -/
theorem none : ¬ Chosen iri p c ds cs none := fun ⟨_, h, _⟩ => by cases h

/-- Either branch of a choice is followed. -/
theorem ite (h : Chosen iri p c ds cs (if q then a else b)) :
    q ∧ Chosen iri p c ds cs a ∨ ¬ q ∧ Chosen iri p c ds cs b := by
  split at h
  · exact Or.inl ⟨‹_›, h⟩
  · exact Or.inr ⟨‹_›, h⟩

/-- The other branch is followed. -/
theorem of_not (h : Chosen iri p c ds cs (if q then a else b)) (hq : ¬ q) :
    Chosen iri p c ds cs b := by
  rwa [if_neg hq] at h

/-- Behind a code point that is taken the path goes on. -/
theorem take (h : Chosen iri p c ds cs (some (.take st))) :
    ∃ cs', cs = ds ++ [c] ++ cs' ∧ State.Path iri p st [] cs' := by
  obtain ⟨_, hm, hpath⟩ := h
  obtain rfl := Option.some.inj hm
  cases hpath with
  | take more => exact ⟨_, rfl, more⟩

/-- A code point that is deferred is carried along the path. -/
theorem defer (h : Chosen iri p c ds cs (some (.defer st))) :
    State.Path iri p st (ds ++ [c]) cs := by
  obtain ⟨_, hm, hpath⟩ := h
  obtain rfl := Option.some.inj hm
  cases hpath with
  | defer more => exact more

/-- A code point that ends the token ends the path. -/
theorem finish {p' : Production} (h : Chosen iri p c ds cs (some (.finish p'))) :
    p' = p ∧ cs = ds ++ [c] := by
  obtain ⟨_, hm, hpath⟩ := h
  obtain rfl := Option.some.inj hm
  cases hpath with
  | finish => exact ⟨rfl, rfl⟩

/-- The kind of what goes on with a move is of the sort of the move. -/
theorem family {f : Family} (h : Chosen iri p c ds cs a)
    (ha : Move.Only (fun m => m.family = some f) a) : p.family = f := by
  obtain ⟨m, hm, hpath⟩ := h
  have hf := ha m hm
  cases hpath with
  | finish => exact Option.some.inj hf
  | take more | skip more | defer more => exact State.family_of_path more hf

end Move.Chosen

namespace State

open Syntax
open Move (Chosen)

variable {iri : Strictness} {p : Production} {st : State} {c : CodePoint} {ds cs : List CodePoint}

/-- A path ends where it is or begins with a move. -/
theorem path_cases (h : Path iri p st ds cs) :
    st.accepting = some p ∧ cs = [] ∨ ∃ c, Chosen iri p c ds cs (st.next iri c) := by
  cases h with
  | stop haccepting => exact Or.inl ⟨haccepting, rfl⟩
  | finish hnext => exact Or.inr ⟨_, _, hnext, .finish⟩
  | take hnext more => exact Or.inr ⟨_, _, hnext, .take more⟩
  | skip hnext more => exact Or.inr ⟨_, _, hnext, .skip more⟩
  | defer hnext more => exact Or.inr ⟨_, _, hnext, .defer more⟩

/-- From a state that accepts nothing a path begins with a move. -/
theorem path_moves (h : Path iri p st ds cs) (hst : st.accepting = none) :
    ∃ c, Chosen iri p c ds cs (st.next iri c) := by
  refine (path_cases h).resolve_left ?_
  rintro ⟨haccepting, -⟩
  rw [hst] at haccepting
  cases haccepting

/-- A path ends in the state, or leaves it with a code point that is not in the class. -/
def Leaves (iri : Strictness) (p : Production) (st : State) (k : CharClass)
    (cs : List CodePoint) : Prop :=
  st.accepting = some p ∧ cs = [] ∨ ∃ c, c ∉ k ∧ Chosen iri p c [] cs (st.next iri c)

/-- **A state that keeps to the characters of a class takes a run of them.** -/
theorem run_of_path {k : CharClass}
    (hk : ∀ r ∈ k.ranges, r.last < 0xD800 ∨ 0xDFFF < r.first ∧ r.last < 0x110000)
    (hloop : ∀ c ∈ k, st.next iri c = some (.take st)) (h : Path iri p st [] cs) :
    ∃ (r : Run k) (cs' : List CodePoint), cs = codes r.chars ++ cs' ∧ Leaves iri p st k cs' := by
  have hleave {c : CodePoint} {m : Move} {cs : List CodePoint} (hnext : st.next iri c = some m)
      (hm : m ≠ .take st) (hpath : m.Path iri p c [] cs) :
      ∃ (r : Run k) (cs' : List CodePoint), cs = codes r.chars ++ cs' ∧ Leaves iri p st k cs' := by
    refine ⟨⟨[], by simp⟩, cs, rfl, Or.inr ⟨c, fun hc => hm ?_, m, hnext, hpath⟩⟩
    exact Option.some.inj (hnext.symm.trans (hloop c hc))
  -- The state and what is deferred are indices of the path and have to be variables.
  generalize hds : ([] : List CodePoint) = ds at h
  generalize hst : st = st₀ at h
  induction h with
  | stop haccepting => exact ⟨⟨[], by simp⟩, [], rfl, Or.inl ⟨hst ▸ haccepting, rfl⟩⟩
  | finish hnext =>
    subst hst hds
    exact hleave hnext (by simp) .finish
  | skip hnext more =>
    subst hst hds
    exact hleave hnext (by simp) (.skip more)
  | defer hnext more =>
    subst hst hds
    exact hleave hnext (by simp) (.defer more)
  | @take st₁ st' ds cs c hnext more ih =>
    subst hst hds
    by_cases hc : c ∈ k
    · have hsame : st = st' := Move.take.inj (Option.some.inj ((hloop c hc).symm.trans hnext))
      obtain ⟨r, cs', rfl, hleaves⟩ := ih rfl hsame
      rw [← hsame] at hleaves
      obtain ⟨x, rfl⟩ := exists_char hk hc
      exact ⟨⟨x :: r.chars, List.forall_mem_cons.2 ⟨hc, r.all⟩⟩, cs', rfl, hleaves⟩
    · exact ⟨⟨[], by simp⟩, _, rfl, Or.inr ⟨c, hc, _, hnext, .take more⟩⟩

/-! ## Numbers -/

/-- A digit is a character. -/
theorem exists_digit (hc : c ∈ CharClass.digit) : ∃ x : Char, c = x :=
  exists_char (by simp [CharClass.digit]) hc

/-- A digit and more of them are a word of digits. -/
def wordOfDigits (x : Char) (hx : (x : CodePoint) ∈ CharClass.digit) (r : Run CharClass.digit) :
    Word CharClass.digit :=
  ⟨⟨x :: r.chars, List.forall_mem_cons.2 ⟨hx, r.all⟩⟩, by simp⟩

/-- The signs are plus and minus. -/
theorem cases_of_sign (hc : c ∈ CharClass.sign) : c = '+' ∨ c = '-' := by
  simp [CharClass.sign, CharClass.mem_iff] at hc
  simp only [CodePoint.ext_iff, CodePoint.value_ofChar, Char.reduceToNat]
  omega

/-- A code point that is a sign is written as one. -/
theorem exists_sign (hc : c ∈ CharClass.sign) : ∃ s : Sign, [c] = codes s.text := by
  rcases cases_of_sign hc with rfl | rfl
  · exact ⟨.plus, rfl⟩
  · exact ⟨.minus, rfl⟩

/-- An exponent ends with digits. -/
theorem digits_of_path (h : Path iri p .exponentDigits [] cs) :
    p = .double ∧ ∃ r : Run CharClass.digit, cs = codes r.chars := by
  have hloop (c : CodePoint) (hc : c ∈ CharClass.digit) :
      State.exponentDigits.next iri c = some (.take .exponentDigits) := by
    simp only [next, if_pos hc]
  obtain ⟨r, cs', rfl, hleaves⟩ := run_of_path (by simp [CharClass.digit]) hloop h
  rcases hleaves with ⟨haccepting, rfl⟩ | ⟨c, hc, hmove⟩
  · exact ⟨(Option.some.inj haccepting).symm, r, by simp⟩
  · exact (Chosen.none (hmove.of_not hc)).elim

/-- Behind its letter an exponent has perhaps a sign, and digits. -/
theorem exponent_of_path (h : Path iri p .exponent [] cs) :
    p = .double ∧ ∃ (sign : Sign) (digits : Word CharClass.digit),
      cs = codes (sign.text ++ digits.chars) := by
  obtain ⟨c, hmove⟩ := path_moves h rfl
  rcases hmove.ite with ⟨hc, hmove⟩ | ⟨-, hmove⟩
  · obtain ⟨_, rfl, hsigned⟩ := hmove.take
    obtain ⟨d, _, hd, rfl, hmore⟩ :=
      path_of_take (q := (· ∈ CharClass.digit)) hsigned rfl fun _ => rfl
    obtain ⟨rfl, r, rfl⟩ := digits_of_path hmore
    obtain ⟨sign, hsign⟩ := exists_sign hc
    obtain ⟨x, rfl⟩ := exists_digit hd
    refine ⟨rfl, sign, wordOfDigits x hd r, ?_⟩
    rw [List.nil_append, hsign, codes_append]
    rfl
  · rcases hmove.ite with ⟨hc, hmove⟩ | ⟨-, hmove⟩
    · obtain ⟨_, rfl, hmore⟩ := hmove.take
      obtain ⟨rfl, r, rfl⟩ := digits_of_path hmore
      obtain ⟨x, rfl⟩ := exists_digit hc
      exact ⟨rfl, .none, wordOfDigits x hc r, rfl⟩
    · exact (Chosen.none hmove).elim

/-- The end of a number behind its digits: nothing, so that the number is of the kind `plain`, or an
exponent. -/
inductive NumberEnd (plain : Production) : Production → List Char → Prop
  | plain : NumberEnd plain plain []
  | exponent {mark : Char} (h : (mark : CodePoint) ∈ CharClass.exponentMark) (sign : Sign)
    (digits : Word CharClass.digit) :
    NumberEnd plain .double (mark :: (sign.text ++ digits.chars))

/-- The letter of an exponent, and the exponent. -/
theorem numberEnd_of_exponent (plain : Production) (hc : c ∈ CharClass.exponentMark)
    (h : Path iri p .exponent [] cs) : ∃ t, c :: cs = codes t ∧ NumberEnd plain p t := by
  obtain ⟨rfl, sign, digits, rfl⟩ := exponent_of_path h
  obtain ⟨x, rfl⟩ := exists_char (by simp [CharClass.exponentMark]) hc
  exact ⟨_, rfl, .exponent hc sign digits⟩

/-- Behind a point and a digit a number goes on with digits to its end. -/
theorem fraction_of_path (h : Path iri p .fraction [] cs) :
    ∃ (r : Run CharClass.digit) (t : List Char),
      cs = codes (r.chars ++ t) ∧ NumberEnd .decimal p t := by
  have hloop (c : CodePoint) (hc : c ∈ CharClass.digit) :
      State.fraction.next iri c = some (.take .fraction) := by simp only [next, if_pos hc]
  obtain ⟨r, cs', rfl, hleaves⟩ := run_of_path (by simp [CharClass.digit]) hloop h
  rcases hleaves with ⟨haccepting, rfl⟩ | ⟨c, hc, hmove⟩
  · exact ⟨r, [], by simp, Option.some.inj haccepting ▸ .plain⟩
  · rcases (hmove.of_not hc).ite with ⟨hmark, hmove⟩ | ⟨-, hmove⟩
    · obtain ⟨_, rfl, hmore⟩ := hmove.take
      obtain ⟨t, ht, hend⟩ := numberEnd_of_exponent .decimal hmark hmore
      exact ⟨r, t, by rw [codes_append, ← ht]; rfl, hend⟩
    · exact (Chosen.none hmove).elim

/-- What follows a point that is part of a number: digits, if there is no exponent, and the end. -/
def PointEnd (p : Production) (cs : List CodePoint) : Prop :=
  ∃ (r : Run CharClass.digit) (t : List Char), cs = codes (r.chars ++ t) ∧
    NumberEnd .decimal p t ∧ (p = .decimal → r.chars ≠ [])

/-- A digit behind a point. -/
theorem pointEnd_of_digit (hc : c ∈ CharClass.digit) (h : Path iri p .fraction [] cs) :
    ∃ (w : Word CharClass.digit) (t : List Char), c :: cs = codes (w.chars ++ t) ∧
      NumberEnd .decimal p t := by
  obtain ⟨r, t, rfl, hend⟩ := fraction_of_path h
  obtain ⟨x, rfl⟩ := exists_digit hc
  exact ⟨wordOfDigits x hc r, t, rfl, hend⟩

/-- Behind digits a point is part of the number if digits or an exponent follow. -/
theorem point_of_path (h : Path iri p .integerDot ds cs) :
    p = .integer ∧ cs = [] ∨ ∃ cs', cs = ds ++ cs' ∧ PointEnd p cs' := by
  rcases path_cases h with ⟨haccepting, rfl⟩ | ⟨c, hmove⟩
  · exact Or.inl ⟨(Option.some.inj haccepting).symm, rfl⟩
  · right
    rcases hmove.ite with ⟨hc, hmove⟩ | ⟨-, hmove⟩
    · obtain ⟨_, rfl, hmore⟩ := hmove.take
      obtain ⟨w, t, ht, hend⟩ := pointEnd_of_digit hc hmore
      exact ⟨_, List.append_assoc .., w.toRun, t, ht, hend, fun _ => w.nonempty⟩
    · rcases hmove.ite with ⟨hc, hmove⟩ | ⟨-, hmove⟩
      · obtain ⟨_, rfl, hmore⟩ := hmove.take
        obtain ⟨t, ht, hend⟩ := numberEnd_of_exponent .decimal hc hmore
        refine ⟨_, List.append_assoc .., ⟨[], by simp⟩, t, ht, hend, ?_⟩
        -- Without digits there is an exponent.
        rintro rfl
        cases hend with
        | plain => cases ht
      · exact (Chosen.none hmove).elim

/-- What is, behind any sign, a number of the kind. -/
def Unsigned (p : Production) (text : List Char) : Prop :=
  ∀ sign : Sign, ∃ n : Number, n.production = p ∧ n.text = sign.text ++ text

/-- A number that begins with a digit. -/
theorem unsigned_of_digit (hc : c ∈ CharClass.digit) (h : Path iri p .integer [] cs) :
    ∃ text, c :: cs = codes text ∧ Unsigned p text := by
  have hloop (c : CodePoint) (hc : c ∈ CharClass.digit) :
      State.integer.next iri c = some (.take .integer) := by simp only [next, if_pos hc]
  obtain ⟨r, cs', rfl, hleaves⟩ := run_of_path (by simp [CharClass.digit]) hloop h
  obtain ⟨x, rfl⟩ := exists_digit hc
  -- The digits that have been read; each way on makes a number of them.
  have hword : CodePoint.ofChar x :: codes r.chars = codes (wordOfDigits x hc r).chars := rfl
  rw [← List.cons_append, hword]
  generalize wordOfDigits x hc r = w
  rcases hleaves with ⟨haccepting, rfl⟩ | ⟨c, hdigit, hmove⟩
  · obtain rfl := Option.some.inj haccepting
    exact ⟨w.chars, by simp, fun sign => ⟨.integer sign w, rfl, rfl⟩⟩
  · rcases (hmove.of_not hdigit).ite with ⟨rfl, hmove⟩ | ⟨-, hmove⟩
    · rcases point_of_path hmove.defer with ⟨rfl, rfl⟩ | ⟨_, rfl, after, t, rfl, hend, hafter⟩
      · exact ⟨w.chars, by simp, fun sign => ⟨.integer sign w, rfl, rfl⟩⟩
      · refine ⟨w.chars ++ '.' :: (after.chars ++ t), by simp, fun sign => ?_⟩
        cases hend with
        | plain => exact ⟨.decimal sign w.toRun ⟨after, hafter rfl⟩, rfl, by simp [Number.text]⟩
        | exponent hmark exponentSign exponent =>
          exact ⟨.double sign (.pointed w after) _ hmark exponentSign exponent, rfl,
            by simp [Number.text, Mantissa.text]⟩
    · rcases hmove.ite with ⟨hmark, hmove⟩ | ⟨-, hmove⟩
      · obtain ⟨_, rfl, hmore⟩ := hmove.take
        obtain ⟨t, ht, hend⟩ := numberEnd_of_exponent .integer hmark hmore
        refine ⟨w.chars ++ t, by rw [codes_append, ← ht]; rfl, fun sign => ?_⟩
        cases hend with
        | plain => cases ht
        | exponent hmark exponentSign exponent =>
          exact ⟨.double sign (.bare w) _ hmark exponentSign exponent, rfl, rfl⟩
      · exact (Chosen.none hmove).elim

/-- A number that begins with a point. -/
theorem unsigned_of_point (h : Path iri p .leadingDot ds cs) :
    ∃ text, cs = ds ++ codes text ∧ Unsigned p ('.' :: text) := by
  obtain ⟨c, hmove⟩ := path_moves h rfl
  rcases hmove.ite with ⟨hc, hmove⟩ | ⟨-, hmove⟩
  · obtain ⟨_, rfl, hmore⟩ := hmove.take
    obtain ⟨w, t, ht, hend⟩ := pointEnd_of_digit hc hmore
    refine ⟨w.chars ++ t, by rw [← ht]; exact List.append_assoc .., fun sign => ?_⟩
    cases hend with
    | plain => exact ⟨.decimal sign ⟨[], by simp⟩ w, rfl, by simp [Number.text]⟩
    | exponent hmark exponentSign exponent =>
      exact ⟨.double sign (.leading w) _ hmark exponentSign exponent, rfl,
        by simp [Number.text, Mantissa.text]⟩
  · exact (Chosen.none hmove).elim

/-- Behind its sign a number begins with a digit or with a point. -/
theorem unsigned_of_sign (h : Path iri p .sign [] cs) :
    ∃ text, cs = codes text ∧ Unsigned p text := by
  obtain ⟨c, hmove⟩ := path_moves h rfl
  rcases hmove.ite with ⟨hc, hmove⟩ | ⟨-, hmove⟩
  · obtain ⟨_, rfl, hmore⟩ := hmove.take
    exact unsigned_of_digit hc hmore
  · rcases hmove.ite with ⟨rfl, hmove⟩ | ⟨-, hmove⟩
    · obtain ⟨_, rfl, hmore⟩ := hmove.take
      obtain ⟨text, rfl, htext⟩ := unsigned_of_point hmore
      exact ⟨'.' :: text, rfl, htext⟩
    · exact (Chosen.none hmove).elim

/-! ## The beginning of an object -/

/-- The first move of an object: into a number, into the word of a boolean, into a namespace, or
into a token that is neither a number nor a word. -/
inductive ObjectMove (c : CodePoint) : Move → Prop
  | sign (h : c ∈ CharClass.sign) : ObjectMove c (.take .sign)
  | digit (h : c ∈ CharClass.digit) : ObjectMove c (.take .integer)
  | point (h : c = '.') : ObjectMove c (.defer .leadingDot)
  | word {b : Bool} {k : Keyword} (hk : k.foldsCase = false)
    (h : c = k.head ∧ booleanText b = k.head :: k.tail) : ObjectMove c (.take (.keyword k k.tail))
  | name {m : Move} (h : m = .finish .namespaceName ∨ m = .take .namespaceBody) : ObjectMove c m
  | other {m : Move} {f : Family} (h : m.family = some f) (hnumber : f ≠ .number)
    (hword : f ≠ .word) : ObjectMove c m

/-- Each first move of an object is one of these. -/
theorem objectMove_of_next (iri : Strictness) (c : CodePoint) :
    Move.Only (ObjectMove c) ((State.start .object).next iri c) := by
  refine .ite (fun _ => .some (.other rfl (by decide) (by decide))) fun _ => ?_
  refine .ite (fun hc => .some (.point hc)) fun _ => ?_
  refine .ite (fun hc => .some (.word (b := true) rfl ⟨hc, rfl⟩)) fun _ => ?_
  refine .ite (fun hc => .some (.word (b := false) rfl ⟨hc, rfl⟩)) fun _ => ?_
  refine .ite (fun _ => .some (.other rfl (by decide) (by decide))) fun _ => ?_
  refine .ite (fun _ => .some (.other rfl (by decide) (by decide))) fun _ => ?_
  refine .ite (fun hc => .some (.sign hc)) fun _ => ?_
  refine .ite (fun hc => .some (.digit hc)) fun _ => ?_
  refine .ite (fun _ => .some (.other rfl (by decide) (by decide))) fun _ => ?_
  refine .ite (fun _ => .some (.name (Or.inl rfl))) fun _ => ?_
  exact .ite (fun _ => .some (.name (Or.inr rfl))) fun _ => .none

/-- An object begins with one of these moves. -/
theorem exists_objectMove (h : Path iri p (.start .object) [] cs) :
    ∃ c m, ObjectMove c m ∧ Chosen iri p c [] cs (some m) := by
  obtain ⟨c, m, hnext, hpath⟩ := path_moves h rfl
  exact ⟨c, m, objectMove_of_next iri c m hnext, m, rfl, hpath⟩

/-- **What is read as a number is one, of the kind that it is read as.** -/
theorem number_of_path (h : Path iri p (.start .object) [] cs) (hp : p.family = .number) :
    ∃ n : Number, n.production = p ∧ cs = codes n.text := by
  obtain ⟨c, m, hobject, hmove⟩ := exists_objectMove h
  have hfamily {f : Family} (hm : m.family = some f) : f = .number :=
    (hmove.family (.some hm)).symm.trans hp
  -- Words and names are of other families, so the first move is into a number.
  cases hobject with
  | sign hc =>
    obtain ⟨_, rfl, hmore⟩ := hmove.take
    obtain ⟨text, rfl, htext⟩ := unsigned_of_sign hmore
    obtain ⟨sign, hsign⟩ := exists_sign hc
    obtain ⟨n, hn, hnumber⟩ := htext sign
    exact ⟨n, hn, by rw [hnumber, codes_append, ← hsign]; rfl⟩
  | digit hc =>
    obtain ⟨_, rfl, hmore⟩ := hmove.take
    obtain ⟨text, ht, htext⟩ := unsigned_of_digit hc hmore
    obtain ⟨n, hn, hnumber⟩ := htext .none
    exact ⟨n, hn, by rw [hnumber]; exact ht⟩
  | point hc =>
    obtain ⟨text, rfl, htext⟩ := unsigned_of_point hmove.defer
    obtain ⟨n, hn, hnumber⟩ := htext .none
    exact ⟨n, hn, by rw [hnumber, hc]; rfl⟩
  | word => cases hfamily rfl
  | name hm => rcases hm with rfl | rfl <;> cases hfamily rfl
  | other hm hnumber => exact absurd (hfamily hm) hnumber

/-! ## Namespaces and booleans -/

/-- The moves within a namespace. -/
theorem cases_of_ofNamespace {m : Move} (h : Move.ofNamespace c = some m) :
    c = ':' ∧ m = .finish .namespaceName ∨ c ∈ CharClass.nameChar ∧ m = .take .namespaceBody ∨
      c = '.' ∧ m = .take .namespaceDots := by
  simp only [Move.ofNamespace] at h
  split at h
  · next hc => exact Or.inl ⟨hc, (Option.some.inj h).symm⟩
  · split at h
    · next hc => exact Or.inr (Or.inl ⟨hc, (Option.some.inj h).symm⟩)
    · split at h
      · next hc => exact Or.inr (Or.inr ⟨hc, (Option.some.inj h).symm⟩)
      · cases h

/-- The rest of a namespace from a state within it: characters of names and dots, and a colon, which
does not follow a dot. -/
def NameEnd (st : State) (cs : List CodePoint) : Prop :=
  ∃ chars : List Char, cs = codes (chars ++ [':']) ∧
    (∀ y ∈ chars, (y : CodePoint) ∈ CharClass.nameChar ∨ y = '.') ∧
    chars.getLast? ≠ some '.' ∧ (st = .namespaceDots → chars ≠ [])

/-- One more character of a namespace. -/
theorem NameEnd.char (hc : c ∈ CharClass.nameChar) (h : NameEnd .namespaceBody cs) :
    NameEnd st (c :: cs) := by
  obtain ⟨chars, rfl, hchars, hlast, -⟩ := h
  obtain ⟨x, rfl⟩ := exists_char (by simp [CharClass.nameChar]) hc
  refine ⟨x :: chars, rfl, List.forall_mem_cons.2 ⟨Or.inl hc, hchars⟩, ?_, by simp⟩
  cases chars with
  | nil =>
    intro hx
    have hx : x = '.' := Option.some.inj hx
    rw [hx] at hc
    exact dot_notMem_nameChar hc
  | cons y chars => rwa [List.getLast?_cons_cons]

/-- One more dot, which is not the last character. -/
theorem NameEnd.dot (h : NameEnd .namespaceDots cs) : NameEnd st (CodePoint.ofChar '.' :: cs) := by
  obtain ⟨chars, rfl, hchars, hlast, hmore⟩ := h
  refine ⟨'.' :: chars, rfl, List.forall_mem_cons.2 ⟨Or.inr rfl, hchars⟩, ?_, by simp⟩
  cases chars with
  | nil => exact absurd rfl (hmore rfl)
  | cons y chars => rwa [List.getLast?_cons_cons]

/-- What has begun as a namespace is one. -/
theorem nameEnd_of_path (h : Path iri p st ds cs) (hds : ds = [])
    (hst : st = .namespaceBody ∨ st = .namespaceDots) : p = .namespaceName ∧ NameEnd st cs := by
  -- Read backwards from the colon; behind a dot the name goes on.
  have hcases {st : State} {c : CodePoint} {m : Move} (hnext : st.next iri c = some m)
      (hst : st = .namespaceBody ∨ st = .namespaceDots) :
      st = .namespaceBody ∧ c = ':' ∧ m = .finish .namespaceName ∨
        c ∈ CharClass.nameChar ∧ m = .take .namespaceBody ∨ c = '.' ∧ m = .take .namespaceDots := by
    rcases hst with rfl | rfl
    · exact (cases_of_ofNamespace hnext).imp_left fun h => ⟨rfl, h⟩
    · simp only [next] at hnext
      split at hnext
      · next hc => exact Or.inr (Or.inl ⟨hc, (Option.some.inj hnext).symm⟩)
      · split at hnext
        · next hc => exact Or.inr (Or.inr ⟨hc, (Option.some.inj hnext).symm⟩)
        · cases hnext
  induction h with
  | stop haccepting => rcases hst with rfl | rfl <;> cases haccepting
  | finish hnext =>
    rcases hcases hnext hst with ⟨rfl, rfl, hm⟩ | ⟨-, hm⟩ | ⟨-, hm⟩
    · injection hm with hp
      subst hp hds
      exact ⟨rfl, [], rfl, by simp, by simp, by simp⟩
    · cases hm
    · cases hm
  | take hnext _ ih =>
    subst hds
    rcases hcases hnext hst with ⟨-, -, hm⟩ | ⟨hc, hm⟩ | ⟨rfl, hm⟩
    · cases hm
    · obtain rfl := Move.take.inj hm
      obtain ⟨hp, hend⟩ := ih rfl (Or.inl rfl)
      exact ⟨hp, hend.char hc⟩
    · obtain rfl := Move.take.inj hm
      obtain ⟨hp, hend⟩ := ih rfl (Or.inr rfl)
      exact ⟨hp, hend.dot⟩
  | skip hnext | defer hnext =>
    rcases hcases hnext hst with ⟨-, -, hm⟩ | ⟨-, hm⟩ | ⟨-, hm⟩ <;> cases hm

/-- **What is read where a namespace is asked for is one.** -/
theorem namespace_of_path (h : Path iri p (.start .namespaceName) [] cs) :
    ∃ n : Namespace, cs = codes n.text := by
  obtain ⟨c, hmove⟩ := path_moves h rfl
  rcases hmove.ite with ⟨rfl, hmove⟩ | ⟨-, hmove⟩
  · obtain ⟨-, rfl⟩ := hmove.finish
    exact ⟨⟨[], fun h => absurd rfl h⟩, rfl⟩
  · rcases hmove.ite with ⟨hc, hmove⟩ | ⟨-, hmove⟩
    · obtain ⟨_, rfl, hmore⟩ := hmove.take
      obtain ⟨-, chars, rfl, hchars, hlast, -⟩ := nameEnd_of_path hmore rfl (Or.inl rfl)
      obtain ⟨x, rfl⟩ := exists_char (by simp [CharClass.nameStart]) hc
      exact ⟨⟨x :: chars, fun _ => ⟨hc, hchars, hlast⟩⟩, rfl⟩
    · exact (Chosen.none hmove).elim

/-- What goes on as a namespace is one. -/
theorem namespaceName_of_chosen (h : Chosen iri p c ds cs (Move.ofNamespace c)) :
    p = .namespaceName := by
  obtain ⟨m, hm, hpath⟩ := h
  rcases cases_of_ofNamespace hm with ⟨-, rfl⟩ | ⟨-, rfl⟩ | ⟨-, rfl⟩
  · cases hpath with
    | finish => rfl
  · cases hpath with
    | take more => exact (nameEnd_of_path more rfl (Or.inl rfl)).1
  · cases hpath with
    | take more => exact (nameEnd_of_path more rfl (Or.inr rfl)).1

/-- Dots behind a boolean are not part of it: a name that goes on behind them makes a namespace of
it all. -/
theorem boolean_of_dots (h : Path iri p st ds cs) (hst : st = .booleanDots)
    (hp : p ≠ .namespaceName) : p = .boolean ∧ cs = [] := by
  have hcases {c : CodePoint} {m : Move} (hnext : State.booleanDots.next iri c = some m) :
      m = .take .namespaceBody ∨ m = .defer .booleanDots := by
    simp only [next] at hnext
    split at hnext
    · exact Or.inl (Option.some.inj hnext).symm
    · split at hnext
      · exact Or.inr (Option.some.inj hnext).symm
      · cases hnext
  induction h with
  | stop haccepting =>
    subst hst
    exact ⟨(Option.some.inj haccepting).symm, rfl⟩
  | finish hnext | skip hnext =>
    subst hst
    rcases hcases hnext with hm | hm <;> cases hm
  | take hnext more =>
    subst hst
    rcases hcases hnext with hm | hm
    · obtain rfl := Move.take.inj hm
      exact absurd (nameEnd_of_path more rfl (Or.inl rfl)).1 hp
    · cases hm
  | defer hnext _ ih =>
    subst hst
    rcases hcases hnext with hm | hm
    · cases hm
    · exact ih (Move.defer.inj hm)

/-- A word that is no namespace is the keyword, and goes on with the rest of its letters. -/
theorem keyword_of_path {k : Keyword} {letters : List Char}
    (h : Path iri p (.keyword k letters) [] cs) (hp : p ≠ .namespaceName) :
    p = k.production ∧ List.Forall₂ k.Reads letters cs := by
  induction letters generalizing cs with
  | nil =>
    rcases path_cases h with ⟨haccepting, rfl⟩ | ⟨c, hmove⟩
    · exact ⟨(Option.some.inj haccepting).symm, .nil⟩
    · rcases hmove.ite with ⟨⟨hk, -⟩, hmove⟩ | ⟨-, hmove⟩
      · obtain ⟨rfl, rfl⟩ := boolean_of_dots hmove.defer rfl hp
        refine ⟨?_, .nil⟩
        cases k <;> first | rfl | cases hk
      · exact absurd (namespaceName_of_chosen hmove) hp
  | cons x letters ih =>
    obtain ⟨c, hmove⟩ := path_moves h rfl
    rcases hmove.ite with ⟨hread, hmove⟩ | ⟨-, hmove⟩
    · obtain ⟨_, rfl, hmore⟩ := hmove.take
      obtain ⟨hproduction, hletters⟩ := ih hmore
      exact ⟨hproduction, .cons hread hletters⟩
    · exact absurd (namespaceName_of_chosen hmove) hp

/-- A word without variants has one spelling. -/
theorem codes_of_reads {k : Keyword} (hk : k.foldsCase = false) {letters : List Char}
    (h : List.Forall₂ k.Reads letters cs) : cs = codes letters := by
  induction h with
  | nil => rfl
  | cons hread _ ih =>
    rw [hread.resolve_right fun h => by simp [hk] at h, ih]
    rfl

/-- **What is read as a boolean in the place of an object is one of its two words.** -/
theorem boolean_of_path (h : Path iri .boolean (.start .object) [] cs) :
    ∃ b : Bool, cs = codes (booleanText b) := by
  obtain ⟨c, m, hobject, hmove⟩ := exists_objectMove h
  cases hobject with
  | @word b k hk hc =>
    obtain ⟨rfl, htext⟩ := hc
    obtain ⟨_, rfl, hmore⟩ := hmove.take
    rw [codes_of_reads hk (keyword_of_path hmore (by decide)).2]
    exact ⟨b, by rw [htext]; rfl⟩
  | sign | digit | point => cases hmove.family (.some rfl)
  | name hm =>
    rcases hm with rfl | rfl
    · cases hmove.finish.1
    · obtain ⟨_, -, hmore⟩ := hmove.take
      cases (nameEnd_of_path hmore rfl (Or.inl rfl)).1
  | other hm _ hword => exact absurd (hmove.family (.some hm)).symm hword

end State

end RdfTurtle
