import RdfTurtle.Proofs.Conservation

/-! # What a recognizer takes

As long as nothing fails to decode, a recognizer that accepts cuts a token off the front of the code
points to come, and all that matters of the outcome is the kind of the token and where the cut is.

* **`Scan.Takes`** — a run that comes to a token of given code points, and what the move for the
  first code point says of it.
* **`Scanner.Takes`** — the same of a recognizer; **`Scanner.takes_iff`** tells it by the run.
* **`Scanner.exists_takes`** — whatever is accepted is taken so.
* **`Scanner.exists_awaits_iff`** — where nothing fails to decode the code points to come are
  known. -/

namespace RdfTurtle

/-- The run comes to a token of kind `p` that is made of the code points `text`. -/
def Scan.Takes (r : Scan) (p : Production) (text : List CodePoint) : Prop :=
  r.production? = some p ∧ r.kept = text

/-- What has been kept before comes first. -/
theorem Scan.takes_after {r : Scan} {p : Production} {kept text : List CodePoint} :
    (r.after kept).Takes p text ↔ ∃ more, text = kept ++ more ∧ r.Takes p more := by
  constructor
  · rintro ⟨hp, rfl⟩
    exact ⟨r.kept, rfl, hp, rfl⟩
  · rintro ⟨_, rfl, hp, rfl⟩
    exact ⟨hp, rfl⟩

/-- What is read before what was read is read before both. -/
theorem Scan.after_after (r : Scan) (kept kept' : List CodePoint) :
    (r.after kept').after kept = r.after (kept ++ kept') := by
  simp only [Scan.after, List.append_assoc]

namespace State

variable {iri : Strictness} {p : Production} {st st' : State} {c : CodePoint}
  {ds cs text : List CodePoint}

/-- Where there is no move the token is complete or there is none. -/
theorem takes_of_none (h : ∀ c ∈ cs.head?, st.next iri c = none) :
    (st.scan iri ds cs).Takes p text ↔ st.accepting = some p ∧ text = [] := by
  rw [scan_of_none h, Scan.Takes, eq_comm (a := text)]

/-- Where the automaton stops nothing more is taken. -/
theorem takes_of_stuck (h : st.next iri c = none) :
    (st.scan iri ds (c :: cs)).Takes p text ↔ st.accepting = some p ∧ text = [] :=
  takes_of_none (by simpa using h)

/-- A code point that ends the token is the last one taken. -/
theorem takes_of_finish {p' : Production} (h : st.next iri c = some (.finish p')) :
    (st.scan iri ds (c :: cs)).Takes p text ↔ p = p' ∧ text = ds ++ [c] := by
  rw [scan_of_finish h, Scan.Takes, Option.some.injEq, eq_comm (a := text), eq_comm (a := p)]

/-- Behind a code point that is taken the token goes on. -/
theorem takes_of_take (h : st.next iri c = some (.take st')) :
    (st.scan iri ds (c :: cs)).Takes p text ↔
      ∃ more, text = ds ++ [c] ++ more ∧ (st'.scan iri [] cs).Takes p more := by
  rw [scan_of_take h, Scan.takes_after]

/-- A code point that is deferred is taken if what follows is. -/
theorem takes_of_defer (h : st.next iri c = some (.defer st')) :
    (st.scan iri ds (c :: cs)).Takes p text ↔ (st'.scan iri (ds ++ [c]) cs).Takes p text := by
  rw [scan_of_defer h]

/-- Two states take the same tokens of a kind if they have the same move and end alike. -/
theorem takes_congr (hnext : st.next iri c = st'.next iri c)
    (haccepting : st.accepting = some p ↔ st'.accepting = some p) :
    (st.scan iri ds (c :: cs)).Takes p text ↔ (st'.scan iri ds (c :: cs)).Takes p text := by
  cases hm : st'.next iri c with
  | none => rw [takes_of_stuck (hnext.trans hm), takes_of_stuck hm, haccepting]
  | some m => cases m <;> simp only [scan, hnext, hm]

/-- A code point that is taken is the first of the token. -/
theorem takes_cons_of_take (h : st.next iri c = some (.take st')) :
    (st.scan iri [] (c :: cs)).Takes p (c :: text) ↔ (st'.scan iri [] cs).Takes p text := by
  rw [takes_of_take h]
  constructor
  · rintro ⟨more, htext, hmore⟩
    obtain rfl := List.tail_eq_of_cons_eq htext
    exact hmore
  · exact fun hmore => ⟨text, rfl, hmore⟩

/-- A move that keeps its code point, in the token or as its last. -/
inductive Keeps : Move → Prop
  | take (st : State) : Keeps (.take st)
  | finish (p : Production) : Keeps (.finish p)

/-- Where whatever is read is kept, nothing is taken only if there is no move. -/
theorem takes_nil (hst : ∀ c, Move.Only Keeps (st.next iri c)) :
    (st.scan iri [] cs).Takes p [] ↔
      st.accepting = some p ∧ ∀ c ∈ cs.head?, st.next iri c = none := by
  cases cs with
  | nil => simp [Scan.Takes, scan]
  | cons c cs =>
    cases hnext : st.next iri c with
    | none => simp [takes_of_stuck hnext, hnext]
    | some m => cases hst c m hnext <;> simp [takes_of_finish, takes_of_take, hnext]

/-- A token is a path of its state. -/
theorem path_of_takes (h : (st.scan iri ds cs).Takes p text) : Path iri p st ds text := by
  induction cs generalizing st ds text with
  | nil =>
    obtain ⟨hp, rfl⟩ := h
    exact .stop hp
  | cons c cs ih =>
    cases hnext : st.next iri c with
    | none =>
      rw [takes_of_stuck hnext] at h
      obtain ⟨hp, rfl⟩ := h
      exact .stop hp
    | some m =>
      cases m with
      | finish p' =>
        rw [takes_of_finish hnext] at h
        obtain ⟨rfl, rfl⟩ := h
        exact .finish hnext
      | take st' =>
        rw [takes_of_take hnext] at h
        obtain ⟨more, rfl, hmore⟩ := h
        exact .take hnext (ih hmore)
      | skip st' =>
        rw [scan_of_skip hnext] at h
        exact .skip hnext (ih h)
      | defer st' =>
        rw [takes_of_defer hnext] at h
        exact .defer hnext (ih h)

/-- Nothing is lost in a run, and nothing changes its place, unless blanks are skipped. -/
theorem scan_split (iri : Strictness) (hst : st.family ≠ some .blank) (ds cs : List CodePoint) :
    (st.scan iri ds cs).kept ++ ((st.scan iri ds cs).givenBack ++ (st.scan iri ds cs).rest) =
      ds ++ cs := by
  induction cs generalizing st ds with
  | nil => simp only [scan, List.nil_append]
  | cons c cs ih =>
    cases hnext : st.next iri c with
    | none => simp only [scan, hnext, List.nil_append]
    | some m =>
      have hm := not_blank_of_next hst c m hnext
      cases shifts_of_next iri st c m hnext with
      | finish p => rw [scan_of_finish hnext, List.nil_append, List.append_assoc]; rfl
      | take st' =>
        have hmore := ih hm []
        rw [scan_of_take hnext]
        rw [Scan.after, List.append_assoc, hmore, List.append_assoc]
        rfl
      | defer =>
        rw [scan_of_defer hnext, ih hm, List.append_assoc]
        rfl
      | skip st' hblank => exact absurd hblank hst

end State

namespace Scanner

variable {s : Scanner} {r : Recognizer} {p : Production} {cs text rest : List CodePoint}

/-! ## Recognizers -/

/-- The recognizer accepts `text` as a token of kind `p`, which has the encoding of its code points
and begins where the scanner stands, and leaves what comes behind it, each code point in its
place. -/
def Takes (s : Scanner) (r : Recognizer) (p : Production) (text : List CodePoint) : Prop :=
  ∃ s', recognize r s =
      .ok ⟨p, .encode s.options.encoding text, s.current.position⟩ s' ∧
    s'.prospect = s.prospect.drop text.length

/-- **Code points are awaited where nothing fails to decode**, and only there. -/
theorem exists_awaits_iff :
    (∃ cs, s.Awaits cs) ↔ ∃ position, s.prospect.ending = .ok position := by
  constructor
  · exact fun ⟨cs, h⟩ => h.prospect.2
  · rintro ⟨position, h⟩
    generalize hn : s.size = n
    induction n using Nat.strongRecOn generalizing s with
    | ind n ih =>
      cases s.coming with
      | ended hend => exact ⟨[], Option.isNone_iff_eq_none.1 hend⟩
      | more hend s' hs hprospect =>
        obtain ⟨c, hc⟩ := codePoint_of_not_atEnd hend
        have hlt := size_step_lt hc
        rw [hs, finalState_ok, hn] at hlt
        rw [hprospect] at h
        obtain ⟨cs, hcs⟩ := ih _ hlt h rfl
        exact ⟨c :: cs, hc, s', hs, hcs⟩
      | failing hend e s' hs hprospect =>
        rw [hprospect] at h
        cases h

/-- Nothing is skipped at the beginning of a token other than blanks. -/
theorem start_not_blank (hr : r ≠ .blank) : (State.start r).family ≠ some .blank := by
  cases r <;> first | exact absurd rfl hr | decide

/-- Behind a token stands what stood behind it before. -/
theorem prospect_of_recognize {l : Lexeme} {s' : Scanner} (h : s.Awaits (text ++ rest))
    (hl : recognize r s = .ok l s') (hrest : s'.Awaits rest) :
    s'.prospect = s.prospect.drop text.length := by
  have hconserves := conserves_recognize r s
  rw [hl] at hconserves
  obtain ⟨k, hk, hprospect, -⟩ := hconserves
  -- How much is left tells how much was taken.
  have hbefore := congrArg List.length h.prospect.1
  have hafter := congrArg List.length hrest.prospect.1
  rw [hprospect, Prospect.drop] at hafter
  simp only [List.length_map, List.length_drop, List.length_append] at hbefore hafter
  rw [hprospect, show k = text.length by omega]

/-- What is left of the code points to come. -/
theorem awaits_of_prospect {s' : Scanner} (h : s.Awaits (text ++ rest)) (h' : s'.Awaits cs)
    (hprospect : s'.prospect = s.prospect.drop text.length) : cs = rest := by
  have hcodes := h'.prospect.1
  rw [hprospect, Prospect.drop, List.map_drop, h.prospect.1, List.map_append,
    List.drop_left' (List.length_map _)] at hcodes
  exact ((List.map_inj_right fun _ _ => Option.some.inj).1 hcodes).symm

/-- **What a recognizer takes is what the run of the automaton comes to.** -/
theorem takes_iff (h : s.Awaits cs) (hr : r ≠ .blank) (hcs : cs = text ++ rest) :
    s.Takes r p text ↔ ((State.start r).scan s.options.iri [] cs).Takes p text := by
  have hsplit := State.scan_split s.options.iri (start_not_blank hr) [] cs
  have hanswers := answers_recognize r h
  generalize (State.start r).scan s.options.iri [] cs = scan at hsplit hanswers ⊢
  subst hcs
  -- The outcome follows the run; what remains is that equal prospects leave equal texts.
  generalize hresult : recognize r s = result at hanswers
  cases hanswers with
  | @accepted p' s' production awaits extended =>
    have hlexeme : s'.lexeme p' =
        ⟨p', .encode s.options.encoding scan.kept, s.current.position⟩ := by
      rw [lexeme, extended.text, extended.start, ← Text.append_empty]
      rfl
    constructor
    · rintro ⟨t, ht, hprospect⟩
      rw [hresult] at ht
      injection ht with hl ht
      subst ht
      injection hl with hp
      rw [awaits_of_prospect h awaits hprospect] at hsplit
      exact ⟨hp ▸ production, List.append_cancel_right hsplit⟩
    · rintro ⟨hp, rfl⟩
      obtain rfl : p = p' := Option.some.inj (hp.symm.trans production)
      rw [List.append_cancel_left hsplit] at awaits
      rw [hlexeme] at hresult
      exact ⟨s', hresult, prospect_of_recognize h hresult awaits⟩
  | rejected production =>
    constructor
    · rintro ⟨t, ht, -⟩
      rw [hresult] at ht
      cases ht
    · rintro ⟨hp, -⟩
      rw [hp] at production
      cases production

/-- What the run over a text comes to some scanner takes off it. -/
theorem exists_takes_of_scan {chars : List Char} {iri : Strictness} (hr : r ≠ .blank)
    (hcs : codes chars = text ++ rest)
    (h : ((State.start r).scan iri [] (codes chars)).Takes p text) :
    ∃ s : Scanner, s.Awaits (codes chars) ∧ s.options.iri = iri ∧ s.Takes r p text := by
  obtain ⟨s, -, hs, hoptions⟩ := awaits_ofSource (.memory _) { iri := iri }
  have hiri : s.options.iri = iri := by rw [hoptions]
  exact ⟨s, hs, hiri, (takes_iff hs hr hcs).2 (hiri ▸ h)⟩

/-- **Whatever a recognizer accepts it takes off the front of what is to come.** -/
theorem exists_takes {l : Lexeme} {s' : Scanner} (h : s.Awaits cs) (hr : r ≠ .blank)
    (hl : recognize r s = .ok l s') :
    ∃ text rest, cs = text ++ rest ∧ s'.Awaits rest ∧ s.Takes r l.production text := by
  have hsplit := State.scan_split s.options.iri (start_not_blank hr) [] cs
  have hanswers := answers_recognize r h
  rw [hl] at hanswers
  generalize hresult : EStateM.Result.ok l s' = result at hanswers
  cases hanswers with
  | accepted production awaits extended =>
    injection hresult with hlexeme hs'
    subst hlexeme hs'
    exact ⟨_, _, hsplit.symm, awaits, (takes_iff h hr hsplit.symm).2 ⟨production, rfl⟩⟩
  | rejected => cases hresult

/-- What is accepted, and what is left then, in terms of what is taken. -/
theorem accepts_iff {l : Lexeme} {after : Prospect} (h : s.Awaits cs) (hr : r ≠ .blank) :
    (∃ s', recognize r s = .ok l s' ∧ s'.prospect = after) ↔
      ∃ text rest, cs = text ++ rest ∧ s.Takes r l.production text ∧
        l = ⟨l.production, .encode s.options.encoding text, s.current.position⟩ ∧
        after = s.prospect.drop text.length := by
  constructor
  · rintro ⟨s', hl, rfl⟩
    obtain ⟨text, rest, hcs, -, t, ht, hprospect⟩ := exists_takes h hr hl
    rw [hl] at ht
    injection ht with hlexeme hs'
    subst hs'
    exact ⟨text, rest, hcs, ⟨s', hlexeme ▸ hl, hprospect⟩, hlexeme, hprospect⟩
  · rintro ⟨text, rest, -, ⟨s', hs', hprospect⟩, hl, rfl⟩
    exact ⟨s', by rw [hs', ← hl], hprospect⟩

/-- A recognizer takes one token at most. -/
theorem Takes.unique {p' : Production} {text' rest' : List CodePoint} (h : s.Awaits cs)
    (hr : r ≠ .blank) (hcs : cs = text ++ rest) (hcs' : cs = text' ++ rest')
    (ht : s.Takes r p text) (ht' : s.Takes r p' text') : p = p' ∧ text = text' := by
  obtain ⟨hp, htext⟩ := (takes_iff h hr hcs).1 ht
  obtain ⟨hp', htext'⟩ := (takes_iff h hr hcs').1 ht'
  exact ⟨Option.some.inj (hp.symm.trans hp'), htext.symm.trans htext'⟩

end Scanner

end RdfTurtle
