import RdfTurtle.Proofs.Recognition.NameGrammar
import RdfTurtle.Proofs.Recognition.Numbers

/-! # Names are cut by the longest match

A local name goes on with characters, percent escapes, escaped characters and dots, of which the
last ones are left behind it. It fails only behind a percent sign or a backslash that begins no
escape, wherever that stands: whether the name so far is complete does not count then.

* **`State.words_localName`** — the automaton has the local names of the grammar.
* **`Naming.exists_split`** — a name, dots behind it, and what can belong to neither.
* **`State.rejects_localName_iff`** — where the automaton fails.
* **`Scanner.names_cut`** — names that are recognized are the longest of the grammar. -/

namespace RdfTurtle

open Computability
open Quoted (one mark)

namespace Naming

variable {P : CodePoint → Prop} {K L : Language CodePoint} {c : CodePoint}
  {text more rest cs : List CodePoint}

/-- A percent sign or a backslash that begins no escape. -/
def Broken (cs : List CodePoint) : Prop :=
  (cs.head? = some (CodePoint.ofChar '%') ∨ cs.head? = some (CodePoint.ofChar '\\')) ∧
    ∀ word ∈ escape, ¬ word <+: cs

/-! ## What a local name goes on with -/

/-- The first code point of a name tells whether an escape begins there. -/
theorem cons_mem_piece_mul :
    c :: text ∈ (one P + escape) * L ↔
      P c ∧ text ∈ L ∨ c = '%' ∧ text ∈ Quoted.hexDigit ^ 2 * L ∨
        c = '\\' ∧ text ∈ one Escapable * L := by
  simp only [escape, add_mul, Language.mem_add, mul_assoc, mark, Quoted.cons_mem_one_mul]

/-- A part of a name has at least a code point. -/
theorem nil_notMem_piece : [] ∉ one P + escape :=
  not_or.2 ⟨Quoted.nil_notMem_one, not_or.2 ⟨Quoted.nil_notMem_one_mul, Quoted.nil_notMem_one_mul⟩⟩

end Naming

namespace State

open Naming Syntax

variable {iri : Strictness} {p : Production} {st : State} {c : CodePoint}
  {ds cs text more rest : List CodePoint}

/-- The states in which a local name may go on, and the code points with which it does so there,
escapes and dots apart. -/
inductive InLocal : State → (CodePoint → Prop) → Prop
  | start : InLocal (.start .localName) fun c => BaseOrLine c ∨ c = ':' ∨ Digit c
  | body : InLocal (.body .localName) fun c => Further c ∨ c = ':'

variable {P : CodePoint → Prop}

/-- A local name may end in these states. -/
theorem InLocal.accepting (h : InLocal st P) : st.accepting = some .localName := by
  cases h <;> rfl

/-- They are not those of blanks. -/
theorem InLocal.family (h : InLocal st P) : st.family ≠ some .blank := by
  cases h <;> decide

/-- None of these code points begins an escape or is a dot. -/
theorem InLocal.ne_of_mem (h : InLocal st P) (hc : P c) : c ≠ '%' ∧ c ≠ '\\' ∧ c ≠ '.' := by
  have hclass : c ∈ CharClass.localStart ∨ c ∈ CharClass.localChar := by
    cases h with
    | start => exact Or.inl (mem_localStart.2 hc)
    | body => exact Or.inr (mem_localChar.2 hc)
  refine ⟨?_, ?_, ?_⟩ <;> rintro rfl <;> revert hclass <;> decide_cbv

/-- The move of such a state for a code point. -/
inductive LocalMove (st : State) (P : CodePoint → Prop) (c : CodePoint) : Option Move → Prop
  | plain (h : P c) : LocalMove st P c (some (.take (.body .localName)))
  | percent (h : c = '%') : LocalMove st P c (some (.take (.hex 1 .localName)))
  | backslash (h : c = '\\') : LocalMove st P c (some (.take (.escape .localName)))
  | dot (h : c = '.') (hst : st = .body .localName) : LocalMove st P c (some (.defer st))
  | none (h : ¬ P c) (hpercent : c ≠ '%') (hbackslash : c ≠ '\\')
    (hdot : st = .body .localName → c ≠ '.') : LocalMove st P c none

/-- Each move of such a state is one of these. -/
theorem InLocal.move (h : InLocal st P) (c : CodePoint) :
    LocalMove st P c (st.next iri c) := by
  cases h with
  | start =>
    simp only [next]
    split_ifs with hclass hpercent hbackslash
    · exact .plain (mem_localStart.1 hclass)
    · exact .percent hpercent
    · exact .backslash hbackslash
    · exact .none (mt mem_localStart.2 hclass) hpercent hbackslash (by simp)
  | body =>
    simp only [next]
    split_ifs with hclass hpercent hbackslash hdot
    · exact .plain (mem_localChar.1 hclass)
    · exact .percent hpercent
    · exact .backslash hbackslash
    · exact .dot hdot rfl
    · exact .none (mt mem_localChar.2 hclass) hpercent hbackslash fun _ => hdot

/-- A code point of the class is taken. -/
theorem InLocal.next_of_mem (h : InLocal st P) (hc : P c) :
    st.next iri c = some (.take (.body .localName)) := by
  cases h with
  | start => exact if_pos (mem_localStart.2 hc)
  | body => exact if_pos (mem_localChar.2 hc)

/-- A percent sign begins an escape with digits. -/
theorem InLocal.next_percent (h : InLocal st P) :
    st.next iri '%' = some (.take (.hex 1 .localName)) := by
  cases h <;> simp [next, CharClass.localStart, CharClass.localChar, CharClass.mem_iff]

/-- A backslash begins an escape of a character. -/
theorem InLocal.next_backslash (h : InLocal st P) :
    st.next iri '\\' = some (.take (.escape .localName)) := by
  cases h <;> simp [next, CharClass.localStart, CharClass.localChar, CharClass.mem_iff]

/-! ## The words of local names -/

/-- Behind a backslash one of the characters of the grammar is taken. -/
theorem words_localEscape :
    (State.escape .localName).words iri p = one Escapable * (State.body .localName).words iri p :=
  words_of_only (by decide) rfl (fun _ hc => if_pos (mem_localEscape.2 hc))
    fun _ hc => if_neg (mt mem_localEscape.1 hc)

/-- A local name goes on with a code point or an escape, and within it with a dot. -/
theorem InLocal.cons_mem_words (h : InLocal st P) :
    c :: text ∈ st.words iri p ↔
      c :: text ∈ (one P + Naming.escape) * (State.body .localName).words iri p ∨
        st = .body .localName ∧ c = '.' ∧ text ≠ [] ∧ text ∈ st.words iri p := by
  have hmove : LocalMove st P c (st.next iri c) := h.move c
  rw [State.cons_mem_words h.family, cons_mem_piece_mul, ← words_localEscape, ← words_hex]
  generalize st.next iri c = m at hmove
  cases hmove with
  | plain hc =>
    obtain ⟨hpercent, hbackslash, hdot⟩ := h.ne_of_mem hc
    simp [GoesOn, hc, hpercent, hbackslash, hdot]
  | percent hc =>
    have hP : ¬ P '%' := fun hP => (h.ne_of_mem hP).1 rfl
    simp [GoesOn, hc, hP]
  | backslash hc =>
    have hP : ¬ P '\\' := fun hP => (h.ne_of_mem hP).2.1 rfl
    simp [GoesOn, hc, hP]
  | dot hc hst =>
    have hP : ¬ P '.' := fun hP => (h.ne_of_mem hP).2.2 rfl
    simp [GoesOn, hc, hP, hst]
  | none hP hpercent hbackslash hdot =>
    simp only [GoesOn, hP, hpercent, hbackslash, false_and, false_or, false_iff]
    rintro ⟨hst, hc, -⟩
    exact hdot hst hc

/-- **The local names that the automaton reads are those of the grammar**, and the empty one. -/
theorem words_inLocal : (State.body .localName).words iri .localName = tail localFurther := by
  refine eq_tail nil_notMem_piece ((nil_mem_words (by decide)).2 rfl) fun c text => ?_
  rw [InLocal.body.cons_mem_words]
  simp [localFurther]

/-- **The words of local names are those of the grammar**, and the empty one. -/
theorem words_localName :
    (start .localName).words iri .localName = 1 + Naming.localName := by
  ext text
  rw [Language.mem_add, Language.mem_one]
  cases text with
  | nil => exact iff_of_true ((nil_mem_words (by decide)).2 rfl) (Or.inl rfl)
  | cons c text =>
    rw [InLocal.start.cons_mem_words, words_inLocal, ← localFirst, ← Naming.localName]
    simp

/-! ## Runs on local names -/

/-- A piece of a local name is read to its end. -/
theorem scan_of_piece (h : InLocal st P) (hmem : text ∈ one P + Naming.escape) :
    st.scan iri ds (text ++ more) =
      ((State.body .localName).scan iri [] more).after (ds ++ text) := by
  rcases hmem with ⟨c, hc, rfl⟩ | hpercent | hbackslash
  · exact scan_of_take (h.next_of_mem hc)
  · obtain ⟨digits, rfl, hdigits⟩ := Quoted.mem_mark_mul.1 hpercent
    rw [List.cons_append, scan_of_take h.next_percent, scan_hex hdigits, Scan.after_after,
      List.append_assoc]
    rfl
  · obtain ⟨_, rfl, c, hc, rfl⟩ := Quoted.mem_mark_mul.1 hbackslash
    have hnext : (State.escape .localName).next iri c = some (.take (.body .localName)) :=
      if_pos (mem_localEscape.2 hc)
    rw [List.cons_append, scan_of_take h.next_backslash, List.singleton_append, scan_of_take hnext,
      Scan.after_after, List.append_assoc]
    rfl

/-- The rest of a local name is read to its end, with the dots deferred before it. -/
theorem scan_of_tail (hmem : text ∈ tail localFurther) (htext : text ≠ []) (ds : List CodePoint) :
    (State.body .localName).scan iri ds (text ++ more) =
      ((State.body .localName).scan iri [] more).after (ds ++ text) := by
  induction hn : text.length using Nat.strongRecOn generalizing text ds with
  | ind n ih =>
    subst hn
    cases text with
    | nil => exact absurd rfl htext
    | cons c text =>
      rcases (cons_mem_tail nil_notMem_piece).1 hmem with hpiece | ⟨rfl, hne, hmore⟩
      · obtain ⟨word, hword, text', htext', heq⟩ := Language.mem_mul.1 hpiece
        have hlength : 0 < word.length :=
          List.length_pos_iff.2 fun h => nil_notMem_piece (h ▸ hword)
        rw [← heq, List.append_assoc, scan_of_piece .body hword]
        by_cases hempty : text' = []
        · rw [hempty, List.append_nil, List.nil_append]
        · have hlt : text'.length < (c :: text).length := by
            rw [← heq, List.length_append]
            omega
          rw [ih _ hlt htext' hempty [] rfl, Scan.after_after, List.nil_append, List.append_assoc]
      · have hnext : (State.body .localName).next iri '.' = some (.defer (.body .localName)) := by
          simp [next, CharClass.localChar, CharClass.mem_iff]
        rw [List.cons_append, scan_of_defer hnext, ih _ (by simp) hmore hne _ rfl,
          List.append_assoc]
        rfl

/-- What follows the beginning of a local name is the rest of one if the whole is a name. -/
theorem mem_tail_of_append (hmem : text ∈ tail localFurther)
    (h : text ++ more ∈ tail localFurther) : more ∈ tail localFurther := by
  by_cases htext : text = []
  · rwa [htext, List.nil_append] at h
  · rw [← @words_inLocal .strict] at h ⊢
    exact mem_words_of_append (by decide) (scan_of_tail hmem htext []) h

/-- Behind a first part a local name goes on as a name does. -/
theorem mem_tail_of_localName (hmem : text ∈ localFirst)
    (h : text ++ more ∈ 1 + Naming.localName) : more ∈ tail localFurther := by
  rw [← @words_localName .strict] at h
  rw [← @words_inLocal .strict]
  exact mem_words_of_append (by decide) (scan_of_piece .start hmem) h

/-- Dots are deferred within a local name. -/
theorem scan_of_dots (hdots : ∀ d ∈ cs, d = CodePoint.ofChar '.') :
    (State.body .localName).scan iri ds (cs ++ rest) =
      (State.body .localName).scan iri (ds ++ cs) rest := by
  have hnext : (State.body .localName).next iri '.' = some (.defer (.body .localName)) := by
    simp [next, CharClass.localChar, CharClass.mem_iff]
  induction cs generalizing ds with
  | nil => rw [List.nil_append, List.append_nil]
  | cons d cs ih =>
    obtain ⟨rfl, hcs⟩ := List.forall_mem_cons.1 hdots
    rw [List.cons_append, scan_of_defer hnext, ih hcs, List.append_assoc]
    rfl

/-- A local name and dots behind it are read up to what follows, the dots being deferred. -/
theorem scan_of_localName (hmem : text ∈ Naming.localName)
    (hdots : ∀ d ∈ cs, d = CodePoint.ofChar '.') :
    (start .localName).scan iri [] (text ++ (cs ++ rest)) =
      ((State.body .localName).scan iri cs rest).after text := by
  obtain ⟨first, hfirst, more, hmore, rfl⟩ := Language.mem_mul.1 hmem
  rw [List.append_assoc, scan_of_piece .start hfirst, List.nil_append]
  by_cases hempty : more = []
  · rw [hempty, List.nil_append, List.append_nil, scan_of_dots hdots, List.nil_append]
  · rw [scan_of_tail hmore hempty, Scan.after_after, scan_of_dots hdots]
    rfl

/-- Behind the mark of an escape the automaton comes to a token only if the escape is complete. -/
theorem production_of_unfinished {L : Language CodePoint} (hst : st.family ≠ some .blank)
    (hwords : ∀ p, ∃ M, st.words iri p = L * M) (hnone : ∀ word ∈ L, ¬ word <+: cs) :
    (st.scan iri [] cs).production? = none := by
  rw [Option.eq_none_iff_forall_ne_some]
  intro p hp
  obtain ⟨word, hword, hfront⟩ := exists_word_of_scan hst hp
  obtain ⟨M, hM⟩ := hwords p
  rw [hM] at hword
  obtain ⟨escaped, hescaped, more, -, rfl⟩ := Language.mem_mul.1 hword
  exact hnone escaped hescaped ((List.prefix_append _ _).trans hfront)

/-- Where nothing fits, the automaton fails if an escape has been begun. -/
theorem production_of_stuck (h : InLocal st P)
    (hstuck : ∀ word ∈ one P + Naming.escape, ¬ word <+: cs)
    (hdot : st = .body .localName → cs.head? ≠ some (CodePoint.ofChar '.')) :
    (st.scan iri ds cs).production? = none ↔ Broken cs := by
  have hescape : ∀ word ∈ Naming.escape, ¬ word <+: cs := fun word hword =>
    hstuck word (Or.inr hword)
  cases cs with
  | nil => simp [scan, h.accepting, Broken]
  | cons c cs =>
    have hmove : LocalMove st P c (st.next iri c) := h.move c
    generalize hnext : st.next iri c = m at hmove
    -- An escape that has begun leads to a state from which every token goes on with its rest;
    -- whatever else is stuck leaves the name complete where it stands.
    cases hmove with
    | plain hc => exact absurd ⟨cs, rfl⟩ (hstuck [c] (Or.inl ⟨c, hc, rfl⟩))
    | percent hc =>
      subst hc
      refine iff_of_true ?_ ⟨Or.inl rfl, hescape⟩
      rw [scan_of_take hnext]
      refine production_of_unfinished (by decide) (fun p => ⟨_, words_hex _ _⟩)
        fun digits hdigits hfront => ?_
      exact hescape ('%' :: digits) (Or.inl (Quoted.cons_mem_mark_mul.2 hdigits))
        ((List.prefix_cons_inj _).2 hfront)
    | backslash hc =>
      subst hc
      refine iff_of_true ?_ ⟨Or.inr rfl, hescape⟩
      rw [scan_of_take hnext]
      refine production_of_unfinished (by decide) (fun p => ⟨_, words_localEscape⟩)
        fun escaped hescaped hfront => ?_
      exact hescape ('\\' :: escaped) (Or.inr (Quoted.cons_mem_mark_mul.2 hescaped))
        ((List.prefix_cons_inj _).2 hfront)
    | dot hc hst => exact absurd (by rw [hc]; rfl) (hdot hst)
    | none hP hpercent hbackslash =>
      rw [scan_of_none (by simpa using hnext)]
      simp [h.accepting, Broken, hpercent, hbackslash]

/-- What begins no escape fits nowhere. -/
theorem stuck_of_broken (h : InLocal st P) (hbroken : Broken cs) :
    (∀ word ∈ one P + Naming.escape, ¬ word <+: cs) ∧
      cs.head? ≠ some (CodePoint.ofChar '.') := by
  obtain ⟨hhead, hescape⟩ := hbroken
  constructor
  · rintro word (⟨c, hc, rfl⟩ | hword) hfront
    · obtain ⟨more, rfl⟩ := hfront
      have hne := h.ne_of_mem hc
      simp [hne] at hhead
    · exact hescape word hword hfront
  · rcases hhead with hhead | hhead <;> rw [hhead] <;> decide

end State

/-! ## The longest local name -/

namespace Naming

variable {K : Language CodePoint} {text cs rest : List CodePoint}

/-- A name, the dots behind it, and what fits neither. -/
theorem exists_split (hK : [] ∉ K) (cs : List CodePoint) :
    ∃ text dots rest, cs = text ++ (dots ++ rest) ∧ text ∈ tail K ∧
      (∀ d ∈ dots, d = CodePoint.ofChar '.') ∧ (∀ word ∈ K, ¬ word <+: rest) ∧
      rest.head? ≠ some (CodePoint.ofChar '.') := by
  -- A word has more than one code point, so the induction is on the length.
  induction hn : cs.length using Nat.strongRecOn generalizing cs with
  | ind n ih =>
    subst hn
    by_cases hword : ∃ word ∈ K, word <+: cs
    · -- A word of `K` comes first.
      obtain ⟨word, hword, more, rfl⟩ := hword
      cases word with
      | nil => exact absurd hword hK
      | cons c word =>
        have hlt : more.length < (c :: word ++ more).length := by
          rw [List.length_append, List.length_cons]
          omega
        obtain ⟨text, dots, rest, rfl, htext, hsplit⟩ := ih more.length hlt more rfl
        refine ⟨c :: word ++ text, dots, rest, by simp, ?_, hsplit⟩
        exact (cons_mem_tail hK).2 (Or.inl (Language.append_mem_mul hword htext))
    · by_cases hdot : cs.head? = some (CodePoint.ofChar '.')
      · -- A dot comes first: it belongs to the name if that goes on behind it.
        cases cs with
        | nil => cases hdot
        | cons c cs =>
          obtain rfl : c = CodePoint.ofChar '.' := Option.some.inj hdot
          obtain ⟨text, dots, rest, rfl, htext, hdots, hsplit⟩ := ih cs.length (by simp) cs rfl
          by_cases hempty : text = []
          · subst hempty
            exact ⟨[], '.' :: dots, rest, rfl, nil_mem_tail, List.forall_mem_cons.2 ⟨rfl, hdots⟩,
              hsplit⟩
          · refine ⟨'.' :: text, dots, rest, rfl, ?_, hdots, hsplit⟩
            exact (cons_mem_tail hK).2 (Or.inr ⟨rfl, hempty, htext⟩)
      · refine ⟨[], [], cs, rfl, nil_mem_tail, by simp, fun word hw hfront => ?_, hdot⟩
        exact hword ⟨word, hw, hfront⟩

/-- Dots, and what cannot go on a name behind them, do not go on a name. -/
theorem eq_nil_of_mem_tail (hdots : ∀ d ∈ cs, d = CodePoint.ofChar '.')
    (hrest : ∀ word ∈ localFurther, ¬ word <+: rest)
    (hdot : rest.head? ≠ some (CodePoint.ofChar '.')) (hmem : text ∈ tail localFurther)
    (hfront : text <+: cs ++ rest) : text = [] := by
  induction cs generalizing text with
  | nil =>
    cases text with
    | nil => rfl
    | cons c text =>
      exfalso
      rcases (cons_mem_tail nil_notMem_piece).1 hmem with hpiece | ⟨rfl, -⟩
      · obtain ⟨word, hword, more, -, heq⟩ := Language.mem_mul.1 hpiece
        exact hrest word hword ((heq ▸ List.prefix_append word more).trans hfront)
      · obtain ⟨more, rfl⟩ := hfront
        exact hdot rfl
  | cons d cs ih =>
    cases text with
    | nil => rfl
    | cons c text =>
      obtain ⟨rfl, hcs⟩ := List.forall_mem_cons.1 hdots
      obtain ⟨rfl, hbehind⟩ := List.cons_prefix_cons.1 hfront
      rcases (cons_mem_tail nil_notMem_piece).1 hmem with hpiece | ⟨-, hne, hmore⟩
      · have hclass : CodePoint.ofChar '.' ∉ CharClass.localChar := by decide_cbv
        rw [cons_mem_piece_mul, ← mem_localChar] at hpiece
        simp [hclass] at hpiece
      · exact absurd (ih hcs hmore hbehind) hne

/-- **The longest local name in front, and what is behind it.** -/
theorem exists_localName (cs : List CodePoint) :
    ∃ text dots rest, cs = text ++ (dots ++ rest) ∧ LongestIn (1 + localName) text cs ∧
      (∀ d ∈ dots, d = CodePoint.ofChar '.') ∧
      (text = [] ∧ dots = [] ∧ (∀ word ∈ localFirst, ¬ word <+: rest) ∨
        text ∈ localName ∧ (∀ word ∈ localFurther, ¬ word <+: rest) ∧
          rest.head? ≠ some (CodePoint.ofChar '.')) := by
  by_cases hfirst : ∃ first ∈ localFirst, first <+: cs
  · obtain ⟨first, hfirst, more, rfl⟩ := hfirst
    obtain ⟨text, dots, rest, rfl, htext, hdots, hrest, hdot⟩ := exists_split nil_notMem_piece more
    have hmem : first ++ text ∈ localName := Language.append_mem_mul hfirst htext
    refine ⟨first ++ text, dots, rest, by simp, ⟨?_, Or.inr hmem, ?_⟩, hdots,
      Or.inr ⟨hmem, hrest, hdot⟩⟩
    · exact ⟨dots ++ rest, by simp⟩
    · -- A longer name would go on behind this one.
      intro word hword hfront
      by_contra hlt
      rw [← List.append_assoc] at hfront
      obtain ⟨more, rfl⟩ : first ++ text <+: word :=
        List.prefix_of_prefix_length_le (List.prefix_append _ _) hfront (by omega)
      have htail := State.mem_tail_of_localName hfirst (List.append_assoc .. ▸ hword)
      have hmore := State.mem_tail_of_append htext htail
      have hempty := eq_nil_of_mem_tail hdots hrest hdot hmore
        ((List.prefix_append_right_inj _).1 hfront)
      simp [hempty] at hlt
  · refine ⟨[], [], cs, rfl, ⟨List.nil_prefix, Or.inl rfl, ?_⟩, by simp, Or.inl ⟨rfl, rfl, ?_⟩⟩
    · rintro word (rfl | hword) hfront
      · exact Nat.le_refl _
      · obtain ⟨first, hmem, more, -, rfl⟩ := Language.mem_mul.1 hword
        exact absurd ⟨first, hmem, (List.prefix_append _ _).trans hfront⟩ hfirst
    · exact fun word hword hfront => hfirst ⟨word, hword, hfront⟩

end Naming

namespace State

open Naming

variable {iri : Strictness} {p : Production} {cs text : List CodePoint}

/-- **A local name fails behind a percent sign or a backslash that begins no escape**, directly
behind the longest name in front or behind dots that follow one. -/
theorem rejects_localName_iff :
    ((start .localName).scan iri [] cs).production? = none ↔
      ∃ text dots rest, cs = text ++ (dots ++ rest) ∧
        LongestIn (1 + Naming.localName) text cs ∧ (∀ d ∈ dots, d = CodePoint.ofChar '.') ∧
        (text = [] → dots = []) ∧ Broken rest := by
  constructor
  · intro h
    obtain ⟨text, dots, rest, hcs, hlongest, hdots, ⟨rfl, rfl, hrest⟩ | ⟨htext, hrest, hdot⟩⟩ :=
      exists_localName cs
    · refine ⟨[], [], rest, hcs, hlongest, hdots, fun _ => rfl, ?_⟩
      rw [hcs] at h
      exact (production_of_stuck .start hrest (by simp)).1 h
    · refine ⟨text, dots, rest, hcs, hlongest, hdots, ?_, ?_⟩
      · rintro rfl
        obtain ⟨first, hfirst, more, -, heq⟩ := Language.mem_mul.1 htext
        exact absurd hfirst ((List.append_eq_nil_iff.1 heq).1 ▸ nil_notMem_piece)
      · rw [hcs, scan_of_localName htext hdots] at h
        exact (production_of_stuck .body hrest fun _ => hdot).1 h
  · rintro ⟨text, dots, rest, rfl, ⟨-, htext, -⟩, hdots, hempty, hbroken⟩
    rcases htext with rfl | htext
    · obtain ⟨hstuck, -⟩ := stuck_of_broken .start hbroken
      rw [hempty rfl]
      exact (production_of_stuck .start hstuck (by simp)).2 hbroken
    · obtain ⟨hstuck, hdot⟩ := stuck_of_broken .body hbroken
      rw [scan_of_localName htext hdots]
      exact (production_of_stuck .body hstuck fun _ => hdot).2 hbroken

/-- A blank node label that has begun is complete wherever it ends. -/
theorem production_label (ds cs : List CodePoint) :
    (State.label.scan iri ds cs).production? = some .blankNodeLabel := by
  induction cs generalizing ds with
  | nil => rfl
  | cons c cs ih =>
    cases hnext : State.label.next iri c with
    | none => rw [scan_of_none (by simpa using hnext)]; rfl
    | some m =>
      rcases next_label hnext with ⟨-, rfl⟩ | ⟨-, rfl⟩
      · rw [scan_of_take hnext]
        exact ih []
      · rw [scan_of_defer hnext]
        exact ih _

/-- **A label is accepted where one begins.** -/
theorem accepts_label_iff :
    ((start .blankNodeLabel).scan iri [] cs).production? ≠ none ↔
      ∃ c rest, cs = codes ['_', ':'] ++ c :: rest ∧ (BaseOrLine c ∨ Digit c) := by
  constructor
  · intro h
    obtain ⟨p, hp⟩ := Option.ne_none_iff_exists'.1 h
    obtain ⟨word, hword, more, rfl⟩ := exists_word_of_scan (by decide) hp
    obtain ⟨_, rfl, hcolon⟩ := Quoted.mem_mark_mul.1 (words_line ▸ hword)
    obtain ⟨_, rfl, hfirst⟩ := Quoted.mem_mark_mul.1 (words_labelColon ▸ hcolon)
    rw [words_labelFirst] at hfirst
    obtain ⟨_, ⟨c, hc, rfl⟩, text, -, rfl⟩ := Language.mem_mul.1 hfirst
    exact ⟨c, text ++ more, rfl, hc⟩
  · rintro ⟨c, rest, rfl, hc⟩
    have hline : (start .blankNodeLabel).next iri '_' = some (.take .labelColon) := rfl
    have hcolon : labelColon.next iri ':' = some (.take .labelFirst) := rfl
    have hfirst : labelFirst.next iri c = some (.take .label) := if_pos (mem_labelStart.2 hc)
    rw [codes_cons, codes_cons, codes_nil, List.cons_append, List.cons_append, List.nil_append,
      scan_of_take hline, scan_of_take hcolon, scan_of_take hfirst]
    simp only [Scan.after, production_label, ne_eq, reduceCtorEq, not_false_eq_true]

end State

/-- What a recognizer of names reads: its kind of token, and the words. -/
inductive Recognizer.Names : Recognizer → Production → Language CodePoint → Prop
  | localName : Names .localName .localName (1 + Naming.localName)
  | label : Names .blankNodeLabel .blankNodeLabel Naming.label
  | namespaceName : Names .namespaceName .namespaceName Naming.namespaceName

/-- The words of a recognizer of names are those of the grammar. -/
theorem Recognizer.Names.words {r : Recognizer} {p : Production} {L : Language CodePoint}
    (h : r.Names p L) (iri : Strictness) : (State.start r).words iri p = L := by
  cases h with
  | localName => exact State.words_localName
  | label => exact State.words_label
  | namespaceName => exact State.words_namespaceName

/-- A recognizer of names reads nothing else. -/
theorem Recognizer.Names.production_eq {r : Recognizer} {p q : Production}
    {L : Language CodePoint} (h : r.Names p L) {iri : Strictness} {text : List CodePoint}
    (hword : text ∈ (State.start r).words iri q) : q = p := by
  cases h with
  | localName =>
    have hfamily : q.family = .localName := State.family_of_path hword rfl
    cases q <;> first | rfl | cases hfamily
  | label =>
    have hfamily : q.family = .label := by
      refine State.family_of_only hword rfl fun c => ?_
      exact .ite (fun _ => .some rfl) fun _ => .none
    cases q <;> first | rfl | cases hfamily
  | namespaceName =>
    obtain ⟨c, hmove⟩ := State.path_moves hword rfl
    rcases hmove.ite with ⟨-, hmove⟩ | ⟨-, hmove⟩
    · exact hmove.finish.1.symm
    · rcases hmove.ite with ⟨-, hmove⟩ | ⟨-, hmove⟩
      · obtain ⟨_, -, hmore⟩ := hmove.take
        exact (State.nameEnd_of_path hmore rfl (Or.inl rfl)).1
      · exact (Move.Chosen.none hmove).elim

namespace Scanner

variable {s : Scanner} {cs : List CodePoint} {r : Recognizer}

/-- A token is accepted if the run of the automaton comes to one. -/
theorem exists_ok_iff (h : s.Awaits cs) (r : Recognizer) :
    (∃ l s', recognize r s = .ok l s') ↔
      ((State.start r).scan s.options.iri [] cs).production? ≠ none := by
  have hanswers := answers_recognize r h
  generalize (State.start r).scan s.options.iri [] cs = scan at hanswers
  generalize hresult : recognize r s = result at hanswers
  cases hanswers with
  | accepted production => simp [production]
  | rejected production => simp [production]

/-- A recognizer fails where its automaton finds no token in what is awaited. -/
theorem exists_error_iff (h : s.Awaits cs) (r : Recognizer) :
    (∃ e s', recognize r s = .error e s') ↔
      ((State.start r).scan s.options.iri [] cs).production? = none := by
  have hok := exists_ok_iff h r
  cases hresult : recognize r s with
  | ok l s' => simp_all
  | error e s' => simp_all

/-- **Names are cut by the longest match.** Where nothing fails to decode, a name that is accepted
is the longest word of its kind in front of what is to come, an empty local name included, and all
that follows it is left. A local name fails where a percent sign or a backslash that begins no
escape follows the longest word, behind dots or not; a label is accepted where one begins, and a
namespace wherever it stands. -/
theorem names_cut (h : s.Awaits cs) :
    (∀ r p L, Recognizer.Names r p L → ∀ l s', recognize r s = .ok l s' →
      ∃ text rest, cs = text ++ rest ∧ s'.Awaits rest ∧ s.Takes r p text ∧ LongestIn L text cs) ∧
    ((∃ e s', recognize .localName s = .error e s') ↔
      ∃ text dots rest, cs = text ++ (dots ++ rest) ∧
        LongestIn (1 + Naming.localName) text cs ∧ (∀ d ∈ dots, d = CodePoint.ofChar '.') ∧
        (text = [] → dots = []) ∧ Naming.Broken rest) ∧
    ((∃ l s', recognize .blankNodeLabel s = .ok l s') ↔
      ∃ c rest, cs = codes ['_', ':'] ++ c :: rest ∧
        (Naming.BaseOrLine c ∨ Naming.Digit c)) ∧
    ∀ text rest, cs = text ++ rest →
      (s.Takes .namespaceName .namespaceName text ↔ text ∈ Naming.namespaceName) := by
  refine ⟨?_, ?_, ?_, ?_⟩
  · intro r p L hnames l s' hl
    have hblank : r ≠ .blank := by cases hnames <;> decide
    obtain ⟨text, rest, hcs, hrest, htakes, hword, hlongest⟩ := exists_longest h hblank hl
    have hwords := hnames.words s.options.iri
    rw [hnames.production_eq hword] at htakes hword
    exact ⟨text, rest, hcs, hrest, htakes,
      hlongest L (hwords ▸ hword) fun w hw => ⟨p, hwords.symm ▸ hw⟩⟩
  · rw [exists_error_iff h, State.rejects_localName_iff]
  · rw [exists_ok_iff h, State.accepts_label_iff]
  · intro text rest hcs
    rw [takes_iff h (by decide) hcs, hcs, ← State.words_namespaceName]
    refine State.takes_iff_mem_words (by decide) fun st hst => ?_
    cases st with
    | start r => cases r <;> cases hst
    | keyword k letters => cases letters <;> cases k <;> cases hst
    | body b => cases b <;> cases hst
    | _ => cases hst

/-- A local name with a percent escape, behind which the dots are left, and one that fails behind
its dots. -/
theorem names_cut_percent :
    (∃ s : Scanner, s.Awaits (codes "a.%41..".toList) ∧
      s.Takes .localName .localName (codes "a.%41".toList) ∧
      LongestIn (1 + Naming.localName) (codes "a.%41".toList) (codes "a.%41..".toList)) ∧
    ∃ s : Scanner, s.Awaits (codes "a..%4".toList) ∧
      (∃ e s', recognize .localName s = .error e s') ∧
      ∃ text dots rest, codes "a..%4".toList = text ++ (dots ++ rest) ∧ Naming.Broken rest := by
  constructor
  · have hsplit : codes "a.%41..".toList = codes "a.%41".toList ++ codes ['.', '.'] := rfl
    obtain ⟨s, h, -, htakes⟩ := @exists_takes_of_scan .localName .localName _ _ _ .permissive
      (by decide) hsplit ⟨by decide_cbv, by decide_cbv⟩
    refine ⟨s, h, ?_⟩
    obtain ⟨s', hs', -⟩ := id htakes
    obtain ⟨text, rest, hcs, -, htext, hlongest⟩ := (names_cut h).1 _ _ _ .localName _ s' hs'
    obtain ⟨-, rfl⟩ := htakes.unique h (by decide) hsplit hcs htext
    exact ⟨htakes, hlongest⟩
  · obtain ⟨s, -, h, hoptions⟩ := awaits_ofSource (.memory _) {}
    refine ⟨s, h, ?_⟩
    have hfails : ∃ e s', recognize .localName s = .error e s' := by
      rw [exists_error_iff h, hoptions]
      decide_cbv
    obtain ⟨text, dots, rest, hcs, -, -, -, hbroken⟩ := (names_cut h).2.1.1 hfails
    exact ⟨hfails, text, dots, rest, hcs, hbroken⟩

end Scanner

end RdfTurtle
