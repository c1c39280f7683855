import RdfTurtle.Decoder
import RdfTurtle.Proofs.Simulation

/-! # How bytes are delivered

A source is judged by the bytes that it delivers and by the way it ends. How the bytes are cut into
pieces, how large the buffer is, and how often a reader is interrupted cannot be told from what is
decoded.

* **`Source.Delivers`** — a source that delivers given bytes and then ends in a given way.
* **`Source.Serves`** — a source that never gives an empty piece before its end.
* **`Decoder.Agrees`** — two decoders with the same bytes to come, the same ending and the same
  position.
* **`Decoder.simulates_next`** — such decoders decode the same. -/

namespace RdfTurtle

/-! ## Readers -/

namespace Reader

/-- No answer is bounded by zero bytes. -/
def Serves (r : Reader) : Prop := ∀ i, (r.pace i).limit? ≠ some 0

/-- There is room for a byte unless the pace forbids one. -/
theorem room_pos {p : Pace} {capacity : Nat} (hp : p.limit? ≠ some 0) (hc : 0 < capacity) :
    0 < p.room capacity := by
  unfold Pace.room
  split
  · exact hc
  · next limit hl =>
    have hlimit : limit ≠ 0 := fun h0 => hp (by rw [hl, h0])
    omega

/-- Filling changes neither the ending of a reader nor its pace. -/
theorem frame_fill (r : Reader) (capacity : Nat) :
    (finalState (r.fill capacity)).ending = r.ending ∧
      (finalState (r.fill capacity)).pace = r.pace := by
  cases h : r.fill capacity with
  | ok bytes r' =>
    obtain ⟨-, rfl, -⟩ := of_fill_ok h
    exact ⟨rfl, rfl⟩
  | error text r' =>
    obtain ⟨-, -, rfl⟩ := of_fill_error h
    exact ⟨rfl, rfl⟩

/-- A filling without bytes comes at the end only, and from a closed reader. -/
theorem ending_of_fill_nil {r r' : Reader} {capacity : Nat} (hr : r.Serves) (hc : 0 < capacity)
    (h : r.fill capacity = .ok [] r') : r.rest = [] ∧ r.ending = .closed := by
  obtain ⟨htake, -, hclosed⟩ := of_fill_ok h
  have hroom : 0 < r.currentPace.room capacity := room_pos (hr r.answered) hc
  have hrest : r.rest = [] := by
    rcases List.take_eq_nil_iff.1 htake.symm with h0 | h0
    · omega
    · exact h0
  exact ⟨hrest, hclosed hrest⟩

end Reader

/-! ## Sources -/

namespace Source

/-- The sources that deliver `bytes` and then end in the way `ending`: memory, chunks cut anywhere,
empty ones included, and readers that give at least a byte with each answer, at any pace. -/
inductive Delivers : Source → List UInt8 → Ending → Prop
  | memory (bytes : List UInt8) : Delivers (.memory bytes) bytes .closed
  | chunks (pieces : List (List UInt8)) : Delivers (.chunks pieces) pieces.flatten .closed
  | reader (bytes : List UInt8) (ending : Ending) (pace : Nat → Pace)
      (serves : ∀ i, (pace i).limit? ≠ some 0) :
    Delivers (.reader (.ofBytes bytes ending pace)) bytes ending

/-- The source never gives an empty piece before its end. -/
def Serves : Source → Prop
  | .reader r => r.Serves
  | _ => True

/-- What a source delivers is its contents, and it serves up to its end. -/
theorem Delivers.spec {s : Source} {bytes : List UInt8} {ending : Ending}
    (h : s.Delivers bytes ending) : s.contents = bytes ∧ s.ending = ending ∧ s.Serves := by
  cases h with
  | memory => exact ⟨rfl, rfl, trivial⟩
  | chunks => exact ⟨rfl, rfl, trivial⟩
  | reader _ _ pace serves => exact ⟨rfl, rfl, serves⟩

/-- Filling changes neither how a source ends nor that it serves. -/
theorem frame_fill (s : Source) (capacity : Nat) (hs : s.Serves) :
    (finalState (s.fill capacity)).ending = s.ending ∧
      (finalState (s.fill capacity)).Serves := by
  cases s with
  | memory rest => exact ⟨rfl, trivial⟩
  | chunks rest => exact ⟨rfl, trivial⟩
  | reader r =>
    have hframe := Reader.frame_fill r capacity
    have hserves : (finalState (r.fill capacity)).Serves := fun i => by
      rw [hframe.2]
      exact hs i
    simp only [fill]
    split <;> next hr => rw [hr] at hframe hserves; exact ⟨hframe.1, hserves⟩

/-- Chunks give no bytes only when none are left. -/
theorem flatten_of_fillChunks_nil {capacity : Nat} {pieces : List (List UInt8)}
    (hc : 0 < capacity) (h : (fillChunks capacity pieces).1 = []) : pieces.flatten = [] := by
  fun_induction fillChunks capacity pieces with
  | case1 => rfl
  | case2 rest ih => rw [List.flatten_cons, List.nil_append, ih h]
  | case3 byte bytes rest =>
    rcases List.take_eq_nil_iff.1 h with h0 | h0
    · omega
    · cases h0

/-- A filling without bytes comes when none are left, and the source is closed then. -/
theorem ending_of_fill_nil {s s' : Source} {capacity : Nat} (hs : s.Serves) (hc : 0 < capacity)
    (h : s.fill capacity = .ok [] s') : s.contents = [] ∧ s.ending = .closed := by
  cases s with
  | memory rest =>
    injection h with hbytes _
    rcases List.take_eq_nil_iff.1 hbytes with h0 | h0
    · omega
    · exact ⟨h0, rfl⟩
  | chunks rest =>
    injection h with hbytes _
    exact ⟨flatten_of_fillChunks_nil hc hbytes, rfl⟩
  | reader r =>
    obtain ⟨_, hr, -⟩ := of_fill_reader_ok h
    exact Reader.ending_of_fill_nil hs hc hr

/-- Only a broken source fails, and with its own text. -/
theorem ending_of_fill_error {s s' : Source} {capacity : Nat} {text : String}
    (h : s.fill capacity = .error text s') : s.ending = .broken text := by
  cases s with
  | memory rest => cases h
  | chunks rest => cases h
  | reader r =>
    obtain ⟨_, hr, -⟩ := of_fill_reader_error h
    exact (Reader.of_fill_error hr).2.1

end Source

/-! ## Decoders -/

namespace Decoder

/-- The decoder has room for a byte, and its source serves up to its end. -/
def Serves (d : Decoder) : Prop := 0 < d.capacity ∧ d.source.Serves

/-- `d'` is `d` with other bytes to come: the same ending, position, room and mode. -/
structure Continues (d d' : Decoder) : Prop where
  ending : d'.source.ending = d.source.ending
  locator : d'.locator = d.locator
  mode : d'.mode = d.mode
  serves : d'.Serves

/-- No byte is given only when none is left and the source is closed. -/
theorem ending_of_nextByte_none {d d' : Decoder} (hd : d.Serves) (h : nextByte d = .ok none d') :
    d.contents = [] ∧ d.source.ending = .closed := by
  unfold nextByte at h
  split at h
  · cases h
  · next hw =>
    split at h
    · cases h
    · next hf =>
      obtain ⟨hcontents, hclosed⟩ := Source.ending_of_fill_nil hd.2 hd.1 hf
      exact ⟨by rw [contents, hw, hcontents]; rfl, hclosed⟩
    · cases h

/-- A byte is missing only because the source is broken. -/
theorem ending_of_nextByte_error {d d' : Decoder} {e : LexFault} (h : nextByte d = .error e d') :
    ∃ text, e = .source text ∧ d.source.ending = .broken text := by
  unfold nextByte at h
  split at h
  · cases h
  · split at h
    · cases h
    · cases h
    · next hf =>
      injection h with he _
      exact ⟨_, he.symm, Source.ending_of_fill_error hf⟩

/-- Reading a byte changes neither ending, position, room nor mode. -/
theorem continues_nextByte {d : Decoder} (hd : d.Serves) :
    d.Continues (finalState (nextByte d)) := by
  have hframe := d.source.frame_fill d.capacity hd.2
  unfold nextByte
  split
  · exact ⟨rfl, rfl, rfl, hd⟩
  · split <;> next hf =>
      rw [hf] at hframe
      exact ⟨hframe.1, rfl, rfl, hd.1, hframe.2⟩

/-- As long as bytes are left the first of them comes next. -/
theorem nextByte_of_cons {d : Decoder} {byte : UInt8} {bytes : List UInt8} (hd : d.Serves)
    (h : d.contents = byte :: bytes) :
    ∃ d', nextByte d = .ok (some byte) d' ∧ d'.contents = bytes ∧ d.Continues d' := by
  have hframe := continues_nextByte hd
  cases hn : nextByte d with
  | error e d' => rw [(contents_of_nextByte_error hn).1] at h; cases h
  | ok byte? d' =>
    rw [hn] at hframe
    cases byte? with
    | some first =>
      rw [contents_of_nextByte hn] at h
      injection h with hfirst hrest
      exact ⟨d', by rw [hfirst], hrest, hframe⟩
    | none => rw [(ending_of_nextByte_none hd hn).1] at h; cases h

/-- A closed source without bytes gives none. -/
theorem nextByte_of_closed {d : Decoder} (hd : d.Serves) (h : d.contents = [])
    (he : d.source.ending = .closed) :
    ∃ d', nextByte d = .ok none d' ∧ d'.contents = [] ∧ d.Continues d' := by
  have hframe := continues_nextByte hd
  cases hn : nextByte d with
  | error e d' =>
    obtain ⟨text, -, hbroken⟩ := ending_of_nextByte_error hn
    rw [he] at hbroken
    cases hbroken
  | ok byte? d' =>
    rw [hn] at hframe
    cases byte? with
    | some first => rw [contents_of_nextByte hn] at h; cases h
    | none => exact ⟨d', rfl, by rw [contents_of_nextByte_none hn, h], hframe⟩

/-- A closed source without bytes is at its end. -/
theorem next_of_closed {d : Decoder} (hd : d.Serves) (h : d.contents = [])
    (he : d.source.ending = .closed) :
    ∃ d', d.next = .ok ⟨none, d'.locator.position⟩ d' := by
  obtain ⟨d', hbyte, -, -⟩ := nextByte_of_closed hd h he
  refine ⟨d', ?_⟩
  simp only [next, bind, EStateM.bind, hbyte]
  rfl

/-- A broken source without bytes fails with its text. -/
theorem nextByte_of_broken {d : Decoder} {text : String} (hd : d.Serves) (h : d.contents = [])
    (he : d.source.ending = .broken text) :
    ∃ d', nextByte d = .error (.source text) d' ∧ d'.contents = [] ∧ d.Continues d' := by
  have hframe := continues_nextByte hd
  cases hn : nextByte d with
  | error e d' =>
    rw [hn] at hframe
    obtain ⟨failed, hfault, hbroken⟩ := ending_of_nextByte_error hn
    rw [he] at hbroken
    injection hbroken with htext
    exact ⟨d', by rw [hfault, htext], (contents_of_nextByte_error hn).2, hframe⟩
  | ok byte? d' =>
    cases byte? with
    | some first => rw [contents_of_nextByte hn] at h; cases h
    | none => rw [(ending_of_nextByte_none hd hn).2] at he; cases he

/-! ## Decoding -/

/-- Two decoders with the same bytes to come, sources that end alike, and locators related by
`L`. -/
structure Agrees (L : Locator → Locator → Prop) (d d' : Decoder) : Prop where
  contents : d.contents = d'.contents
  ending : d.source.ending = d'.source.ending
  locator : L d.locator d'.locator
  mode : d.mode = d'.mode
  left : d.Serves
  right : d'.Serves

variable {L : Locator → Locator → Prop}

/-- Decoders that agree still do once both have passed the same bytes. -/
theorem Agrees.continues {d d' d₁ d₁' : Decoder} (h : d.Agrees L d') (hd : d.Continues d₁)
    (hd' : d'.Continues d₁') (hc : d₁.contents = d₁'.contents) : d₁.Agrees L d₁' where
  contents := hc
  ending := by rw [hd.ending, hd'.ending, h.ending]
  locator := by rw [hd.locator, hd'.locator]; exact h.locator
  mode := by rw [hd.mode, hd'.mode, h.mode]
  left := hd.serves
  right := hd'.serves

/-- Decoders that agree read the same byte. -/
theorem simulates_nextByte : Simulates Eq (Agrees L) Eq nextByte nextByte := by
  intro d d' h
  -- What comes next is settled by the bytes that are left and, without any, by the ending.
  cases hc : d.contents with
  | cons byte bytes =>
    obtain ⟨d₁, hn, hc₁, hk⟩ := nextByte_of_cons h.left hc
    obtain ⟨d₁', hn', hc₁', hk'⟩ := nextByte_of_cons h.right (h.contents ▸ hc)
    rw [hn, hn']
    exact .ok rfl (h.continues hk hk' (by rw [hc₁, hc₁']))
  | nil =>
    have hc' : d'.contents = [] := by rw [← h.contents, hc]
    cases he : d.source.ending with
    | closed =>
      obtain ⟨d₁, hn, hc₁, hk⟩ := nextByte_of_closed h.left hc he
      obtain ⟨d₁', hn', hc₁', hk'⟩ := nextByte_of_closed h.right hc' (h.ending ▸ he)
      rw [hn, hn']
      exact .ok rfl (h.continues hk hk' (by rw [hc₁, hc₁']))
    | broken text =>
      obtain ⟨d₁, hn, hc₁, hk⟩ := nextByte_of_broken h.left hc he
      obtain ⟨d₁', hn', hc₁', hk'⟩ := nextByte_of_broken h.right hc' (h.ending ▸ he)
      rw [hn, hn']
      exact .error rfl (h.continues hk hk' (by rw [hc₁, hc₁']))

/-- Decoders that read the same bytes read the same further bytes. -/
theorem simulates_further_of {R : Decoder → Decoder → Prop}
    (hR : Simulates Eq R Eq nextByte nextByte) (n : Nat) :
    Simulates Eq R Eq (further n) (further n) := by
  induction n with
  | zero => exact .pure rfl
  | succ n ih =>
    apply hR.bind
    rintro byte? _ rfl
    cases byte? with
    | none => exact .throw rfl
    | some byte =>
      apply ih.bind
      rintro bytes _ rfl
      exact .pure rfl

/-- They read the same further bytes. -/
theorem simulates_further (n : Nat) : Simulates Eq (Agrees L) Eq (further n) (further n) :=
  simulates_further_of simulates_nextByte n

/-- They read the same group. -/
theorem simulates_group (mode : Strictness) (lead : UInt8) :
    Simulates Eq (Agrees L) Eq (group mode lead) (group mode lead) := by
  cases mode with
  | permissive =>
    apply (simulates_further _).bind
    rintro bytes _ rfl
    exact .pure rfl
  | strict =>
    simp only [group]
    split
    · apply (simulates_further _).bind
      rintro bytes _ rfl
      split
      · exact .pure rfl
      · exact .throw rfl
    · exact .throw rfl

/-- A relation of locators and one of positions that passing code points keeps. -/
structure Tracks (L : Locator → Locator → Prop) (P : Position → Position → Prop) : Prop where
  position : ∀ ⦃l l'⦄, L l l' → P l.position l'.position
  pass : ∀ ⦃l l'⦄ (c : CodePoint), L l l' → L (l.pass c) (l'.pass c)

variable {P : Position → Position → Prop}

/-- The same code point, or the end of both inputs, at related positions. -/
def SameCodePoint (P : Position → Position → Prop) (l l' : Lookahead) : Prop :=
  l.codePoint? = l'.codePoint? ∧ P l.position l'.position

/-- Decoders that agree decode the same, up to the positions that they track. -/
theorem simulates_next (hL : Tracks L P) :
    Simulates Eq (Agrees L) (SameCodePoint P) next next := by
  apply simulates_nextByte.bind
  rintro byte? _ rfl
  cases byte? with
  | none => exact fun d d' h => .ok ⟨rfl, hL.position h.locator⟩ h
  | some lead =>
    apply Simulates.of_get.bind
    intro d d' h
    rw [h.mode]
    apply (simulates_group d'.mode lead).bind
    rintro c _ rfl
    intro e e' he
    exact .ok ⟨rfl, hL.position he.locator⟩ { he with locator := hL.pass c he.locator }

end Decoder

end RdfTurtle
