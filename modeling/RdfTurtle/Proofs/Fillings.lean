import RdfTurtle.Proofs.Delivery

/-! # Successive fillings

A source is asked again and again to fill a buffer, which may be of another size each time. It hands
out its bytes in order and each of them once: every piece is cut from the front of what is left,
within one chunk, and only when nothing is left does the source answer as it ends, from then on.

* **`Source.fillings`** — the answers to one filling after another.
* **`Source.Piece`** — a piece that a filling may give behind the bytes that were given before.
* **`Source.fillings_reader`** — interruptions do not show in the answers.
* **`Source.answer_cases`** — one filling; **`Source.delivered_in_pieces`** — any number of them. -/

namespace RdfTurtle

/-- What a filling gives, or the text with which it fails. -/
abbrev Answer := Except String (List UInt8)

namespace Answer

/-- The bytes that an answer gives. -/
def bytes : Answer → List UInt8
  | .ok bytes => bytes
  | .error _ => []

/-- The bytes that successive answers give. -/
def delivered (answers : List Answer) : List UInt8 := answers.flatMap bytes

@[simp] theorem delivered_nil : delivered [] = [] := rfl

/-- The bytes of an answer come before those of the next. -/
@[simp] theorem delivered_cons (answer : Answer) (answers : List Answer) :
    delivered (answer :: answers) = answer.bytes ++ delivered answers := List.flatMap_cons

end Answer

/-- How a source answers once its bytes are used up. -/
def Ending.answer : Ending → Answer
  | .closed => .ok []
  | .broken text => .error text

/-- At the end no bytes are given. -/
@[simp] theorem Ending.bytes_answer (ending : Ending) : ending.answer.bytes = [] := by
  cases ending <;> rfl

namespace Source

/-- The stretches of bytes that no filling goes beyond: each chunk for itself, and all that memory
or a reader holds. -/
def blocks : Source → List (List UInt8)
  | .memory rest => [rest]
  | .chunks rest => rest
  | .reader r => [r.rest]

/-- The blocks together are all the bytes that are left. -/
theorem flatten_blocks (s : Source) : s.blocks.flatten = s.contents := by
  cases s <;> simp [blocks, contents]

/-- The answer to one filling of a buffer with room for `capacity` bytes. -/
def answer (s : Source) (capacity : Nat) : Answer :=
  match s.fill capacity with
  | .ok bytes _ => .ok bytes
  | .error text _ => .error text

/-- The answers to successive fillings of buffers with room for `capacities`, whether they fail or
not. -/
def fillings : Source → List Nat → List Answer
  | _, [] => []
  | s, capacity :: capacities =>
    s.answer capacity :: (finalState (s.fill capacity)).fillings capacities

end Source

/-! ## Pieces -/

namespace Source

/-- A piece that a buffer with room for `capacity` bytes may be given when the bytes `passed` of
`blocks` were given before: some bytes, that fit into the buffer and stand within one block,
directly behind `passed`. -/
structure Piece (blocks : List (List UInt8)) (passed : List UInt8) (capacity : Nat)
    (piece : List UInt8) : Prop where
  ne_nil : piece ≠ []
  fits : piece.length ≤ capacity
  within : ∃ before start rest after,
    blocks = before ++ (start ++ (piece ++ rest)) :: after ∧ passed = before.flatten ++ start

/-- The first bytes that are left of `blocks` are `piece`, and `left` is left behind it. -/
def CutOff (blocks : List (List UInt8)) (piece : List UInt8) (left : List (List UInt8)) : Prop :=
  ∃ empty rest after, empty.flatten = [] ∧ blocks = empty ++ (piece ++ rest) :: after ∧
    left = rest :: after

section Pieces

variable {blocks left : List (List UInt8)} {passed piece more : List UInt8} {capacity : Nat}

/-- What is cut off comes before what is left. -/
theorem CutOff.flatten_eq (h : CutOff blocks piece left) :
    blocks.flatten = piece ++ left.flatten := by
  obtain ⟨empty, rest, after, hempty, rfl, rfl⟩ := h
  rw [List.flatten_append, hempty, List.flatten_cons, List.flatten_cons, List.append_assoc]
  rfl

/-- What is cut off first is a piece behind nothing. -/
theorem CutOff.first (h : CutOff blocks piece left) (hne : piece ≠ [])
    (hfits : piece.length ≤ capacity) : Piece blocks [] capacity piece := by
  obtain ⟨empty, rest, after, hempty, rfl, -⟩ := h
  exact ⟨hne, hfits, empty, [], rest, after, rfl, by rw [hempty]; rfl⟩

/-- A piece of what is left stands behind what was cut off. -/
theorem Piece.behind (h : Piece left passed capacity more) (hcut : CutOff blocks piece left) :
    Piece blocks (piece ++ passed) capacity more := by
  obtain ⟨empty, rest, after, hempty, rfl, rfl⟩ := hcut
  obtain ⟨before, start, rest', after', hleft, rfl⟩ := h.within
  refine ⟨h.ne_nil, h.fits, ?_⟩
  cases before with
  -- It stands in the block that was cut, or in one behind that.
  | nil =>
    injection hleft with hrest hafter
    refine ⟨empty, piece ++ start, rest', after', ?_, ?_⟩
    · rw [hrest, hafter, List.append_assoc]
    · rw [hempty]
      rfl
  | cons block before =>
    injection hleft with hrest hafter
    subst hrest hafter
    refine ⟨empty ++ (piece ++ rest) :: before, start, rest', after', ?_, ?_⟩
    · rw [List.append_assoc]
      rfl
    · rw [List.flatten_append, hempty, List.flatten_cons, List.flatten_cons]
      simp only [List.nil_append, List.append_assoc]

/-- Behind all bytes there is no piece. -/
theorem Piece.passed_ne (h : Piece blocks passed capacity piece) : passed ≠ blocks.flatten := by
  obtain ⟨before, start, rest, after, rfl, rfl⟩ := h.within
  intro heq
  have hlength := congrArg List.length heq
  have hpos : 0 < piece.length := List.length_pos_iff.2 h.ne_nil
  simp only [List.flatten_append, List.flatten_cons, List.length_append] at hlength
  omega

end Pieces

end Source

/-! ## One filling -/

namespace Reader

/-- A filling gives no more than there is room for. -/
theorem length_of_fill {r r' : Reader} {capacity : Nat} {bytes : List UInt8}
    (h : r.fill capacity = .ok bytes r') : bytes.length ≤ capacity := by
  obtain ⟨rfl, -, -⟩ := of_fill_ok h
  have hroom : r.currentPace.room capacity ≤ capacity := by
    unfold Pace.room
    split
    · exact Nat.le_refl _
    · exact Nat.min_le_right _ _
  exact Nat.le_trans (List.length_take_le _ _) hroom

/-- Readers that differ in nothing but how often they are interrupted. -/
structure SameAnswers (r r' : Reader) : Prop where
  rest : r.rest = r'.rest
  ending : r.ending = r'.ending
  answered : r.answered = r'.answered
  limit : ∀ i, (r.pace i).limit? = (r'.pace i).limit?

/-- Interruptions apart, readers fill alike. -/
theorem alike_fill (capacity : Nat) :
    Simulates Eq SameAnswers Eq (fill · capacity) (fill · capacity) := by
  intro r r' h
  have hanswer (rest : List UInt8) : (r.answer rest).SameAnswers (r'.answer rest) :=
    ⟨rfl, h.ending, congrArg (· + 1) h.answered, h.limit⟩
  have hroom : r.currentPace.room capacity = r'.currentPace.room capacity := by
    rw [Pace.room, Pace.room, currentPace, currentPace, h.limit, h.answered]
  simp only [fill_eq_reply, reply, hroom, h.rest, h.ending]
  split
  · exact .error rfl (hanswer _)
  · exact .ok rfl (hanswer _)

end Reader

namespace Source

variable {s s' : Source} {capacity : Nat} {piece : List UInt8}

/-- Chunks fill a buffer with a piece cut off from them. -/
theorem cutOff_of_fillChunks {chunks : List (List UInt8)}
    (hne : (fillChunks capacity chunks).1 ≠ []) :
    CutOff chunks (fillChunks capacity chunks).1 (fillChunks capacity chunks).2 := by
  fun_induction fillChunks capacity chunks with
  | case1 => exact absurd rfl hne
  | case2 rest ih =>
    -- An empty chunk is passed over.
    obtain ⟨empty, rest', after, hempty, hblocks, hleft⟩ := ih hne
    exact ⟨[] :: empty, rest', after, hempty, congrArg ([] :: ·) hblocks, hleft⟩
  | case3 byte bytes rest =>
    refine ⟨[], _, rest, rfl, ?_, rfl⟩
    rw [List.nil_append, List.take_append_drop]

/-- They never fill more than there is room for. -/
theorem length_of_fillChunks (capacity : Nat) (chunks : List (List UInt8)) :
    (fillChunks capacity chunks).1.length ≤ capacity := by
  fun_induction fillChunks capacity chunks with
  | case1 => exact Nat.zero_le _
  | case2 rest ih => exact ih
  | case3 byte bytes rest => exact List.length_take_le _ _

/-- A filling that gives bytes cuts them off from the first block with any. -/
theorem cutOff_of_fill (h : s.fill capacity = .ok piece s') (hne : piece ≠ []) :
    CutOff s.blocks piece s'.blocks := by
  -- In one block there is nothing to be passed over.
  have hone {whole left : List UInt8} (heq : whole = piece ++ left) :
      CutOff [whole] piece [left] := ⟨[], left, [], rfl, congrArg ([·]) heq, rfl⟩
  cases s with
  | memory rest =>
    have hcontents := contents_of_fill h
    cases h
    exact hone hcontents
  | chunks rest =>
    cases h
    exact cutOff_of_fillChunks hne
  | reader r =>
    obtain ⟨r', hr, rfl⟩ := of_fill_reader_ok h
    exact hone (Reader.rest_of_fill hr)

/-- A filling gives no more than there is room for. -/
theorem length_of_fill (h : s.fill capacity = .ok piece s') : piece.length ≤ capacity := by
  cases s with
  | memory rest =>
    cases h
    exact List.length_take_le _ _
  | chunks rest =>
    cases h
    exact length_of_fillChunks capacity rest
  | reader r =>
    obtain ⟨_, hr, -⟩ := of_fill_reader_ok h
    exact Reader.length_of_fill hr

/-- **One filling.** As long as bytes are left it gives some of them, cut off in front; once none
are left the source answers as it ends, and none are left then either. -/
theorem answer_cases (hs : s.Serves) (hc : 0 < capacity) :
    (∃ piece, s.answer capacity = .ok piece ∧ piece ≠ [] ∧ piece.length ≤ capacity ∧
        CutOff s.blocks piece (finalState (s.fill capacity)).blocks) ∨
      s.answer capacity = s.ending.answer ∧ s.contents = [] ∧
        (finalState (s.fill capacity)).contents = [] := by
  unfold answer
  cases h : s.fill capacity with
  | error text s' =>
    obtain ⟨hnil, hnil'⟩ := contents_of_fill_error h
    exact Or.inr ⟨by rw [ending_of_fill_error h]; rfl, hnil, hnil'⟩
  | ok bytes s' =>
    by_cases hne : bytes = []
    · subst hne
      obtain ⟨hnil, hclosed⟩ := ending_of_fill_nil hs hc h
      have hcontents := contents_of_fill h
      rw [hnil, List.nil_append] at hcontents
      exact Or.inr ⟨by rw [hclosed]; rfl, hnil, hcontents.symm⟩
    · exact Or.inl ⟨bytes, rfl, hne, length_of_fill h, cutOff_of_fill h hne⟩

/-- A piece is cut off only where bytes are left. -/
theorem contents_of_cutOff (h : CutOff s.blocks piece s'.blocks) :
    s.contents = piece ++ s'.contents := by
  rw [← flatten_blocks, ← flatten_blocks, h.flatten_eq]

/-! ## One filling after another -/

/-- The first filling comes before those of the source that it leaves. -/
theorem fillings_cons (s : Source) (capacity : Nat) (capacities : List Nat) :
    s.fillings (capacity :: capacities) =
      s.answer capacity :: (finalState (s.fill capacity)).fillings capacities := rfl

/-- **Interruptions do not show.** Readers that differ in nothing else give the same answers. -/
theorem fillings_reader {r r' : Reader} (h : r.SameAnswers r') (capacities : List Nat) :
    (Source.reader r).fillings capacities = (Source.reader r').fillings capacities := by
  induction capacities generalizing r r' with
  | nil => rfl
  | cons capacity capacities ih =>
    have hfill := Reader.alike_fill capacity h
    dsimp only at hfill
    cases hr : r.fill capacity with
    | ok bytes t =>
      rw [hr] at hfill
      obtain ⟨bytes', t', hr', rfl, ht⟩ := hfill.of_ok
      simp only [fillings_cons, answer, fill, hr, hr', finalState, ih ht]
    | error text t =>
      rw [hr] at hfill
      obtain ⟨text', t', hr', rfl, ht⟩ := hfill.of_error
      simp only [fillings_cons, answer, fill, hr, hr', finalState, ih ht]

/-- Once nothing is left every filling is answered as the source ends. -/
theorem fillings_of_nil {capacities : List Nat} (hs : s.Serves) (h : s.contents = [])
    (room : ∀ c ∈ capacities, 0 < c) :
    s.fillings capacities = capacities.map fun _ => s.ending.answer := by
  induction capacities generalizing s with
  | nil => rfl
  | cons capacity capacities ih =>
    obtain ⟨hc, room⟩ := List.forall_mem_cons.1 room
    obtain ⟨hending, hserves⟩ := s.frame_fill capacity hs
    rcases answer_cases hs hc with ⟨piece, -, hne, -, hcut⟩ | ⟨hanswer, -, hleft⟩
    · rw [contents_of_cutOff hcut] at h
      exact absurd (List.append_eq_nil_iff.1 h).1 hne
    · rw [fillings_cons, hanswer, ih hserves hleft room, hending]
      rfl

/-- What is given in all is a beginning of what is left, and all of it once there were as many
fillings as bytes. -/
theorem delivered_fillings {capacities : List Nat} (hs : s.Serves)
    (room : ∀ c ∈ capacities, 0 < c) :
    Answer.delivered (s.fillings capacities) <+: s.contents ∧
      (s.contents.length ≤ capacities.length →
        Answer.delivered (s.fillings capacities) = s.contents) := by
  induction capacities generalizing s with
  | nil => exact ⟨List.nil_prefix, fun h => (List.length_eq_zero_iff.1 (Nat.le_zero.1 h)).symm⟩
  | cons capacity capacities ih =>
    obtain ⟨hc, room⟩ := List.forall_mem_cons.1 room
    obtain ⟨hbegins, hall⟩ := ih (s.frame_fill capacity hs).2 room
    rw [fillings_cons, Answer.delivered_cons]
    rcases answer_cases hs hc with ⟨piece, hanswer, hne, -, hcut⟩ | ⟨hanswer, hnil, hleft⟩
    · rw [hanswer, contents_of_cutOff hcut]
      refine ⟨(List.prefix_append_right_inj piece).2 hbegins, fun hlength => ?_⟩
      -- Each filling gives a byte at least.
      have hpos : 0 < piece.length := List.length_pos_iff.2 hne
      rw [List.length_append, List.length_cons] at hlength
      exact congrArg (piece ++ ·) (hall (by omega))
    · rw [hleft] at hbegins
      rw [hanswer, Ending.bytes_answer, List.prefix_nil.1 hbegins, hnil]
      exact ⟨List.prefix_rfl, fun _ => rfl⟩

/-- Where nothing is left, nothing was left to be given either. -/
theorem fillings_append_of_nil {before after : List Nat} (hs : s.Serves) (h : s.contents = [])
    (room : ∀ c ∈ before ++ after, 0 < c) :
    Answer.delivered (s.fillings before) = s.contents ∧
      s.fillings (before ++ after) = s.fillings before ++ after.map fun _ => s.ending.answer := by
  have hbefore : ∀ c ∈ before, 0 < c := fun c hc => room c (List.mem_append_left _ hc)
  constructor
  · have hbegins := (delivered_fillings hs hbefore).1
    rw [h] at hbegins ⊢
    exact List.prefix_nil.1 hbegins
  · rw [fillings_of_nil hs h room, fillings_of_nil hs h hbefore, List.map_append]

/-- The filling behind others gives a piece behind what they gave, if anything is left. -/
theorem fillings_split {before after : List Nat} (hs : s.Serves)
    (room : ∀ c ∈ before ++ capacity :: after, 0 < c) :
    (∃ piece more, s.fillings (before ++ capacity :: after) =
        s.fillings before ++ .ok piece :: more ∧
        Piece s.blocks (Answer.delivered (s.fillings before)) capacity piece) ∨
      Answer.delivered (s.fillings before) = s.contents ∧
        s.fillings (before ++ capacity :: after) =
          s.fillings before ++ (capacity :: after).map fun _ => s.ending.answer := by
  -- The first filling takes a piece off the contents, and the others are those of what is left.
  induction before generalizing s with
  | nil =>
    rcases answer_cases hs (room capacity List.mem_cons_self) with
      ⟨piece, hanswer, hne, hfits, hcut⟩ | ⟨-, hnil, -⟩
    · exact Or.inl ⟨piece, _, by rw [List.nil_append, fillings_cons, hanswer]; rfl,
        hcut.first hne hfits⟩
    · exact Or.inr (fillings_append_of_nil hs hnil room)
  | cons first before ih =>
    obtain ⟨hending, hserves⟩ := s.frame_fill first hs
    rcases answer_cases hs (room first List.mem_cons_self) with
      ⟨start, hanswer, -, -, hcut⟩ | ⟨-, hnil, -⟩
    · rw [List.cons_append, fillings_cons, fillings_cons, Answer.delivered_cons, hanswer]
      rcases ih hserves fun c hc => room c (List.mem_cons_of_mem _ hc) with
        ⟨piece, more, hmore, hpiece⟩ | ⟨hdelivered, hrest⟩
      · exact Or.inl ⟨piece, more, by rw [hmore]; rfl, hpiece.behind hcut⟩
      · refine Or.inr ⟨?_, by rw [hrest, hending]; rfl⟩
        rw [contents_of_cutOff hcut, hdelivered]
        rfl
    · exact Or.inr (fillings_append_of_nil hs hnil room)

/-- **A source hands out its bytes in order, each of them once.** Take memory, chunks cut anywhere,
empty ones included, or a reader, at any pace and interrupted any number of times, and let it fill
buffers with room for a byte at least. What is given in all is a beginning of its bytes, and all of
them once there were as many fillings as bytes. As long as not all were given, the next filling
gives some that fit into its buffer, from one block and directly behind those given before; once
they were, this filling and all later ones are answered as the source ends. -/
theorem delivered_in_pieces {bytes : List UInt8} {ending : Ending} {capacities : List Nat}
    (h : s.Delivers bytes ending) (room : ∀ c ∈ capacities, 0 < c) :
    Answer.delivered (s.fillings capacities) <+: bytes ∧
      (bytes.length ≤ capacities.length → Answer.delivered (s.fillings capacities) = bytes) ∧
      ∀ before capacity after, capacities = before ++ capacity :: after →
        (Answer.delivered (s.fillings before) ≠ bytes →
          ∃ piece more, s.fillings capacities = s.fillings before ++ .ok piece :: more ∧
            Piece s.blocks (Answer.delivered (s.fillings before)) capacity piece) ∧
        (Answer.delivered (s.fillings before) = bytes →
          s.fillings capacities =
            s.fillings before ++ (capacity :: after).map fun _ => ending.answer) := by
  obtain ⟨rfl, rfl, hserves⟩ := h.spec
  obtain ⟨hbegins, hall⟩ := delivered_fillings hserves room
  refine ⟨hbegins, hall, ?_⟩
  rintro before capacity after rfl
  rcases fillings_split hserves room with ⟨piece, more, hmore, hpiece⟩ | ⟨hdelivered, hrest⟩
  · refine ⟨fun _ => ⟨piece, more, hmore, hpiece⟩, fun hdelivered => ?_⟩
    exact absurd (hdelivered.trans s.flatten_blocks.symm) hpiece.passed_ne
  · exact ⟨fun hne => absurd hdelivered hne, fun _ => hrest⟩

/-- Chunks, one of them empty, and a reader that breaks, interrupted more often before each answer:
the second filling stays within the third chunk, and all bytes come before the failure, which
stays. -/
theorem delivered_in_pieces_interrupted :
    (Source.chunks [[1, 2], [], [3, 4, 5, 6, 7], [8]]).Delivers [1, 2, 3, 4, 5, 6, 7, 8] .closed ∧
      (Source.reader (.ofBytes [1, 2, 3] (.broken "reset") fun i => ⟨i, some 2⟩)).Delivers
        [1, 2, 3] (.broken "reset") ∧
      (∀ c ∈ [3, 4, 5, 6, 7], 0 < c) ∧
      (∃ piece more, (Source.chunks [[1, 2], [], [3, 4, 5, 6, 7], [8]]).fillings [3, 4, 5, 6, 7] =
          [.ok [1, 2]] ++ .ok piece :: more ∧
        Piece [[1, 2], [], [3, 4, 5, 6, 7], [8]] [1, 2] 4 piece) ∧
      ∃ answers, (Source.reader (.ofBytes [1, 2, 3] (.broken "reset") fun i =>
          ⟨i, some 2⟩)).fillings [3, 4, 5, 6, 7] = answers ++ [.error "reset", .error "reset"] ∧
        Answer.delivered answers = [1, 2, 3] := by
  have hchunks := Delivers.chunks [[1, 2], [], [3, 4, 5, 6, 7], [8]]
  have hreader := Delivers.reader [1, 2, 3] (.broken "reset") (fun i => ⟨i, some 2⟩)
    fun _ h => by nomatch h
  have room : ∀ c ∈ [3, 4, 5, 6, 7], 0 < c := by decide
  have hfirst : ∀ c ∈ [3, 4, 5], 0 < c := by decide
  have hall := (delivered_in_pieces hreader hfirst).2.1 (by decide)
  exact ⟨hchunks, hreader, room,
    ((delivered_in_pieces hchunks room).2.2 [3] 4 [5, 6, 7] rfl).1 (by decide),
    _, ((delivered_in_pieces hreader room).2.2 [3, 4, 5] 6 [7] rfl).2 hall, hall⟩

end Source

end RdfTurtle
