import RdfTurtle.Source.Reader

/-! # Byte sources

A **source** delivers bytes into a buffer of a given capacity: from one piece of memory, from a
list of chunks, or from a reader. One filling never crosses the end of a chunk, and empty chunks are
passed over, so that only a source without bytes gives none into a buffer with room.

* **`Source.contents`** — the bytes not yet delivered.
* **`Source.fill`** — one filling.
* **`Source.contents_of_fill`** — what `fill` gives is cut from the front of the contents. -/

namespace RdfTurtle

/-- Where bytes come from. -/
inductive Source where
  | memory (rest : List UInt8)
  | chunks (rest : List (List UInt8))
  | reader (r : Reader)

namespace Source

/-- The bytes not yet delivered. -/
def contents : Source → List UInt8
  | .memory rest => rest
  | .chunks rest => rest.flatten
  | .reader r => r.rest

/-- How the source answers once its bytes are used up; only a reader can be broken. -/
def ending : Source → Ending
  | .reader r => r.ending
  | _ => .closed

/-- Fills from chunks: empty chunks are passed over, and the rest of a chunk stays in front. -/
def fillChunks (capacity : Nat) : List (List UInt8) → List UInt8 × List (List UInt8)
  | [] => ([], [])
  | [] :: rest => fillChunks capacity rest
  | (byte :: bytes) :: rest =>
    ((byte :: bytes).take capacity, (byte :: bytes).drop capacity :: rest)

/-- One filling of a buffer with room for `capacity` bytes. -/
def fill (capacity : Nat) : Source → EStateM.Result String Source (List UInt8)
  | .memory rest => .ok (rest.take capacity) (.memory (rest.drop capacity))
  | .chunks rest =>
    let (bytes, rest) := fillChunks capacity rest
    .ok bytes (.chunks rest)
  | .reader r =>
    match r.fill capacity with
    | .ok bytes r => .ok bytes (.reader r)
    | .error text r => .error text (.reader r)

/-- A filling from a reader is one of the reader. -/
theorem of_fill_reader_ok {r : Reader} {s' : Source} {capacity : Nat} {bytes : List UInt8}
    (h : (Source.reader r).fill capacity = .ok bytes s') :
    ∃ r', r.fill capacity = .ok bytes r' ∧ s' = .reader r' := by
  simp only [fill] at h
  split at h
  · next r' hr =>
    injection h with hbytes hs
    exact ⟨r', hbytes ▸ hr, hs.symm⟩
  · cases h

/-- A reader fails to fill a buffer as it fails to read. -/
theorem of_fill_reader_error {r : Reader} {s' : Source} {capacity : Nat} {text : String}
    (h : (Source.reader r).fill capacity = .error text s') :
    ∃ r', r.fill capacity = .error text r' ∧ s' = .reader r' := by
  simp only [fill] at h
  split at h
  · cases h
  · next r' hr =>
    injection h with htext hs
    exact ⟨r', htext ▸ hr, hs.symm⟩

/-- What a filling takes from chunks is cut from their front. -/
theorem flatten_of_fillChunks (capacity : Nat) (chunks : List (List UInt8)) :
    chunks.flatten =
      (fillChunks capacity chunks).1 ++ (fillChunks capacity chunks).2.flatten := by
  fun_induction fillChunks capacity chunks with
  | case1 => rfl
  | case2 rest ih => simpa using ih
  | case3 byte bytes rest =>
    rw [List.flatten_cons, List.flatten_cons, ← List.append_assoc, List.take_append_drop]

/-- What a filling gives is cut from the front of the contents. -/
theorem contents_of_fill {s s' : Source} {capacity : Nat} {bytes : List UInt8}
    (h : s.fill capacity = .ok bytes s') : s.contents = bytes ++ s'.contents := by
  cases s with
  | memory rest =>
    injection h with h₁ h₂
    subst h₁ h₂
    exact (List.take_append_drop capacity rest).symm
  | chunks rest =>
    injection h with h₁ h₂
    subst h₁ h₂
    exact flatten_of_fillChunks capacity rest
  | reader r =>
    obtain ⟨r', hr, rfl⟩ := of_fill_reader_ok h
    exact Reader.rest_of_fill hr

/-- A filling fails only when no bytes are left, and leaves none. -/
theorem contents_of_fill_error {s s' : Source} {capacity : Nat} {text : String}
    (h : s.fill capacity = .error text s') : s.contents = [] ∧ s'.contents = [] := by
  cases s with
  | memory rest => simp [fill] at h
  | chunks rest => simp [fill] at h
  | reader r =>
    obtain ⟨r', hr, rfl⟩ := of_fill_reader_error h
    exact Reader.rest_of_fill_error hr

end Source

end RdfTurtle
