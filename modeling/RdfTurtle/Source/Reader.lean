/-! # Readers

A **reader** hands out its bytes on request, as many as it likes at a time. A request may be
interrupted, which gives and loses nothing; the caller asks again. Once the bytes are used up a
reader is closed, or broken: then every further request fails with the same text.

* **`Reader.read`** — one request.
* **`Reader.fill`** — requests until one is not interrupted; **`Reader.fill_eq_reply`** says that
  it gives what the reader would give at once.
* **`Reader.rest_of_fill`** — what `fill` gives is cut from the front of what was left. -/

namespace RdfTurtle

/-- How a reader answers once its bytes are used up. -/
inductive Ending where
  | closed
  | broken (text : String)
  deriving DecidableEq, Repr, Inhabited

/-- How a reader serves one request: the interruptions before it answers, and the most bytes that
the answer holds, if it is bounded. -/
structure Pace where
  interruptions : Nat
  limit? : Option Nat
  deriving DecidableEq, Repr, Inhabited

namespace Pace

/-- At once, and with as many bytes as there is room for. -/
def steady : Pace := ⟨0, none⟩

/-- The most bytes of an answer when there is room for `capacity`. -/
def room (p : Pace) (capacity : Nat) : Nat :=
  match p.limit? with
  | none => capacity
  | some limit => min limit capacity

end Pace

/-- A reader: the bytes it still holds, how it ends, and its pace at each request. `answered` counts
the requests that it answered, `interrupted` the interruptions since the last answer. -/
structure Reader where
  rest : List UInt8
  ending : Ending
  pace : Nat → Pace
  answered : Nat
  interrupted : Nat

/-- The outcome of one request. -/
inductive Reading where
  | interrupted
  | given (bytes : List UInt8)
  | failed (text : String)
  deriving DecidableEq, Repr

namespace Reader

/-- A reader that has not been asked yet. -/
def ofBytes (bytes : List UInt8) (ending : Ending) (pace : Nat → Pace) : Reader :=
  ⟨bytes, ending, pace, 0, 0⟩

/-- The pace of the request that comes next. -/
def currentPace (r : Reader) : Pace := r.pace r.answered

/-- The interruptions still to come before the next answer. -/
def interruptionsLeft (r : Reader) : Nat := r.currentPace.interruptions - r.interrupted

/-- The reader after one more answer, with `rest` left. -/
def answer (r : Reader) (rest : List UInt8) : Reader :=
  { r with rest, answered := r.answered + 1, interrupted := 0 }

/-- One request for at most `capacity` bytes. A broken reader without bytes fails whatever the
capacity. -/
def read (r : Reader) (capacity : Nat) : Reading × Reader :=
  if r.interrupted < r.currentPace.interruptions then
    (.interrupted, { r with interrupted := r.interrupted + 1 })
  else
    let room := r.currentPace.room capacity
    match r.rest, r.ending with
    | [], .broken text => (.failed text, r.answer [])
    | rest, _ => (.given (rest.take room), r.answer (rest.drop room))

/-- An interruption uses up one of those to come. -/
theorem interruptionsLeft_of_read {r r' : Reader} {capacity : Nat}
    (h : r.read capacity = (.interrupted, r')) : r'.interruptionsLeft < r.interruptionsLeft := by
  unfold read at h
  split at h
  · injection h with _ h
    subst h
    simp only [interruptionsLeft, currentPace] at *
    omega
  · split at h <;> simp at h

/-- Requests bytes until the reader is not interrupted. -/
def fill (r : Reader) (capacity : Nat) : EStateM.Result String Reader (List UInt8) :=
  match _h : r.read capacity with
  | (.interrupted, r') => r'.fill capacity
  | (.given bytes, r') => .ok bytes r'
  | (.failed text, r') => .error text r'
termination_by r.interruptionsLeft
decreasing_by exact interruptionsLeft_of_read ‹_›

/-- The answer to a request that is not interrupted. -/
def reply (r : Reader) (capacity : Nat) : EStateM.Result String Reader (List UInt8) :=
  let room := r.currentPace.room capacity
  match r.rest, r.ending with
  | [], .broken text => .error text (r.answer [])
  | rest, _ => .ok (rest.take room) (r.answer (rest.drop room))

/-- An interruption does not show in the answer that follows it. -/
theorem reply_of_interrupted {r r' : Reader} {capacity : Nat}
    (h : r.read capacity = (.interrupted, r')) : r'.reply capacity = r.reply capacity := by
  -- It is only counted, and an answer forgets the count.
  unfold read at h
  split at h
  · cases h
    rfl
  · split at h <;> cases h

/-- Bytes that a reader gives are the reply. -/
theorem reply_of_given {r r' : Reader} {capacity : Nat} {bytes : List UInt8}
    (h : r.read capacity = (.given bytes, r')) : r.reply capacity = .ok bytes r' := by
  unfold read at h
  split at h
  · cases h
  · split at h
    · cases h
    · next hend =>
      cases h
      unfold reply
      split
      · next hrest hending => exact absurd hending (hend _ hrest)
      · rfl

/-- A failure of a reader is the reply. -/
theorem reply_of_failed {r r' : Reader} {capacity : Nat} {text : String}
    (h : r.read capacity = (.failed text, r')) : r.reply capacity = .error text r' := by
  unfold read at h
  split at h
  · cases h
  · split at h
    · next hrest hending =>
      cases h
      unfold reply
      rw [hrest, hending]
    · cases h

/-- **A reader is asked until it answers**: a filling gives what the reader would have given at
once, however often it was interrupted. -/
theorem fill_eq_reply (r : Reader) (capacity : Nat) : r.fill capacity = r.reply capacity := by
  fun_induction fill r capacity with
  | case1 r r₁ hread ih => rw [ih, reply_of_interrupted hread]
  | case2 r bytes r₁ hread => exact (reply_of_given hread).symm
  | case3 r text r₁ hread => exact (reply_of_failed hread).symm

/-- A reader gives as many bytes as there is room for, and none are left only if it is closed. -/
theorem of_fill_ok {r r' : Reader} {capacity : Nat} {bytes : List UInt8}
    (h : r.fill capacity = .ok bytes r') :
    bytes = r.rest.take (r.currentPace.room capacity) ∧
      r' = r.answer (r.rest.drop (r.currentPace.room capacity)) ∧
      (r.rest = [] → r.ending = .closed) := by
  rw [fill_eq_reply] at h
  unfold reply at h
  split at h
  · cases h
  · next hend =>
    cases h
    refine ⟨rfl, rfl, fun hrest => ?_⟩
    cases hending : r.ending with
    | closed => rfl
    | broken text => exact absurd hending (hend text hrest)

/-- A reader fails only when no bytes are left, and with the text with which it is broken. -/
theorem of_fill_error {r r' : Reader} {capacity : Nat} {text : String}
    (h : r.fill capacity = .error text r') :
    r.rest = [] ∧ r.ending = .broken text ∧ r' = r.answer [] := by
  rw [fill_eq_reply] at h
  unfold reply at h
  split at h
  · next hrest hending =>
    cases h
    exact ⟨hrest, hending, rfl⟩
  · cases h

/-- What `fill` gives is cut from the front of what was left. -/
theorem rest_of_fill {r r' : Reader} {capacity : Nat} {bytes : List UInt8}
    (h : r.fill capacity = .ok bytes r') : r.rest = bytes ++ r'.rest := by
  obtain ⟨rfl, rfl, -⟩ := of_fill_ok h
  exact (List.take_append_drop _ _).symm

/-- `fill` fails only when no bytes are left, and leaves none. -/
theorem rest_of_fill_error {r r' : Reader} {capacity : Nat} {text : String}
    (h : r.fill capacity = .error text r') : r.rest = [] ∧ r'.rest = [] := by
  obtain ⟨hrest, -, rfl⟩ := of_fill_error h
  exact ⟨hrest, rfl⟩

end Reader

end RdfTurtle
