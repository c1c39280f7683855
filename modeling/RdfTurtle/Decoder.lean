import RdfTurtle.Encoding.Utf8
import RdfTurtle.LexError
import RdfTurtle.Options
import RdfTurtle.Source
import RdfTurtle.Spending

/-! # Decoding

A **decoder** turns the bytes of a source into code points with positions. It keeps a window of
bytes that were delivered and not decoded yet, and fills it when it is empty.

* **`Lookahead`** — a code point, or the end of input, with its position.
* **`Decoder.contents`** — the bytes not yet decoded, wherever they are.
* **`Decoder.next`** — decodes one code point. Permissive decoding accepts every complete group of
  bytes; strict decoding accepts well-formed UTF-8 only. Either way all bytes that the lead
  announces are read first, so a group cut short by the end is a premature end.
* **`Decoder.size_of_next`** — decoding a code point uses up bytes. -/

namespace RdfTurtle

/-- A code point, or `none` at the end of input, with its position. -/
@[ext] structure Lookahead where
  codePoint? : Option CodePoint
  position : Position
  deriving DecidableEq, Repr, Inhabited

namespace Lookahead

/-- A code point counts for one, the end for nothing. -/
def size (l : Lookahead) : Nat := if l.codePoint?.isSome then 1 else 0

/-- A code point counts for one. -/
@[simp] theorem size_some (c : CodePoint) (p : Position) : size ⟨some c, p⟩ = 1 := rfl

/-- The end counts for nothing. -/
@[simp] theorem size_none (p : Position) : size ⟨none, p⟩ = 0 := rfl

/-- The sizes of lookaheads together. -/
def total : List Lookahead → Nat
  | [] => 0
  | l :: ls => l.size + total ls

@[simp] theorem total_nil : total [] = 0 := rfl

/-- The first lookahead counts with the others. -/
@[simp] theorem total_cons (l : Lookahead) (ls : List Lookahead) :
    total (l :: ls) = l.size + total ls := rfl

/-- Lists of lookaheads count together. -/
@[simp] theorem total_append (ls ks : List Lookahead) : total (ls ++ ks) = total ls + total ks := by
  induction ls with
  | nil => simp
  | cons l ls ih => rw [List.cons_append, total_cons, total_cons, ih, Nat.add_assoc]

end Lookahead

/-- A source, the window of delivered bytes, and the position of the next code point. -/
structure Decoder where
  source : Source
  window : List UInt8
  locator : Locator
  capacity : Nat
  mode : Strictness

namespace Decoder

/-- A decoder before the first byte. -/
def ofSource (source : Source) (options : Options) : Decoder :=
  ⟨source, [], .start, options.capacity, options.utf8⟩

/-- The bytes not yet decoded. -/
def contents (d : Decoder) : List UInt8 := d.window ++ d.source.contents

/-- The next byte, or `none` when a filling gives no bytes. -/
def nextByte : EStateM LexFault Decoder (Option UInt8) := fun d =>
  match d.window with
  | byte :: window => .ok (some byte) { d with window }
  | [] =>
    match d.source.fill d.capacity with
    | .ok (byte :: window) source => .ok (some byte) { d with source, window }
    | .ok [] source => .ok none { d with source }
    | .error text source => .error (.source text) { d with source }

/-- The next `n` bytes, which the input must hold. -/
def further : Nat → EStateM LexFault Decoder (List UInt8)
  | 0 => pure []
  | n + 1 => do
    match ← nextByte with
    | none => throw .prematureEnd
    | some byte => return byte :: (← further n)

/-- The code point of the group that `lead` begins, reading its further bytes. -/
def group (mode : Strictness) (lead : UInt8) : EStateM LexFault Decoder CodePoint :=
  match mode with
  | .permissive => do
    return Utf8.spell lead (← further (Utf8.furtherBytes lead))
  | .strict =>
    if Utf8.isLead lead then do
      match Utf8.scalar? lead (← further (Utf8.furtherBytes lead)) with
      | some x => return x
      | none => throw .invalidUtf8
    else throw .invalidUtf8

/-- The end of input, where the locator stands. -/
def here : EStateM LexFault Decoder Lookahead := fun d => .ok ⟨none, d.locator.position⟩ d

/-- The code point `c`, where the locator stands; the locator passes it. -/
def pass (c : CodePoint) : EStateM LexFault Decoder Lookahead := fun d =>
  .ok ⟨some c, d.locator.position⟩ { d with locator := d.locator.pass c }

/-- The next code point with its position. When it cannot be decoded the locator stays at the group
at fault. -/
def next : EStateM LexFault Decoder Lookahead := do
  match ← nextByte with
  | none => here
  | some lead => pass (← group (← get).mode lead)

/-! ## Decoding uses up bytes -/

/-- The number of bytes not yet decoded. -/
def size (d : Decoder) : Nat := d.contents.length

/-- A byte is the first of the contents. -/
theorem contents_of_nextByte {d d' : Decoder} {byte : UInt8}
    (h : d.nextByte = .ok (some byte) d') : d.contents = byte :: d'.contents := by
  unfold nextByte at h
  split at h
  · next hw =>
    injection h with h₁ h₂
    injection h₁ with h₁
    subst h₁ h₂
    simp [contents, hw]
  · next hw =>
    split at h
    · next hf =>
      injection h with h₁ h₂
      injection h₁ with h₁
      subst h₁ h₂
      simp [contents, hw, Source.contents_of_fill hf]
    · simp at h
    · simp at h

/-- At the end the contents stay as they are. -/
theorem contents_of_nextByte_none {d d' : Decoder} (h : d.nextByte = .ok none d') :
    d'.contents = d.contents := by
  unfold nextByte at h
  split at h
  · simp at h
  · split at h
    · simp at h
    · next hw _ hf =>
      injection h with _ h
      subst h
      simp [contents, Source.contents_of_fill hf]
    · simp at h

/-- When the source fails no bytes are left. -/
theorem contents_of_nextByte_error {d d' : Decoder} {e : LexFault}
    (h : d.nextByte = .error e d') : d.contents = [] ∧ d'.contents = [] := by
  unfold nextByte at h
  split at h
  · simp at h
  · next hw =>
    split at h
    · simp at h
    · simp at h
    · next hf =>
      injection h with _ h
      subst h
      simp [contents, hw, Source.contents_of_fill_error hf]

/-- Reading a byte adds nothing to the input. -/
theorem keeps_nextByte : Keeps size nextByte := by
  intro d
  cases h : nextByte d with
  | ok byte? d' =>
    cases byte? with
    | none => simp [size, contents_of_nextByte_none h]
    | some byte => simp [size, contents_of_nextByte h]
  | error e d' => simp [size, contents_of_nextByte_error h]

/-- Nor does reading several. -/
theorem keeps_further (n : Nat) : Keeps size (further n) := by
  induction n with
  | zero => exact .pure _
  | succ n ih =>
    refine keeps_nextByte.bind fun byte? => ?_
    cases byte? with
    | none => exact .throw _
    | some byte => exact ih.bind fun _ => .pure _

/-- Nor does reading a group. -/
theorem keeps_group (mode : Strictness) (lead : UInt8) : Keeps size (group mode lead) := by
  cases mode with
  | permissive => exact (keeps_further _).bind fun _ => .pure _
  | strict =>
    simp only [group]
    split
    · refine (keeps_further _).bind fun bytes => ?_
      split
      · exact .pure _
      · exact .throw _
    · exact .throw _

/-- Nor does looking where it stands. -/
theorem keeps_here : Keeps size here := fun _ => Nat.le_refl _

/-- Nor does passing a code point. -/
theorem keeps_pass (c : CodePoint) : Keeps size (pass c) := fun _ => Nat.le_refl _

/-- Nor does reading a group and passing its code point. -/
theorem keeps_groupAndPass (lead : UInt8) :
    Keeps size (do pass (← group (← get).mode lead)) :=
  Keeps.of_get.bind fun _ => (keeps_group _ lead).bind keeps_pass

/-- Decoding never leaves more bytes. -/
theorem keeps_next : Keeps size next := by
  refine keeps_nextByte.bind fun byte? => ?_
  cases byte? with
  | none => exact keeps_here
  | some lead => exact keeps_groupAndPass lead

/-- Decoding a code point uses up bytes. -/
theorem size_of_next {d d' : Decoder} {c : CodePoint} {p : Position}
    (h : next d = .ok ⟨some c, p⟩ d') : d'.size < d.size := by
  obtain ⟨byte?, d₁, h₁, h₂⟩ := ok_of_bind h
  cases byte? with
  | none => simp [here] at h₂
  | some lead =>
    have hle := (keeps_groupAndPass lead).ok h₂
    have hlt : d.size = d₁.size + 1 := by simp [size, contents_of_nextByte h₁]
    omega

end Decoder

end RdfTurtle
