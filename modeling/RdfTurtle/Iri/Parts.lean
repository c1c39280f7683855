import RdfTurtle.CharClass.Grammar
import RdfTurtle.Iri.Error
import RdfTurtle.Iri.Ipv6

/-! # The parts of an IRI

An absolute IRI has a scheme, perhaps an authority after `//`, a path, and perhaps a query after `?`
and a fragment after `#`. Its parts are kept as they are written; nothing is normalized.

* **`Iri.Parts`** — the parts, and **`Iri.Parts.toList`** the text that they make up.
* **`Iri.Parts.readPart`** — reads one part: up to a character that ends it, all its characters
  must be allowed in it, and a percent sign must be followed by two hexadecimal digits.
* **`Iri.Parts.parse`** — the parts of a text. A text without a scheme is read as a reference first,
  so that a character at fault in it is reported before the missing scheme. -/

namespace RdfTurtle.Iri

/-- The parts of an absolute IRI, without the marks that divide them. -/
@[ext] structure Parts where
  scheme : List Char
  authority? : Option (List Char)
  path : List Char
  query? : Option (List Char)
  fragment? : Option (List Char)
  deriving DecidableEq, Repr, Inhabited

namespace Parts

/-- The result of reading a part: what was read, and the rest of the text. -/
abbrev Read := Except IriError (List Char × List Char)

/-- Whether a character is a hexadecimal digit. -/
def isHexDigit (x : Char) : Bool := (Escape.hexDigit? x).isSome

/-- Whether two hexadecimal digits come first. -/
def startsWithHexPair : List Char → Bool
  | x :: y :: _ => isHexDigit x && isHexDigit y
  | _ => false

/-- Reads the characters before the first one of `ends`. Besides plain characters and percent
escapes those of `extra` are allowed. -/
def readPart (ends : List Char) (extra : Char → Bool) : List Char → Read
  | [] => .ok ([], [])
  | x :: rest =>
    if x ∈ ends then .ok ([], x :: rest)
    else if x = '%' then
      if startsWithHexPair rest then
        (readPart ends extra rest).map fun (read, rest) => (x :: read, rest)
      else .error (.percent (rest.take 2))
    else if (x : CodePoint) ∈ CharClass.iriPlain ∨ extra x then
      (readPart ends extra rest).map fun (read, rest) => (x :: read, rest)
    else .error (.codePoint x)

/-- A part and its rest make up the text. -/
theorem append_of_readPart {ends : List Char} {extra : Char → Bool} {text read rest : List Char}
    (h : readPart ends extra text = .ok (read, rest)) : text = read ++ rest := by
  induction text generalizing read with
  | nil =>
    injection h with h
    injection h with h₁ h₂
    subst h₁ h₂
    rfl
  | cons x text ih =>
    -- The `%` of an escape is read like a plain character, so both share this step.
    have step : (readPart ends extra text).map (fun (read, rest) => (x :: read, rest)) =
        .ok (read, rest) → x :: text = read ++ rest := by
      intro hmap
      cases hp : readPart ends extra text with
      | error e => rw [hp] at hmap; cases hmap
      | ok result =>
        obtain ⟨read', rest'⟩ := result
        rw [hp] at hmap
        injection hmap with hmap
        injection hmap with h₁ h₂
        subst h₁ h₂
        rw [List.cons_append, ← ih hp]
    unfold readPart at h
    split at h
    · injection h with h
      injection h with h₁ h₂
      subst h₁ h₂
      rfl
    · split at h
      · split at h
        · exact step h
        · cases h
      · split at h
        · exact step h
        · cases h

/-! ## The authority -/

/-- Whether a character is plain and ASCII. -/
def isAsciiPlain (x : Char) : Bool := x.toNat < 128 && decide ((x : CodePoint) ∈ CharClass.iriPlain)

/-- Reads the digits behind a host and a colon. -/
def readPort : List Char → Read
  | [] => .ok ([], [])
  | x :: rest =>
    if x ∈ ['/', '?', '#'] then .ok ([], x :: rest)
    else if x.isDigit then (readPort rest).map fun (read, rest) => (x :: read, rest)
    else .error (.portCharacter x)

/-- Checks an address of a future version: after a `v`, hexadecimal digits, a dot and at least one
more character. Where one is missing the character in its place is at fault, or the closing
bracket. -/
def checkFutureAddress (afterV : List Char) : Except IriError Unit :=
  let version := afterV.takeWhile isHexDigit
  match afterV.dropWhile isHexDigit with
  | [] => .error (.hostCharacter ']')
  | x :: address =>
    if x ≠ '.' then .error (.hostCharacter x)
    else if version.isEmpty then .error (.hostCharacter (address.headD ']'))
    else if address.isEmpty then .error (.hostCharacter ']')
    else
      match address.find? fun y => !(isAsciiPlain y || y = ':') with
      | some y => .error (.hostCharacter y)
      | none => .ok ()

/-- Checks what stands between square brackets. -/
def checkAddress (address : List Char) : Except IriError Unit :=
  if address.head? = some 'v' ∨ address.head? = some 'V' then checkFutureAddress address.tail
  else if Ipv6.isAddress address then .ok ()
  else .error .hostAddress

/-- Reads a colon and digits after `host`, if a colon follows. -/
def withPort (host : List Char) : List Char → Read
  | ':' :: rest => (readPort rest).map fun (digits, rest) => (host ++ ':' :: digits, rest)
  | rest => .ok (host, rest)

/-- Reads a host and perhaps a colon and digits. -/
def readHost : List Char → Read
  | '[' :: text => do
    let address := text.takeWhile (· ≠ ']')
    match text.dropWhile (· ≠ ']') with
    | [] => .error (.hostCharacter '[')
    | _ :: rest =>
      checkAddress address
      match rest with
      | [] => .ok ('[' :: address ++ [']'], [])
      | x :: _ =>
        if x ∈ [':', '/', '?', '#'] then withPort ('[' :: address ++ [']']) rest
        else .error (.hostCharacter x)
  | text => do
    let (name, rest) ← readPart [':', '/', '?', '#'] (fun _ => false) text
    withPort name rest

/-- Reads the authority after `//`: user information that ends with `@`, if there is any, a host and
perhaps a colon and digits. -/
def readAuthority (text : List Char) : Read := do
  let (user, rest) ← readPart ['@', '[', '/', '?', '#'] (· = ':') text
  match rest with
  | '@' :: rest => do
    let (host, rest) ← readHost rest
    return (user ++ '@' :: host, rest)
  | _ => readHost text

/-! ## The other parts -/

/-- The characters that a path may hold besides plain ones and slashes. -/
def inSegment (x : Char) : Bool := x = ':' || x = '@'

/-- The characters that a fragment may hold besides plain ones. -/
def inFragment (x : Char) : Bool := inSegment x || x = '/' || x = '?'

/-- The characters that a query may hold besides plain ones: private ones too. -/
def inQuery (x : Char) : Bool := inFragment x || decide ((x : CodePoint) ∈ CharClass.iriPrivate)

/-- Reads a path. -/
def readPath (text : List Char) : Read :=
  readPart ['?', '#'] (fun x => inSegment x || x = '/') text

/-- Reads the query, if there is one. -/
def readQuery? : List Char → Except IriError (Option (List Char) × List Char)
  | '?' :: rest => do
    let (query, rest) ← readPart ['#'] inQuery rest
    return (some query, rest)
  | rest => .ok (none, rest)

/-- Reads the fragment, if there is one; nothing can follow it. -/
def readFragment? : List Char → Except IriError (Option (List Char))
  | '#' :: rest => do
    let (fragment, _) ← readPart [] inFragment rest
    return some fragment
  | _ => .ok none

/-- Reads the authority, if there is one. -/
def readAuthority? : List Char → Except IriError (Option (List Char) × List Char)
  | '/' :: '/' :: rest => do
    let (authority, rest) ← readAuthority rest
    return (some authority, rest)
  | rest => .ok (none, rest)

/-- Splits off a scheme: a letter, then letters, digits, `+`, `-` and `.` up to a colon. -/
def readScheme? : List Char → Option (List Char × List Char)
  | [] => none
  | x :: text =>
    if x.isAlpha then
      let more := text.takeWhile fun y => y.isAlphanum || y ∈ ['+', '-', '.']
      match text.drop more.length with
      | ':' :: rest => some (x :: more, rest)
      | _ => none
    else none

/-- Reads what follows the scheme and its colon. -/
def afterScheme (scheme text : List Char) : Except IriError Parts := do
  let (authority?, rest) ← readAuthority? text
  let (path, rest) ← readPath rest
  let (query?, rest) ← readQuery? rest
  let fragment? ← readFragment? rest
  return ⟨scheme, authority?, path, query?, fragment?⟩

/-- Checks a reference without a scheme. No colon may stand in its first segment, where it would end
a scheme. -/
def checkRelative (text : List Char) : Except IriError Unit := do
  let (_, rest) ← readAuthority? text
  let (_, rest) ← readPart ['/', '?', '#'] (· = '@') rest
  let (_, rest) ← readPath rest
  let (_, rest) ← readQuery? rest
  let _ ← readFragment? rest

/-- The parts of an absolute IRI. -/
def parse (text : List Char) : Except IriError Parts :=
  match readScheme? text with
  | some (scheme, rest) => afterScheme scheme rest
  | none =>
    match text with
    | ':' :: _ => .error .noScheme
    | _ => do
      checkRelative text
      .error .noScheme

/-- The text of an absolute IRI. -/
def toList (iri : Parts) : List Char :=
  iri.scheme ++ ':' :: (iri.authority?.elim [] fun authority => '/' :: '/' :: authority) ++
    iri.path ++ (iri.query?.elim [] fun query => '?' :: query) ++
    (iri.fragment?.elim [] fun fragment => '#' :: fragment)

/-- The text of an absolute IRI, as a string. -/
def render (iri : Parts) : String := String.ofList iri.toList

end Parts

end RdfTurtle.Iri
