import RdfTurtle.Escape

/-! # IPv6 addresses

The text of an address is eight groups of at most four hexadecimal digits between colons. One `::`
stands for at least one group of zeros, and a dotted IPv4 address may stand for the last two groups.

* **`Ipv6.isAddress`** — whether a text is an address. -/

namespace RdfTurtle.Ipv6

/-- The digits at the front, if there are at least one and at most `most` of them, and the rest. -/
def number? (isDigit : Char → Bool) (most : Nat) (text : List Char) :
    Option (List Char × List Char) :=
  let digits := text.takeWhile isDigit
  if 0 < digits.length ∧ digits.length ≤ most then some (digits, text.dropWhile isDigit) else none

/-- What follows a group of hexadecimal digits. -/
def afterGroup? (text : List Char) : Option (List Char) :=
  (number? (fun x => (Escape.hexDigit? x).isSome) 4 text).map Prod.snd

/-- What follows a decimal number below 256, written without leading zeros. -/
def afterByte? (text : List Char) : Option (List Char) := do
  let (digits, rest) ← number? Char.isDigit 3 text
  if digits.head? = some '0' ∧ 1 < digits.length then none
  else if digits.foldl (fun value x => 10 * value + (x.toNat - '0'.toNat)) 0 < 256 then some rest
  else none

/-- What follows `mark`. -/
def after? (mark : Char) : List Char → Option (List Char)
  | x :: rest => if x = mark then some rest else none
  | [] => none

/-- What follows a dotted IPv4 address. -/
def afterIpv4? (text : List Char) : Option (List Char) := do
  let rest ← afterByte? text
  let rest ← afterByte? (← after? '.' rest)
  let rest ← afterByte? (← after? '.' rest)
  afterByte? (← after? '.' rest)

/-- What follows a part that stands behind a colon, unless it is the first. -/
def afterPart? (first : Bool) (part? : List Char → Option (List Char)) (text : List Char) :
    Option (List Char) :=
  if first then part? text else (after? ':' text).bind part?

/-- Groups read from the front of a text. -/
structure Groups where
  /-- The number of groups; an IPv4 address counts for two -/
  count : Nat
  /-- Whether the last two groups are an IPv4 address -/
  endsInIpv4 : Bool
  /-- What follows the groups -/
  rest : List Char

/-- Reads at most `room` groups. An IPv4 address ends them. -/
def groups (first : Bool) : Nat → List Char → Groups
  | 0, text => ⟨0, false, text⟩
  | room + 1, text =>
    match if 0 < room then afterPart? first afterIpv4? text else none with
    | some rest => ⟨2, true, rest⟩
    | none =>
      match afterPart? first afterGroup? text with
      | some rest =>
        let more := groups false room rest
        { more with count := more.count + 1 }
      | none => ⟨0, false, text⟩

/-- Whether a text is an address. An IPv4 address may not stand before `::`. -/
def isAddress (text : List Char) : Bool :=
  let front := groups true 8 text
  if front.count = 8 then front.rest.isEmpty
  else if front.endsInIpv4 then false
  else
    match front.rest with
    | ':' :: ':' :: rest => (groups true (7 - front.count) rest).rest.isEmpty
    | _ => false

example : isAddress "::1".toList = true := by decide +kernel
example : isAddress "2001:db8::192.0.2.1".toList = true := by decide +kernel
example : isAddress "1:2:3:4:5:6:7:8".toList = true := by decide +kernel
example : isAddress "1:2:3:4:5:6:7::".toList = true := by decide +kernel
example : isAddress "1:2:3:4:5:6:7".toList = false := by decide +kernel
example : isAddress "1.2.3.4::".toList = false := by decide +kernel
example : isAddress "::1.2.3.04".toList = false := by decide +kernel
example : isAddress "12345::".toList = false := by decide +kernel

end RdfTurtle.Ipv6
