/-! # Why a text is no IRI

* **`IriError`** — the reasons; the first one met from left to right is reported.
* **`IriError.message`** — their texts. -/

namespace RdfTurtle

/-- The reasons for which a text is no IRI, or no reference that can be resolved. -/
inductive IriError where
  /-- An absolute IRI has to begin with a scheme. -/
  | noScheme
  /-- The character may not stand where it stands. -/
  | codePoint (x : Char)
  /-- A percent sign is followed by these characters, or by fewer, in place of two digits. -/
  | percent (following : List Char)
  /-- The character may not stand in a host. -/
  | hostCharacter (x : Char)
  /-- A host between square brackets is no address. -/
  | hostAddress
  /-- The character may not stand among the digits behind a host. -/
  | portCharacter (x : Char)
  /-- Without an authority the path would be taken for one. -/
  | pathLikeAuthority
  deriving DecidableEq, Repr, Inhabited

/-- The text of a reason. -/
def IriError.message : IriError → String
  | .noScheme => "No scheme found in an absolute IRI"
  | .codePoint x => "Invalid IRI code point '" ++ x.toString ++ "'"
  | .percent following =>
    "Invalid IRI percent encoding '%" ++ String.ofList following ++ "'"
  | .hostCharacter x => "Invalid character '" ++ x.toString ++ "' in host"
  | .hostAddress => "Invalid host IP (invalid IPv6 address syntax)"
  | .portCharacter x => "Invalid character '" ++ x.toString ++ "'"
  | .pathLikeAuthority => "An IRI path is not allowed to start with //"

end RdfTurtle
