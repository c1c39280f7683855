import RdfTurtle.Iri.Parts

/-! # Resolving references

A reference is resolved against an absolute IRI, its base. What the reference leaves out is taken
from the base; a path that is not absolute goes on behind the last slash of the path of the base.
Dot segments are removed from paths that are put together, and from absolute paths; a reference with
a scheme or an authority keeps its path as it is.

* **`Iri.Parts.removeDots?`** — what a dot segment at the end of a path does to it.
* **`Iri.Parts.mergePath`** — continues a path with a reference's, removing dot segments on the way.
* **`Iri.Parts.resolve`** — the IRI that a reference stands for. -/

namespace RdfTurtle.Iri.Parts

/-- Cuts a path after its last slash. Paths are written backwards here. Without a slash nothing is
left, or the slash that a path needs after an authority. -/
def parent (hasAuthority : Bool) (reversedPath : List Char) : List Char :=
  match reversedPath.dropWhile (· ≠ '/') with
  | [] => if hasAuthority then ['/'] else []
  | above => above

/-- The path, written backwards, without the dot segment at its end, if there is one. A segment `..`
goes together with the segment before it. -/
def removeDots? (hasAuthority : Bool) : List Char → Option (List Char)
  | '.' :: '.' :: '/' :: above => some (parent hasAuthority above)
  | '.' :: '/' :: above => some ('/' :: above)
  | ['.'] => some []
  | ['.', '.'] => some []
  | _ => none

/-- Refuses a path, written backwards, that would be taken for an authority. -/
def checkPath (hasAuthority : Bool) (reversedPath : List Char) : Except IriError Unit :=
  if !hasAuthority && ['/', '/'].isSuffixOf reversedPath then .error .pathLikeAuthority
  else .ok ()

/-- Reads a path segment by segment onto the end of `path`, which is written backwards. At the end
of each segment dots are removed; the slash after a removed segment is not written. In the first
segment the characters of `extra` are allowed besides plain ones. -/
def mergePath (hasAuthority : Bool) (extra : Char → Bool) (path text : List Char) : Read :=
  match _h : readPart ['/', '?', '#'] extra text with
  | .error e => .error e
  | .ok (segment, '/' :: rest) =>
    let longer := segment.reverse ++ path
    match removeDots? hasAuthority longer with
    | some path =>
      match checkPath hasAuthority path with
      | .ok () => mergePath hasAuthority inSegment path rest
      | .error e => .error e
    | none => mergePath hasAuthority inSegment ('/' :: longer) rest
  | .ok (segment, rest) =>
    let longer := segment.reverse ++ path
    let path := (removeDots? hasAuthority longer).getD longer
    match checkPath hasAuthority path with
    | .ok () => .ok (path.reverse, rest)
    | .error e => .error e
termination_by text.length
decreasing_by
  all_goals
    have := congrArg List.length (append_of_readPart ‹_›)
    simp only [List.length_append, List.length_cons] at this
    omega

/-- Puts a merged path, and the query and fragment after it, into `base`. -/
def withPath (base : Parts) (merged : Read) : Except IriError Parts := do
  let (path, rest) ← merged
  let (query?, rest) ← readQuery? rest
  let fragment? ← readFragment? rest
  return { base with path, query?, fragment? }

/-- The IRI that a reference stands for. -/
def resolve (base : Parts) (reference : List Char) : Except IriError Parts :=
  match readScheme? reference with
  | some (scheme, rest) => afterScheme scheme rest
  | none =>
    let hasAuthority := base.authority?.isSome
    match reference with
    | [] => .ok { base with fragment? := none }
    | ':' :: _ => .error .noScheme
    | '/' :: '/' :: _ => afterScheme base.scheme reference
    | '/' :: rest => withPath base (mergePath hasAuthority inSegment ['/'] rest)
    | '?' :: _ => withPath base (.ok (base.path, reference))
    | '#' :: _ => do return { base with fragment? := ← readFragment? reference }
    | _ =>
      withPath base
        (mergePath hasAuthority (· = '@') (parent hasAuthority base.path.reverse) reference)

example : ((parse "http://a/b/c;d?q".toList).bind (·.resolve "../g".toList)).toOption.map render =
    some "http://a/g" := by decide +kernel
example : ((parse "http://a/b/c;d?q".toList).bind (·.resolve "?y#s".toList)).toOption.map render =
    some "http://a/b/c;d?y#s" := by decide +kernel
example : ((parse "http://a/b".toList).bind (·.resolve "g:../h".toList)).toOption.map render =
    some "g:../h" := by decide +kernel
example : ((parse "http://a".toList).bind (·.resolve "g".toList)).toOption.map render =
    some "http://a/g" := by decide +kernel

end RdfTurtle.Iri.Parts
