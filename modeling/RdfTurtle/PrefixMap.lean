/-! # Prefix maps

The namespaces that a document declared, by their names, in ascending order of the names.

* **`PrefixMap.find?`** — the IRI of a namespace.
* **`PrefixMap.insert`** — declares a namespace, in place of one of the same name.
* **`PrefixMap.find?_insert`** — a declaration changes what is found at its name, and nothing
  else. -/

namespace RdfTurtle

/-- Names of namespaces in ascending order, each with its IRI. -/
@[ext] structure PrefixMap where
  entries : List (String × String)
  sorted : entries.Pairwise fun a b => a.1 < b.1
  deriving DecidableEq

namespace PrefixMap

/-- The map without namespaces. -/
def empty : PrefixMap := ⟨[], .nil⟩

instance : Inhabited PrefixMap := ⟨empty⟩

/-- The IRI of a namespace. -/
def find? (m : PrefixMap) (name : String) : Option String := m.entries.lookup name

/-- The number of namespaces. -/
def size (m : PrefixMap) : Nat := m.entries.length

/-- Puts a namespace into its place in a list. -/
def insertInto (name iri : String) : List (String × String) → List (String × String)
  | [] => [(name, iri)]
  | entry :: rest =>
    if name = entry.1 then (name, iri) :: rest
    else if name < entry.1 then (name, iri) :: entry :: rest
    else entry :: insertInto name iri rest

/-- Inserting adds no name but the given one. -/
theorem mem_insertInto {name iri : String} {entries : List (String × String)}
    {e : String × String} (h : e ∈ insertInto name iri entries) :
    e = (name, iri) ∨ e ∈ entries := by
  induction entries with
  | nil => exact Or.inl (List.mem_singleton.1 h)
  | cons entry rest ih =>
    unfold insertInto at h
    split at h
    · rcases List.mem_cons.1 h with h | h
      · exact Or.inl h
      · exact Or.inr (List.mem_cons_of_mem _ h)
    · split at h
      · exact List.mem_cons.1 h
      · rcases List.mem_cons.1 h with h | h
        · exact Or.inr (h ▸ List.mem_cons_self)
        · exact (ih h).imp_right (List.mem_cons_of_mem _)

/-- Names stay in order when one is put into its place. -/
theorem sorted_insertInto (name iri : String) {entries : List (String × String)}
    (h : entries.Pairwise fun a b => a.1 < b.1) :
    (insertInto name iri entries).Pairwise fun a b => a.1 < b.1 := by
  induction h with
  | nil => exact List.pairwise_singleton ..
  | @cons entry rest hrest hsorted ih =>
    unfold insertInto
    split
    · next heq => exact .cons (fun e he => heq ▸ hrest e he) hsorted
    · next hne =>
      split
      · next hlt =>
        refine .cons (fun e he => ?_) (.cons hrest hsorted)
        rcases List.mem_cons.1 he with rfl | he
        · exact hlt
        · exact String.lt_trans hlt (hrest e he)
      · next hnlt =>
        refine .cons (fun e he => ?_) ih
        rcases mem_insertInto he with rfl | he
        · exact Std.lt_of_le_of_ne (String.not_lt.1 hnlt) (Ne.symm hne)
        · exact hrest e he

/-- Declares a namespace. -/
def insert (m : PrefixMap) (name iri : String) : PrefixMap :=
  ⟨insertInto name iri m.entries, sorted_insertInto name iri m.sorted⟩

/-- The first namespace of a list is found at its own name only. -/
theorem lookup_entry (other name iri : String) (rest : List (String × String)) :
    ((name, iri) :: rest).lookup other = if other = name then some iri else rest.lookup other := by
  by_cases h : other = name
  · simp [h]
  · have hb : (other == name) = false := by simpa using h
    simp [List.lookup_cons, h, hb]

/-- A declaration changes what is found at its name, and nothing else. -/
theorem find?_insert (m : PrefixMap) (name iri other : String) :
    (m.insert name iri).find? other = if other = name then some iri else m.find? other := by
  obtain ⟨entries, sorted⟩ := m
  simp only [find?, insert]
  clear sorted
  induction entries with
  | nil => exact lookup_entry other name iri []
  | cons entry rest ih =>
    obtain ⟨entryName, entryIri⟩ := entry
    simp only [insertInto]
    split
    · next heq => subst heq; simp only [lookup_entry]; split <;> rfl
    · next hne =>
      split
      · exact lookup_entry other name iri _
      · rw [lookup_entry, lookup_entry, ih]
        by_cases ho : other = name
        · subst ho; simp [hne]
        · simp [ho]

/-- Without namespaces there is none to find. -/
@[simp] theorem find?_empty (name : String) : empty.find? name = none := rfl

end PrefixMap

end RdfTurtle
