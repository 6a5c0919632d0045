import ImportHeader.Symbol.Index

/-! Resolution finds the import that makes a reference work as it is written.

An entry matches a reference if it has more segments and ends with those of the reference.
What is to be imported is the entry up to the first segment of the reference. Of several
such names the one with the fewest segments wins, and of these the first by text.
-/

namespace ImportHeader

namespace SymbolIndex

/-- The name to import so that a reference means an entry, if the entry matches. -/
def importFor? (reference : Name) (entry : SymbolEntry) : Option Name :=
  if max reference.length 1 < entry.name.length && entry.name.endsWith reference then
    entry.name.take? (entry.name.length - reference.length + 1)
  else
    none

/-- A list without the repetitions of an element next to it. -/
def withoutRepeats {α : Type} [DecidableEq α] : List α → List α
  | [] => []
  | [last] => [last]
  | head :: next :: rest =>
      if head = next then
        withoutRepeats (next :: rest)
      else
        head :: withoutRepeats (next :: rest)

/-- All names whose import would make a reference work, the best one first. -/
def candidates (index : SymbolIndex) (reference : Name) : List Name :=
  let matching := (index.endingIn reference.last).filterMap (importFor? reference)
  withoutRepeats (matching.mergeSort fun left right => left.sortKey.le right.sortKey)

/-- The import that makes a reference work. -/
def resolve? (index : SymbolIndex) (reference : Name) : Option Name :=
  (index.candidates reference).head?

end SymbolIndex

/-- A reference and the import that makes it work, if there is one. -/
structure Resolution where
  reference : Name
  found? : Option Name
deriving DecidableEq, Inhabited

/-- The distinct elements of a list, each where it occurs first. -/
def firstSeen {α : Type} [DecidableEq α] (seen : List α) : List α → List α
  | [] => []
  | head :: rest =>
      if head ∈ seen then firstSeen seen rest else head :: firstSeen (head :: seen) rest

/-- Resolves each distinct reference, in the order in which they occur first. -/
def SymbolIndex.resolveAll (index : SymbolIndex) (references : List Name) : List Resolution :=
  (firstSeen [] references).map fun reference => ⟨reference, index.resolve? reference⟩

end ImportHeader
