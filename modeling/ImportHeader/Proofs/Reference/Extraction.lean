import ImportHeader.Reference.Extraction
import Mathlib.Data.List.Basic

/-! What is extracted from a file: every candidate has a segment, every import of the import
scope is listed, and the references that need an import are bound by none of them.
-/

namespace ImportHeader

/-- A node of an outline is one of the nodes of all of them. -/
theorem Outline.mem_preorderAll {outlines : List Outline} {outline : Outline} {node : Node}
    (listed : outline ∈ outlines) (inside : node ∈ outline.preorder)
    : node ∈ preorderAll outlines := by
  induction outlines with
  | nil => cases listed
  | cons head rest ih =>
      rw [preorderAll, List.mem_append]
      rcases List.mem_cons.mp listed with rfl | later
      · exact .inl inside
      · exact .inr (ih later)

/-- An import statement has its declaration among its nodes. -/
theorem Stmt.importing_mem_preorder {stmt : Stmt} {declaration : Import}
    (declared : stmt.declaration? = some declaration)
    : Node.importing declaration ∈ (Outline.ofStmt stmt).preorder := by
  unfold Stmt.declaration? at declared
  split at declared
  · rename_i kind
    cases declared
    simp [Outline.ofStmt, kind, Outline.preorder, Outline.preorderAll]
  · cases declared

namespace SourceFile

/-- The declarations of the import scope are nodes of the file. -/
theorem importing_mem_nodes {file : SourceFile} {declaration : Import}
    (listed : declaration ∈ file.imports)
    : Node.importing declaration ∈ file.nodes := by
  obtain ⟨stmt, member, declared⟩ := List.mem_filterMap.mp listed
  have here := Stmt.importing_mem_preorder declared
  unfold importScope at member
  split at member
  · rename_i space first
    obtain ⟨item, item_mem, isSpace⟩ := List.exists_of_findSome?_eq_some first
    obtain rfl : item = .scope space := by
      cases item with
      | plain stmt => cases isSpace
      | scope other => exact congrArg _ (Option.some.inj isSpace)
    refine Outline.mem_preorderAll (List.mem_map_of_mem item_mem) ?_
    rw [Outline.ofItem, Outline.preorder]
    exact .tail _ (Outline.mem_preorderAll (List.mem_map_of_mem member) here)
  · obtain ⟨item, item_mem, isStmt⟩ := List.mem_filterMap.mp member
    obtain rfl : item = .plain stmt := by
      cases item with
      | plain other => exact congrArg _ (Option.some.inj isStmt)
      | scope space => cases isStmt
    exact Outline.mem_preorderAll (List.mem_map_of_mem item_mem) here

/-- Every candidate was written, so it has a segment. -/
theorem segments_ne_nil_of_candidate {file : SourceFile} {reference : Reference}
    (listed : reference ∈ file.extract.candidates)
    : reference.name.segments ≠ [] := by
  obtain ⟨node, _, here⟩ := List.mem_flatMap.mp listed
  obtain ⟨⟨located, kind⟩, _, found⟩ := List.mem_filterMap.mp here
  dsimp only at found
  split at found
  · cases found
    exact located.named
  · cases found

/-- A segment that no extracted import binds is bound by no item of the import scope. -/
theorem sameFolded_of_not_binds {file : SourceFile} {segment : Text} {declaration : Import}
    {item : ImportItem} (free : file.extract.binds segment = false)
    (listed : declaration ∈ file.imports) (member : item ∈ declaration.classItems)
    : Text.sameFolded item.bound segment = false := by
  obtain ⟨inItems, kind⟩ := List.mem_filter.mp member
  -- the entry of the item is one of the extracted imports of classes
  obtain ⟨entry, extracted, bound, sort⟩ : ∃ entry ∈ file.extract.imports,
      item.bound = entry.bound ∧ declaration.itemKind item = entry.kind :=
    ⟨_, List.mem_flatMap.mpr ⟨_, importing_mem_nodes listed, List.mem_map_of_mem inItems⟩,
      rfl, rfl⟩
  rw [sort] at kind
  rw [Extraction.binds, List.any_eq_false] at free
  rw [bound]
  simpa using free entry (List.mem_filter.mpr ⟨extracted, kind⟩)

end SourceFile

/-- A reference that needs an import is a candidate that no import binds and that is not to
be ignored.
-/
theorem Extraction.mem_references {extraction : Extraction} {ignored : IgnoreSet}
    {reference : Reference}
    : reference ∈ extraction.references ignored
      ↔ reference ∈ extraction.candidates
        ∧ extraction.binds reference.name.first = false
        ∧ reference.name.isReserved = false
        ∧ ignored.contains reference.name = false := by
  simp [Extraction.references, and_assoc]

end ImportHeader
