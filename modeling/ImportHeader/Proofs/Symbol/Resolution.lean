import ImportHeader.Symbol.Resolution
import Mathlib.Data.List.Basic

/-! What a reference resolves to. A resolution is the beginning of an indexed name, up to the
segment with which the reference starts; so it binds that segment, and it has a segment above.
-/

namespace ImportHeader

/-- Dropping repetitions keeps every element. -/
theorem SymbolIndex.mem_withoutRepeats {α : Type} [DecidableEq α] {element : α}
    {items : List α}
    : element ∈ withoutRepeats items ↔ element ∈ items := by
  induction items with
  | nil => rfl
  | cons head rest ih =>
      cases rest with
      | nil => rfl
      | cons next rest =>
          unfold withoutRepeats
          split
          · rename_i same
            rw [ih, same]
            simp
          · rw [List.mem_cons, ih, ← List.mem_cons]

/-- The elements seen first are those that were not seen before. -/
theorem mem_firstSeen {α : Type} [DecidableEq α] {element : α} {seen items : List α}
    : element ∈ firstSeen seen items ↔ element ∈ items ∧ element ∉ seen := by
  induction items generalizing seen with
  | nil => simp [firstSeen]
  | cons head rest ih =>
      unfold firstSeen
      split
      · rename_i known
        rw [ih]
        by_cases same : element = head
        · subst same
          simp [known]
        · simp [same]
      · rename_i new
        rw [List.mem_cons, ih, List.mem_cons]
        by_cases same : element = head
        · subst same
          simp [new]
        · simp [same]

/-- The resolutions of a list of names are those of its members. -/
theorem SymbolIndex.mem_resolveAll {index : SymbolIndex} {names : List Name}
    {reference : Name} {found? : Option Name}
    : ⟨reference, found?⟩ ∈ index.resolveAll names
      ↔ reference ∈ names ∧ found? = index.resolve? reference := by
  simp only [SymbolIndex.resolveAll, List.mem_map, mem_firstSeen, List.not_mem_nil,
    not_false_eq_true, and_true, Resolution.mk.injEq]
  constructor
  · rintro ⟨name, listed, rfl, rfl⟩
    exact ⟨listed, rfl⟩
  · rintro ⟨listed, rfl⟩
    exact ⟨reference, listed, rfl, rfl⟩

/-- A name is the import that makes a reference mean an entry of some namespace: it ends with
the segment with which the reference starts.
-/
def Name.IsImportFor (name reference : Name) : Prop :=
  ∃ space, space ≠ [] ∧ name.segments = space ++ [reference.first]

namespace Name.IsImportFor

variable {name reference : Name}

theorem last_eq (importing : name.IsImportFor reference) : name.last = reference.first := by
  obtain ⟨space, _, segments⟩ := importing
  simp [Name.last, segments]

theorem two_le_length (importing : name.IsImportFor reference) : 2 ≤ name.length := by
  obtain ⟨space, some, segments⟩ := importing
  have pos := List.length_pos_iff.mpr some
  simp only [Name.length, segments, List.length_append, List.length_singleton]
  omega

end Name.IsImportFor

/-- A longer name that ends with a reference has a namespace before it, and up to the start of the
reference it is that namespace and one segment.
-/
theorem Name.exists_space {name reference : Name} (named : reference.segments ≠ [])
    (longer : reference.length < name.length) (ends : reference.segments <:+ name.segments)
    : ∃ space,
        space ≠ []
        ∧ name.segments = space ++ reference.segments
        ∧ name.segments.take (name.length - reference.length + 1)
          = space ++ [reference.first] := by
  obtain ⟨space, whole⟩ := ends
  obtain ⟨first, rest, split⟩ := List.exists_cons_of_ne_nil named
  refine ⟨space, ?_, whole.symm, ?_⟩
  · rintro rfl
    rw [List.nil_append] at whole
    rw [length, length, whole] at longer
    omega
  · have count : name.length - reference.length + 1 = space.length + 1 := by
      simp only [length, ← whole, List.length_append]
      omega
    rw [count, ← whole, split, List.take_length_add_append, Name.first, split, List.headD_cons]
    rfl

/-- An entry that matches a reference gives its beginning, up to the start of the reference. -/
theorem SymbolIndex.isImportFor_of_importFor? {reference name : Name} {entry : SymbolEntry}
    (named : reference.segments ≠ []) (found : importFor? reference entry = some name)
    : name.IsImportFor reference := by
  unfold importFor? at found
  split at found
  · rename_i fits
    rw [Bool.and_eq_true, decide_eq_true_eq] at fits
    obtain ⟨longer, ends⟩ := fits
    obtain ⟨space, above, _, beginning⟩ :=
      Name.exists_space named (by omega) (List.isSuffixOf_iff_suffix.mp ends)
    unfold Name.take? Name.ofSegments? at found
    rw [beginning] at found
    split at found
    · cases found
    · cases found
      exact ⟨space, above, rfl⟩
  · cases found

/-- What a reference resolves to binds its first segment. -/
theorem SymbolIndex.isImportFor_of_resolve? {index : SymbolIndex} {reference name : Name}
    (named : reference.segments ≠ []) (found : index.resolve? reference = some name)
    : name.IsImportFor reference := by
  have listed : name ∈ index.candidates reference := List.mem_of_head? found
  unfold candidates at listed
  rw [mem_withoutRepeats, List.mem_mergeSort] at listed
  obtain ⟨entry, _, fits⟩ := List.mem_filterMap.mp listed
  exact isImportFor_of_importFor? named fits

end ImportHeader
