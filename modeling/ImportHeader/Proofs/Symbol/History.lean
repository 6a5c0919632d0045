import ImportHeader.Proofs.Symbol.Index
import Mathlib.Algebra.BigOperators.Group.List.Lemmas

/-! The changes that an index can go through. Whatever they are, the index holds what a plain list
of entries would hold, and each of its groups is a part of that list.
-/

namespace ImportHeader

-----------------------------------------------------------------------------------------
-- Slots that are emptied
-----------------------------------------------------------------------------------------

variable {slots : Array (Option SymbolEntry)}

/-- The slots without the entries that fail a test. -/
def keptSlots (slots : Array (Option SymbolEntry)) (test : SymbolEntry → Bool)
    : Array (Option SymbolEntry) :=
  slots.map (Option.filter test)

/-- Empties the slots at the given places, one by one. -/
def emptied (slots : Array (Option SymbolEntry)) (places : List Nat)
    : Array (Option SymbolEntry) :=
  places.foldl (fun slots place => slots.setIfInBounds place none) slots

theorem getD_keptSlots (slots : Array (Option SymbolEntry)) (test : SymbolEntry → Bool)
    (place : Nat)
    : (keptSlots slots test).getD place none = (slots.getD place none).filter test := by
  rw [keptSlots, Array.getD_eq_getD_getElem?, Array.getD_eq_getD_getElem?, Array.getElem?_map]
  cases slots[place]? <;> rfl

theorem getD_setIfInBounds (slots : Array (Option SymbolEntry)) (place here : Nat)
    : (slots.setIfInBounds place none).getD here none
      = if place = here then none else slots.getD here none := by
  rw [Array.getD_eq_getD_getElem?, Array.getD_eq_getD_getElem?, Array.getElem?_setIfInBounds]
  split
  · split <;> rfl
  · rfl

theorem size_emptied (slots : Array (Option SymbolEntry)) (places : List Nat)
    : (emptied slots places).size = slots.size := by
  induction places generalizing slots with
  | nil => rfl
  | cons place places ih => exact (ih _).trans Array.size_setIfInBounds

theorem getD_emptied (slots : Array (Option SymbolEntry)) (places : List Nat) (here : Nat)
    : (emptied slots places).getD here none
      = if here ∈ places then none else slots.getD here none := by
  induction places generalizing slots with
  | nil => rfl
  | cons place places ih =>
      have later := ih (slots.setIfInBounds place none)
      rw [getD_setIfInBounds] at later
      rw [emptied, List.foldl_cons]
      refine later.trans ?_
      by_cases same : place = here
      · simp [same]
      · simp [same, Ne.symm same]

theorem slots_ext {others : Array (Option SymbolEntry)} (size : slots.size = others.size)
    (alike : ∀ place, slots.getD place none = others.getD place none)
    : slots = others := by
  refine Array.ext size fun place inside inside' => ?_
  simpa [Array.getD, inside, inside'] using alike place

/-- Emptying the slots of the entries that pass a test leaves the entries that fail it. -/
theorem emptied_placesOf (slots : Array (Option SymbolEntry)) (test : SymbolEntry → Bool)
    : emptied slots (placesOf slots test) = keptSlots slots fun entry => !test entry := by
  refine slots_ext (by rw [size_emptied, keptSlots, Array.size_map]) fun place => ?_
  rw [getD_emptied, getD_keptSlots]
  simp only [mem_placesOf]
  cases slots.getD place none with
  | none => simp
  | some entry => cases passes : test entry <;> simp [passes, Option.filter]

theorem placesOf_keptSlots (slots : Array (Option SymbolEntry)) (kept test : SymbolEntry → Bool)
    : placesOf (keptSlots slots kept) test
      = placesOf slots fun entry => kept entry && test entry := by
  unfold placesOf
  rw [keptSlots, Array.size_map]
  refine List.filter_congr fun place _ => ?_
  rw [← keptSlots, getD_keptSlots]
  cases slots.getD place none with
  | none => rfl
  | some entry => cases fits : kept entry <;> simp [Option.filter, fits]

theorem placesOf_setIfInBounds (slots : Array (Option SymbolEntry)) (place : Nat)
    (test : SymbolEntry → Bool)
    : placesOf (slots.setIfInBounds place none) test
      = (placesOf slots test).filter fun other => other != place := by
  unfold placesOf
  rw [List.filter_filter, Array.size_setIfInBounds]
  refine List.filter_congr fun here _ => ?_
  rw [getD_setIfInBounds]
  by_cases same : place = here
  · simp [same]
  · simp [same, Ne.symm same]

-----------------------------------------------------------------------------------------
-- Groups without places
-----------------------------------------------------------------------------------------

namespace SymbolPlaces

variable {κ : Type} [BEq κ] [Hashable κ] [LawfulBEq κ] {places : SymbolPlaces κ}
  {key : SymbolEntry → κ}

theorem getD_drop (places : SymbolPlaces κ) (changed wanted : κ) (place : Nat)
    : (places.drop changed place).getD wanted []
      = if changed == wanted then
          (places.getD wanted []).filter fun other => other != place
        else
          places.getD wanted [] := by
  unfold drop
  rw [Std.HashMap.getD_alter]
  split
  · rename_i same
    rw [Std.HashMap.getD_eq_getD_getElem?, eq_of_beq same]
    split
    · rename_i none
      exact none.symm
    · rfl
  · rfl

/-- An emptied slot leaves the group of its key, and a group without slots is gone. -/
theorem IsGrouping.drop (grouping : IsGrouping places key slots) {place : Nat}
    {entry : SymbolEntry} (found : slots.getD place none = some entry)
    : IsGrouping (places.drop (key entry) place) key (slots.setIfInBounds place none) where
  getD_eq wanted := by
    rw [getD_drop, grouping.getD_eq, placesOf_setIfInBounds]
    split
    · rfl
    · rename_i other
      refine (List.filter_eq_self.mpr fun here inside => ?_).symm
      obtain ⟨entry', found', fits⟩ := mem_placesOf.mp inside
      rw [bne_iff_ne]
      rintro rfl
      obtain rfl := Option.some.inj (found.symm.trans found')
      exact other fits
  getD_ne_nil wanted grouped := by
    rw [getD_drop]
    unfold SymbolPlaces.drop at grouped
    rw [Std.HashMap.mem_alter] at grouped
    split at grouped
    · rename_i same
      rw [if_pos same, ← eq_of_beq same, Std.HashMap.getD_eq_getD_getElem?]
      split at grouped
      · cases grouped
      · assumption
    · rename_i other
      rw [if_neg other]
      exact grouping.getD_ne_nil wanted grouped

/-- Without the group of a key, the slots with that key are in no group. -/
theorem IsGrouping.erase (grouping : IsGrouping places key slots) (gone : κ)
    : IsGrouping (places.erase gone) key (keptSlots slots fun entry => !(key entry == gone)) where
  getD_eq wanted := by
    rw [Std.HashMap.getD_erase, grouping.getD_eq, placesOf_keptSlots]
    split
    · rename_i same
      obtain rfl := eq_of_beq same
      simp [placesOf]
    · rename_i other
      congr 1
      funext entry
      cases here : key entry == wanted with
      | false => simp
      | true =>
          have apart : (key entry == gone) = false := by
            rw [eq_of_beq here, beq_eq_false_iff_ne]
            exact fun same => other (beq_iff_eq.mpr same.symm)
          simp [apart]
  getD_ne_nil wanted grouped := by
    obtain ⟨other, grouped⟩ := Std.HashMap.mem_erase.mp grouped
    rw [Std.HashMap.getD_erase, if_neg (by simpa using other)]
    exact grouping.getD_ne_nil wanted grouped

end SymbolPlaces

-----------------------------------------------------------------------------------------
-- Entries that are taken out
-----------------------------------------------------------------------------------------

namespace SymbolIndex

variable {index : SymbolIndex} {entries : List SymbolEntry}

/-- An index groups its slots by name and by last segment. Nothing is said of the groups by file:
while the slots of a file are emptied, its group is gone already.
-/
structure IsNamed (index : SymbolIndex) : Prop where
  byName : index.byName.IsGrouping SymbolEntry.name index.slots
  byLast : index.byLast.IsGrouping (fun entry => entry.name.last) index.slots

theorem slots_vacate (index : SymbolIndex) (place : Nat)
    : (index.vacate place).slots = index.slots.setIfInBounds place none := by
  unfold vacate
  split
  · rename_i vacant
    refine slots_ext Array.size_setIfInBounds.symm fun here => ?_
    rw [getD_setIfInBounds]
    split
    · rename_i same
      rw [← same, vacant]
    · rfl
  · rfl

theorem byFile_vacate (index : SymbolIndex) (place : Nat)
    : (index.vacate place).byFile = index.byFile := by
  unfold vacate
  split <;> rfl

theorem IsNamed.vacate (named : index.IsNamed) (place : Nat) : (index.vacate place).IsNamed := by
  unfold SymbolIndex.vacate
  split
  · exact named
  · rename_i entry found
    exact ⟨named.byName.drop found, named.byLast.drop found⟩

/-- Emptying slots one by one keeps the groups by name and by last segment, and touches no group by
file.
-/
theorem IsNamed.vacate_foldl (named : index.IsNamed) (places : List Nat)
    : (places.foldl SymbolIndex.vacate index).IsNamed
      ∧ (places.foldl SymbolIndex.vacate index).slots = emptied index.slots places
      ∧ (places.foldl SymbolIndex.vacate index).byFile = index.byFile := by
  induction places generalizing index with
  | nil => exact ⟨named, rfl, rfl⟩
  | cons place places ih =>
      obtain ⟨later, slots, byFile⟩ := ih (named.vacate place)
      rw [slots_vacate] at slots
      rw [byFile_vacate] at byFile
      exact ⟨later, slots, byFile⟩

namespace Holds

variable {κ : Type} [BEq κ] [LawfulBEq κ] [Hashable κ] {places : SymbolPlaces κ}
  {key : SymbolEntry → κ}

theorem removeFile (holds : index.Holds entries) (file : FileId)
    : (index.removeFile file).Holds (entries.filter fun entry => entry.file != file) := by
  unfold SymbolIndex.removeFile
  split
  · rename_i none
    have missing : ∀ entry ∈ entries, (entry.file != file) = true := by
      have group := holds.inFile_eq file
      rw [inFile, Std.HashMap.getD_eq_getD_getElem?, none] at group
      simpa using List.filter_eq_nil_iff.mp group.symm
    rwa [List.filter_eq_self.mpr missing]
  · rename_i places some
    have named : IsNamed { index with byFile := index.byFile.erase file } :=
      ⟨holds.byName, holds.byLast⟩
    obtain ⟨grouped, slots, byFile⟩ := named.vacate_foldl places
    have places_eq : places = placesOf index.slots fun entry => entry.file == file := by
      rw [← holds.byFile.getD_eq, Std.HashMap.getD_eq_getD_getElem?, some]
      rfl
    rw [places_eq, emptied_placesOf, ← places_eq] at slots
    refine ⟨?_, grouped.byName, grouped.byLast, ?_⟩
    · rw [SymbolIndex.entries, slots, ← holds.entries_eq, keptSlots, Array.toList_map,
        List.filterMap_map, SymbolIndex.entries, List.filter_filterMap]
      rfl
    · rw [byFile, slots]
      exact holds.byFile.erase file

theorem addFile (holds : index.Holds entries) (file : FileId) (names : List Name)
    : (index.addFile file names).Holds
        ((entries.filter fun entry => entry.file != file)
          ++ names.map fun name => ⟨name, file⟩) := by
  have filled := (holds.removeFile file).insert_foldl (names.map fun name => ⟨name, file⟩)
  rwa [List.foldl_map] at filled

/-- There is a group for each key that some entry has. -/
theorem mem_places_iff (holds : index.Holds entries)
    (grouping : places.IsGrouping key index.slots) (wanted : κ)
    : wanted ∈ places ↔ ∃ entry ∈ entries, key entry = wanted := by
  have filled : wanted ∈ places ↔ places.getD wanted [] ≠ [] := by
    refine ⟨grouping.getD_ne_nil wanted, fun filled => ?_⟩
    by_contra other
    exact filled (Std.HashMap.getD_eq_fallback other)
  have slotted := holds.map_placesOf fun entry => key entry == wanted
  rw [filled, grouping.getD_eq, ← List.map_eq_nil_iff.ne, slotted, Ne, List.map_eq_nil_iff,
    List.filter_eq_nil_iff]
  simp

/-- The keys of the groups are those of the entries. -/
theorem keys_perm [DecidableEq κ] (holds : index.Holds entries)
    (grouping : places.IsGrouping key index.slots)
    : places.keys.Perm (entries.map key).dedup := by
  refine (List.perm_ext_iff_of_nodup Std.HashMap.nodup_keys (List.nodup_dedup _)).mpr ?_
  intro wanted
  rw [Std.HashMap.mem_keys, holds.mem_places_iff grouping, List.mem_dedup, List.mem_map]

/-- A name is known if some entry has it. -/
theorem contains_iff (holds : index.Holds entries) (name : Name)
    : index.contains name = true ↔ ∃ entry ∈ entries, entry.name = name :=
  Std.HashMap.contains_iff_mem.trans (holds.mem_places_iff holds.byName name)

/-- The groups by file have all entries, each once. -/
theorem size_eq (holds : index.Holds entries) : index.size = entries.length := by
  have counts : index.byFile.toList.map (fun group => group.2.length)
      = index.byFile.keys.map fun file => (entries.map SymbolEntry.file).count file := by
    rw [← Std.HashMap.map_fst_toList_eq_keys, List.map_map]
    refine List.map_congr_left fun group listed => ?_
    have found := Std.HashMap.mem_toList_iff_getElem?_eq_some.mp listed
    rw [Function.comp_apply, ← holds.length_getD holds.byFile,
      Std.HashMap.getD_eq_getD_getElem?, found]
    rfl
  rw [size, Std.HashMap.fold_eq_foldl_toList]
  calc index.byFile.toList.foldl (fun count group => count + group.2.length) 0
      = (index.byFile.toList.map fun group => group.2.length).sum := by
        rw [List.sum_eq_foldl, List.foldl_map]
    _ = ((entries.map SymbolEntry.file).dedup.map
          fun file => (entries.map SymbolEntry.file).count file).sum := by
        rw [counts]
        exact ((holds.keys_perm holds.byFile).map _).sum_eq
    _ = entries.length := by
        rw [List.sum_map_count_dedup_eq_length, List.length_map]

theorem fileCount_eq (holds : index.Holds entries)
    : index.fileCount = (entries.map SymbolEntry.file).dedup.length := by
  rw [fileCount, ← Std.HashMap.length_keys, (holds.keys_perm holds.byFile).length_eq]

theorem isEmpty_iff (holds : index.Holds entries) : index.isEmpty = true ↔ entries = [] := by
  have counted := holds.fileCount_eq
  rw [isEmpty, Std.HashMap.isEmpty_eq_size_eq_zero, beq_iff_eq, ← fileCount, counted,
    List.length_eq_zero_iff, List.dedup_eq_nil, List.map_eq_nil_iff]

end Holds

-----------------------------------------------------------------------------------------
-- Changes
-----------------------------------------------------------------------------------------

/-- A change of an index: one entry more, all entries of a file replaced, or all of them gone. -/
inductive Change where
  | insert (entry : SymbolEntry)
  | addFile (file : FileId) (names : List Name)
  | removeFile (file : FileId)
deriving DecidableEq

/-- The index after a change. -/
def change (index : SymbolIndex) : Change → SymbolIndex
  | .insert entry => index.insert entry
  | .addFile file names => index.addFile file names
  | .removeFile file => index.removeFile file

/-- The same change of a plain list of entries. -/
def Change.ofList (entries : List SymbolEntry) : Change → List SymbolEntry
  | .insert entry => entries ++ [entry]
  | .addFile file names =>
      (entries.filter fun entry => entry.file != file) ++ names.map fun name => ⟨name, file⟩
  | .removeFile file => entries.filter fun entry => entry.file != file

/-- The index that the given changes make of the empty one. -/
def after (changes : List Change) : SymbolIndex :=
  changes.foldl change empty

/-- The entries that the given changes leave in a list that was empty. -/
def liveAfter (changes : List Change) : List SymbolEntry :=
  changes.foldl Change.ofList []

theorem Holds.change (holds : index.Holds entries) (change : Change)
    : (index.change change).Holds (change.ofList entries) := by
  cases change with
  | insert entry => exact holds.insert entry
  | addFile file names => exact holds.addFile file names
  | removeFile file => exact holds.removeFile file

/-- After any changes an index holds what they leave in a list. -/
theorem holds_after (changes : List Change) : (after changes).Holds (liveAfter changes) := by
  have all {index : SymbolIndex} {entries : List SymbolEntry} (holds : index.Holds entries)
      : (changes.foldl SymbolIndex.change index).Holds (changes.foldl Change.ofList entries) := by
    induction changes generalizing index entries with
    | nil => exact holds
    | cons first changes ih => exact ih (holds.change first)
  exact all holds_empty

/-- After any changes an index answers as a plain list of entries would: its entries are that list,
every look-up is a part of it in the same order, and the counts are those of the list.
-/
theorem after_refines_list (changes : List Change)
    : (after changes).entries = liveAfter changes
      ∧ (∀ name,
          (after changes).named name
          = (liveAfter changes).filter fun entry => entry.name == name)
      ∧ (∀ segment,
          (after changes).endingIn segment
          = (liveAfter changes).filter fun entry => entry.name.last == segment)
      ∧ (∀ file,
          (after changes).inFile file
          = (liveAfter changes).filter fun entry => entry.file == file)
      ∧ (∀ name,
          (after changes).contains name = true
          ↔ ∃ entry ∈ liveAfter changes, entry.name = name)
      ∧ (after changes).size = (liveAfter changes).length
      ∧ ((after changes).isEmpty = true ↔ liveAfter changes = [])
      ∧ (after changes).fileCount
        = ((liveAfter changes).map SymbolEntry.file).dedup.length := by
  have holds := holds_after changes
  exact ⟨holds.entries_eq, holds.named_eq, holds.endingIn_eq, holds.inFile_eq,
    holds.contains_iff, holds.size_eq, holds.isEmpty_iff, holds.fileCount_eq⟩

end SymbolIndex

end ImportHeader
