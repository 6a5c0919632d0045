import ImportHeader.Symbol.Index
import Std.Data.HashMap.Lemmas

/-! The places of an index. A group of places is said by the slots alone: it lists those with its
key, in order. What is found through it is then a part of the entries, and this holds of every index
that was filled with entries.
-/

namespace ImportHeader

-----------------------------------------------------------------------------------------
-- Places of slots
-----------------------------------------------------------------------------------------

/-- The places of the slots with an entry that passes a test. -/
def placesOf (slots : Array (Option SymbolEntry)) (test : SymbolEntry → Bool) : List Nat :=
  (List.range slots.size).filter fun place => (slots.getD place none).any test

variable {slots : Array (Option SymbolEntry)} {test : SymbolEntry → Bool}

theorem mem_placesOf {place : Nat}
    : place ∈ placesOf slots test
      ↔ ∃ entry, slots.getD place none = some entry ∧ test entry = true := by
  unfold placesOf
  rw [List.mem_filter, List.mem_range, Option.any_eq_true]
  constructor
  · rintro ⟨_, entry, found⟩
    exact ⟨entry, found⟩
  · rintro ⟨entry, found, passes⟩
    refine ⟨Nat.lt_of_not_le fun outside => ?_, entry, found, passes⟩
    rw [Array.getD_eq_getD_getElem?, Array.getElem?_eq_none outside] at found
    cases found

/-- The slots at the places of a test are the entries that pass it. -/
theorem map_getD_placesOf (slots : Array (Option SymbolEntry)) (test : SymbolEntry → Bool)
    : (placesOf slots test).map (fun place => slots.getD place none)
      = ((slots.toList.filterMap id).filter test).map some := by
  have all : (List.range slots.size).map (fun place => slots.getD place none) = slots.toList := by
    refine List.ext_getElem (by simp) fun place _ inside => ?_
    have inside' : place < slots.size := by simpa using inside
    simp [Array.getD, inside']
  have passing (items : List (Option SymbolEntry))
      : items.filter (Option.any test) = ((items.filterMap id).filter test).map some := by
    induction items with
    | nil => rfl
    | cons item items ih =>
        cases item with
        | none => simpa using ih
        | some entry => cases passes : test entry <;> simp [passes, ih]
  rw [← passing, ← all, List.filter_map]
  rfl

theorem placesOf_push (slots : Array (Option SymbolEntry)) (entry : SymbolEntry)
    (test : SymbolEntry → Bool)
    : placesOf (slots.push (some entry)) test
      = placesOf slots test ++ if test entry then [slots.size] else [] := by
  have kept : (List.range slots.size).filter
        (fun place => ((slots.push (some entry)).getD place none).any test)
      = placesOf slots test := by
    refine List.filter_congr fun place inside => ?_
    rw [List.mem_range] at inside
    simp [Array.getD_eq_getD_getElem?, Array.getElem?_push_lt, inside]
  have last : (slots.push (some entry)).getD slots.size none = some entry := by
    simp [Array.getD]
  rw [placesOf, Array.size_push, List.range_succ, List.filter_append, kept, List.filter_cons, last]
  rfl

-----------------------------------------------------------------------------------------
-- Groups of places
-----------------------------------------------------------------------------------------

namespace SymbolPlaces

variable {κ : Type} [BEq κ] [Hashable κ] {places : SymbolPlaces κ} {key : SymbolEntry → κ}

/-- Places group some slots by a key: the group of a key has the slots with that key, and no group
is empty.
-/
structure IsGrouping (places : SymbolPlaces κ) (key : SymbolEntry → κ)
    (slots : Array (Option SymbolEntry))
    : Prop where
  getD_eq : ∀ wanted, places.getD wanted [] = placesOf slots fun entry => key entry == wanted
  getD_ne_nil : ∀ wanted ∈ places, places.getD wanted [] ≠ []

theorem isGrouping_empty (key : SymbolEntry → κ) : IsGrouping ∅ key #[] where
  getD_eq _ := Std.HashMap.getD_empty
  getD_ne_nil _ grouped := absurd grouped Std.HashMap.not_mem_empty

variable [LawfulBEq κ]

/-- A place goes to the end of its own group, and to no other. -/
theorem getD_push (places : SymbolPlaces κ) (changed wanted : κ) (place : Nat)
    : (places.push changed place).getD wanted []
      = places.getD wanted [] ++ if changed == wanted then [place] else [] := by
  unfold push
  rw [Std.HashMap.getD_alter]
  split
  · rename_i same
    rw [Std.HashMap.getD_eq_getD_getElem?, eq_of_beq same]
    rfl
  · rw [List.append_nil]

/-- A new slot goes to the group of its key. -/
theorem IsGrouping.push (grouping : IsGrouping places key slots) (entry : SymbolEntry)
    : IsGrouping (places.push (key entry) slots.size) key (slots.push (some entry)) where
  getD_eq wanted := by rw [getD_push, grouping.getD_eq, placesOf_push]
  getD_ne_nil wanted grouped := by
    rw [getD_push]
    split
    · simp
    · rename_i other
      unfold SymbolPlaces.push at grouped
      rw [Std.HashMap.mem_alter, if_neg other] at grouped
      simpa using grouping.getD_ne_nil wanted grouped

end SymbolPlaces

-----------------------------------------------------------------------------------------
-- What an index holds
-----------------------------------------------------------------------------------------

namespace SymbolIndex

variable {index : SymbolIndex} {entries : List SymbolEntry}

/-- An index holds the entries of a list, and each of its groupings is one of its slots. -/
structure Holds (index : SymbolIndex) (entries : List SymbolEntry) : Prop where
  entries_eq : index.entries = entries
  byName : index.byName.IsGrouping SymbolEntry.name index.slots
  byLast : index.byLast.IsGrouping (fun entry => entry.name.last) index.slots
  byFile : index.byFile.IsGrouping SymbolEntry.file index.slots

theorem holds_empty : empty.Holds [] :=
  ⟨rfl, SymbolPlaces.isGrouping_empty _, SymbolPlaces.isGrouping_empty _,
    SymbolPlaces.isGrouping_empty _⟩

namespace Holds

variable {κ : Type} [BEq κ] [Hashable κ] {places : SymbolPlaces κ} {key : SymbolEntry → κ}

theorem insert (holds : index.Holds entries) (entry : SymbolEntry)
    : (index.insert entry).Holds (entries ++ [entry]) where
  entries_eq := by
    rw [← holds.entries_eq, SymbolIndex.entries, SymbolIndex.insert, Array.toList_push,
      List.filterMap_append]
    rfl
  byName := holds.byName.push entry
  byLast := holds.byLast.push entry
  byFile := holds.byFile.push entry

/-- The slots that pass a test hold the entries of the list that pass it. -/
theorem map_placesOf (holds : index.Holds entries) (test : SymbolEntry → Bool)
    : (placesOf index.slots test).map (fun place => index.slots.getD place none)
      = (entries.filter test).map some := by
  rw [map_getD_placesOf, ← holds.entries_eq]
  rfl

/-- What is found at the places of a group is a part of the list. -/
theorem collect_getD (holds : index.Holds entries)
    (grouping : places.IsGrouping key index.slots) (wanted : κ)
    : index.collect (places.getD wanted []) = entries.filter fun entry => key entry == wanted := by
  have slotted := congrArg (List.filterMap id)
    (holds.map_placesOf fun entry => key entry == wanted)
  rw [List.filterMap_map, List.filterMap_map] at slotted
  rw [grouping.getD_eq]
  exact slotted.trans List.filterMap_some

/-- A group has as many places as there are entries with its key. -/
theorem length_getD (holds : index.Holds entries)
    (grouping : places.IsGrouping key index.slots) (wanted : κ)
    : (places.getD wanted []).length = (entries.map key).count wanted := by
  have slotted := congrArg List.length (holds.map_placesOf fun entry => key entry == wanted)
  rw [List.length_map, List.length_map] at slotted
  rw [grouping.getD_eq, slotted, ← List.countP_eq_length_filter, List.count, List.countP_map]
  rfl

theorem named_eq (holds : index.Holds entries) (name : Name)
    : index.named name = entries.filter fun entry => entry.name == name :=
  holds.collect_getD holds.byName name

theorem endingIn_eq (holds : index.Holds entries) (segment : Text)
    : index.endingIn segment = entries.filter fun entry => entry.name.last == segment :=
  holds.collect_getD holds.byLast segment

theorem inFile_eq (holds : index.Holds entries) (file : FileId)
    : index.inFile file = entries.filter fun entry => entry.file == file :=
  holds.collect_getD holds.byFile file

/-- Filling an index adds the entries in order. -/
theorem insert_foldl (holds : index.Holds entries) (more : List SymbolEntry)
    : (more.foldl SymbolIndex.insert index).Holds (entries ++ more) := by
  induction more generalizing index entries with
  | nil => simpa using holds
  | cons entry more ih =>
      have later := ih (holds.insert entry)
      rw [List.append_assoc] at later
      exact later

end Holds

theorem holds_ofEntries (entries : List SymbolEntry) : (ofEntries entries).Holds entries :=
  holds_empty.insert_foldl entries

end SymbolIndex

end ImportHeader
