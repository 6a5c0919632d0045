import ImportHeader.Proofs.Name
import ImportHeader.Proofs.Symbol.History
import ImportHeader.Proofs.Symbol.Resolution
import Mathlib.Data.List.Induction

/-! What a reference can be resolved to. The candidates are said without the index: an entry gives
one if it ends with the reference. They are found in a strict order, so the first one is the least,
and it hangs on the segments of the entries alone.
-/

namespace ImportHeader

/-- Several segments at the beginning of a proper name are a qualified name. -/
theorem Name.IsProper.take?_eq {name : Name} {count : Nat} (proper : name.IsProper)
    (several : 2 ≤ count) (within : count ≤ name.length)
    : name.take? count = some ⟨name.segments.take count, .qualified⟩ := by
  have length : (name.segments.take count).length = count := by
    rw [List.length_take]
    exact Nat.min_eq_left within
  have full : (name.segments.take count).any List.isEmpty = false := by
    rw [List.any_eq_false]
    intro segment listed empty
    exact (proper.2 segment (List.mem_of_mem_take listed)).1 (List.isEmpty_iff.mp empty)
  have some : (name.segments.take count).isEmpty = false := by
    rw [List.isEmpty_eq_false_iff, ← List.length_pos_iff]
    omega
  rw [take?, ofSegments?, full, some, plainForm, length, if_neg (by simp), if_pos (by omega)]

namespace SymbolIndex

variable {index : SymbolIndex} {entries : List SymbolEntry} {reference name : Name}
  {entry : SymbolEntry}

/-- A name is the import that makes a reference mean an entry: the entry has more segments and ends
with those of the reference, and the name is the entry up to the first of these.
-/
def IsCandidate (entries : List SymbolEntry) (reference name : Name) : Prop :=
  ∃ entry ∈ entries,
    reference.length < entry.name.length
    ∧ reference.segments <:+ entry.name.segments
    ∧ name
      = ⟨entry.name.segments.take (entry.name.length - reference.length + 1), .qualified⟩

theorem importFor?_eq_some_iff (named : reference.segments ≠ []) (proper : entry.name.IsProper)
    : importFor? reference entry = some name
      ↔ reference.length < entry.name.length
        ∧ reference.segments <:+ entry.name.segments
        ∧ name
          = ⟨entry.name.segments.take (entry.name.length - reference.length + 1), .qualified⟩ := by
  have pos : 0 < reference.length := List.length_pos_iff.mpr named
  have fits_iff : (decide (reference.length < entry.name.length)
        && reference.segments.isSuffixOf entry.name.segments) = true
      ↔ reference.length < entry.name.length ∧ reference.segments <:+ entry.name.segments := by
    rw [Bool.and_eq_true, decide_eq_true_iff, List.isSuffixOf_iff_suffix]
  rw [importFor?, Nat.max_eq_left pos, Name.endsWith, ← and_assoc, ← fits_iff]
  split
  · rename_i fits
    obtain ⟨longer, _⟩ := fits_iff.mp fits
    rw [proper.take?_eq (by omega) (by omega), Option.some.injEq]
    exact ⟨fun same => ⟨fits, same.symm⟩, fun same => same.2.symm⟩
  · rename_i misses
    simp [misses]

theorem last_eq_of_suffix (named : reference.segments ≠ [])
    (ends : reference.segments <:+ entry.name.segments)
    : entry.name.last = reference.last := by
  obtain ⟨space, whole⟩ := ends
  rw [Name.last, Name.last, ← whole, List.getLastD_eq_getLast?, List.getLastD_eq_getLast?,
    List.getLast?_append_of_ne_nil _ named]

/-- What is found for a reference are its candidates. -/
theorem Holds.mem_candidates_iff (holds : index.Holds entries)
    (proper : ∀ entry ∈ entries, entry.name.IsProper) (named : reference.segments ≠ [])
    : name ∈ index.candidates reference ↔ IsCandidate entries reference name := by
  unfold candidates
  rw [mem_withoutRepeats, List.mem_mergeSort, List.mem_filterMap, holds.endingIn_eq]
  constructor
  · rintro ⟨entry, inside, found⟩
    have listed := (List.mem_filter.mp inside).1
    exact ⟨entry, listed, (importFor?_eq_some_iff named (proper entry listed)).mp found⟩
  · rintro ⟨entry, listed, fits⟩
    refine ⟨entry, List.mem_filter.mpr ⟨listed, ?_⟩,
      (importFor?_eq_some_iff named (proper entry listed)).mpr fits⟩
    exact beq_iff_eq.mpr (last_eq_of_suffix named fits.2.1)

/-- A candidate and the rest of the reference are an entry. -/
theorem IsCandidate.exists_entry (candidate : IsCandidate entries reference name)
    (named : reference.segments ≠ [])
    : name.IsImportFor reference
      ∧ ∃ entry ∈ entries, entry.name.segments = name.segments ++ reference.segments.tail := by
  obtain ⟨entry, listed, longer, ends, rfl⟩ := candidate
  obtain ⟨space, above, whole, beginning⟩ := Name.exists_space named longer ends
  obtain ⟨first, rest, cut⟩ := List.exists_cons_of_ne_nil named
  refine ⟨⟨space, above, beginning⟩, entry, listed, ?_⟩
  rw [beginning, whole, Name.first, cut, List.append_assoc]
  rfl

theorem IsCandidate.isProper (candidate : IsCandidate entries reference name)
    (proper : ∀ entry ∈ entries, entry.name.IsProper)
    : name.IsProper := by
  obtain ⟨entry, listed, longer, ends, rfl⟩ := candidate
  obtain ⟨some, each⟩ := proper entry listed
  refine ⟨fun none => ?_, fun segment inside => each segment (List.mem_of_mem_take inside)⟩
  rw [List.take_eq_nil_iff] at none
  exact none.elim (Nat.succ_ne_zero _) some

/-- Candidates with the same place in the order are the same. -/
theorem IsCandidate.eq_of_sortKey {other : Name}
    (candidate : IsCandidate entries reference name)
    (candidate' : IsCandidate entries reference other)
    (proper : ∀ entry ∈ entries, entry.name.IsProper) (same : name.sortKey = other.sortKey)
    : name = other := by
  have segments : name.segments = other.segments :=
    (candidate.isProper proper).segments_eq (candidate'.isProper proper)
      (congrArg SortKey.text same)
  obtain ⟨_, _, _, _, rfl⟩ := candidate
  obtain ⟨_, _, _, _, rfl⟩ := candidate'
  rw [Name.mk.injEq]
  exact ⟨segments, rfl⟩

/-- In an ordered list the repetitions of an element are next to it. -/
theorem pairwise_withoutRepeats {α : Type} [DecidableEq α] {le : α → α → Prop} {items : List α}
    (ordered : items.Pairwise le)
    (antisymm : ∀ left ∈ items, ∀ right ∈ items, le left right → le right left → left = right)
    : (withoutRepeats items).Pairwise fun left right => le left right ∧ left ≠ right := by
  induction items with
  | nil => exact .nil
  | cons head rest ih =>
      obtain ⟨first, later⟩ := List.pairwise_cons.mp ordered
      have ih' := ih later fun left here right there =>
        antisymm left (.tail _ here) right (.tail _ there)
      cases rest with
      | nil => exact List.pairwise_singleton _ _
      | cons next rest =>
          unfold withoutRepeats
          split
          · exact ih'
          · rename_i apart
            refine List.pairwise_cons.mpr ⟨fun other listed => ?_, ih'⟩
            rw [mem_withoutRepeats] at listed
            refine ⟨first other listed, ?_⟩
            rintro rfl
            rcases List.mem_cons.mp listed with same | behind
            · exact apart same
            · exact apart (antisymm _ (.head _) next (.tail _ (.head _)) (first next (.head _))
                ((List.pairwise_cons.mp later).1 _ behind))

/-- The candidates are found in a strict order. -/
theorem Holds.pairwise_candidates (holds : index.Holds entries)
    (proper : ∀ entry ∈ entries, entry.name.IsProper) (named : reference.segments ≠ [])
    : (index.candidates reference).Pairwise Name.Precedes := by
  have candidate {name : Name} (listed : name ∈ index.candidates reference)
      : IsCandidate entries reference name :=
    (holds.mem_candidates_iff proper named).mp listed
  have strict : (index.candidates reference).Pairwise fun left right =>
      left.sortKey.le right.sortKey = true ∧ left ≠ right := by
    unfold candidates at candidate ⊢
    refine pairwise_withoutRepeats (SortKey.pairwise_mergeSort Name.sortKey _) ?_
    intro left here right there first second
    exact (candidate (mem_withoutRepeats.mpr here)).eq_of_sortKey
      (candidate (mem_withoutRepeats.mpr there)) proper (SortKey.le_antisymm first second)
  refine strict.imp_of_mem fun {left right} here there ordered => ?_
  refine (Name.le_sortKey_iff.mp ordered.1).resolve_right fun same => ordered.2 ?_
  exact (candidate here).eq_of_sortKey (candidate there) proper same

/-- A reference is resolved to its least candidate. -/
theorem Holds.resolve?_eq_some_iff (holds : index.Holds entries)
    (proper : ∀ entry ∈ entries, entry.name.IsProper) (named : reference.segments ≠ [])
    : index.resolve? reference = some name
      ↔ IsCandidate entries reference name
        ∧ ∀ other, IsCandidate entries reference other → other = name ∨ name.Precedes other := by
  have ordered := holds.pairwise_candidates proper named
  simp only [resolve?, ← holds.mem_candidates_iff proper named]
  generalize index.candidates reference = found at ordered
  constructor
  · intro first
    obtain ⟨rest, rfl⟩ := List.head?_eq_some_iff.mp first
    refine ⟨.head _, fun other listed => ?_⟩
    exact (List.mem_cons.mp listed).imp_right ((List.pairwise_cons.mp ordered).1 other)
  · rintro ⟨listed, least⟩
    obtain ⟨first, rest, rfl⟩ := List.exists_cons_of_ne_nil (List.ne_nil_of_mem listed)
    rw [List.head?_cons, Option.some.injEq]
    rcases least first (.head _) with same | early
    · exact same
    · rcases List.mem_cons.mp listed with same | behind
      · exact same.symm
      · exact absurd early ((List.pairwise_cons.mp ordered).1 name behind).asymm

theorem Holds.resolve?_eq_none_iff (holds : index.Holds entries)
    (proper : ∀ entry ∈ entries, entry.name.IsProper) (named : reference.segments ≠ [])
    : index.resolve? reference = none ↔ ∀ name, ¬IsCandidate entries reference name := by
  simp only [resolve?, List.head?_eq_none_iff, List.eq_nil_iff_forall_not_mem,
    holds.mem_candidates_iff proper named]

/-- What can be imported hangs on the segments of the entries. -/
theorem IsCandidate.of_segments {others : List SymbolEntry}
    (same : ∀ entry ∈ entries, ∃ other ∈ others, other.name.segments = entry.name.segments)
    (candidate : IsCandidate entries reference name)
    : IsCandidate others reference name := by
  obtain ⟨entry, listed, longer, ends, rfl⟩ := candidate
  obtain ⟨other, inside, segments⟩ := same entry listed
  have length : other.name.length = entry.name.length := congrArg List.length segments
  exact ⟨other, inside, by rwa [length], by rwa [segments], by rw [length, segments]⟩

/-- The elements that are seen first are the library's list without repetitions. -/
theorem firstSeen_eq_eraseDups {α : Type} [DecidableEq α] (seen items : List α)
    : firstSeen seen items = (items.filter fun item => item ∉ seen).eraseDups := by
  induction items generalizing seen with
  | nil => rfl
  | cons head rest ih =>
      unfold firstSeen
      split
      · rename_i known
        rw [ih, List.filter_cons_of_neg (by simpa using known)]
      · rename_i new
        rw [ih, List.filter_cons_of_pos (by simpa using new), List.eraseDups_cons,
          List.filter_filter]
        congr 3
        funext item
        by_cases same : item = head <;> simp [same]

/-- Each reference is resolved once, where it is seen first. -/
theorem resolveAll_eq (index : SymbolIndex) (references : List Name)
    : index.resolveAll references
      = references.eraseDups.map fun reference => ⟨reference, index.resolve? reference⟩ := by
  rw [resolveAll, firstSeen_eq_eraseDups]
  simp

theorem isCandidate_congr {others : List SymbolEntry}
    (same
      : ∀ segments,
          segments ∈ entries.map (fun entry => entry.name.segments)
          ↔ segments ∈ others.map fun entry => entry.name.segments)
    : IsCandidate entries reference name ↔ IsCandidate others reference name :=
  ⟨.of_segments fun _ listed => List.mem_map.mp ((same _).mp (List.mem_map_of_mem listed)),
    .of_segments fun _ listed => List.mem_map.mp ((same _).mpr (List.mem_map_of_mem listed))⟩

/-- Indexes with the same segments resolve all references alike. -/
theorem Holds.resolveAll_congr {index' : SymbolIndex} {others : List SymbolEntry}
    (holds : index.Holds entries) (holds' : index'.Holds others)
    (proper : ∀ entry ∈ entries, entry.name.IsProper)
    (proper' : ∀ entry ∈ others, entry.name.IsProper)
    (same
      : ∀ segments,
          segments ∈ entries.map (fun entry => entry.name.segments)
          ↔ segments ∈ others.map fun entry => entry.name.segments)
    {references : List Name} (named : ∀ reference ∈ references, reference.segments ≠ [])
    : index.resolveAll references = index'.resolveAll references := by
  rw [resolveAll_eq, resolveAll_eq]
  refine List.map_congr_left fun reference listed => ?_
  have named' := named reference (List.mem_eraseDups.mp listed)
  rw [Resolution.mk.injEq]
  refine ⟨rfl, Option.ext fun name => ?_⟩
  rw [holds.resolve?_eq_some_iff proper named', holds'.resolve?_eq_some_iff proper' named']
  simp only [isCandidate_congr same]

/-- The names that a change brings. -/
def Change.names : Change → List Name
  | .insert entry => [entry.name]
  | .addFile _ names => names
  | .removeFile _ => []

/-- Every entry was brought by some change. -/
theorem exists_change_of_mem_liveAfter {changes : List Change} (live : entry ∈ liveAfter changes)
    : ∃ change ∈ changes, entry.name ∈ change.names := by
  unfold liveAfter at live
  induction changes using List.reverseRecOn generalizing entry with
  | nil => cases live
  | append_singleton changes last ih =>
      have earlier (before : entry ∈ changes.foldl Change.ofList [])
          : ∃ change ∈ changes ++ [last], entry.name ∈ change.names := by
        obtain ⟨change, listed, named⟩ := ih before
        exact ⟨change, List.mem_append_left _ listed, named⟩
      have latest (named : entry.name ∈ last.names)
          : ∃ change ∈ changes ++ [last], entry.name ∈ change.names :=
        ⟨last, by simp, named⟩
      rw [List.foldl_append, List.foldl_cons, List.foldl_nil] at live
      cases last with
      | insert new =>
          rcases List.mem_append.mp live with before | here
          · exact earlier before
          · exact latest (List.mem_singleton.mp here ▸ List.mem_singleton_self _)
      | addFile file names =>
          rcases List.mem_append.mp live with before | here
          · exact earlier (List.mem_filter.mp before).1
          · obtain ⟨name, listed, rfl⟩ := List.mem_map.mp here
            exact latest listed
      | removeFile file => exact earlier (List.mem_filter.mp live).1

/-- A history in which every name was read from a text. -/
def AreRead (changes : List Change) : Prop :=
  ∀ change ∈ changes, ∀ name ∈ change.names, name.IsRead

theorem AreRead.isProper {changes : List Change} (read : AreRead changes)
    : ∀ entry ∈ liveAfter changes, entry.name.IsProper := by
  intro entry live
  obtain ⟨change, listed, named⟩ := exists_change_of_mem_liveAfter live
  exact (read change listed entry.name named).isProper

/-- After any changes with names that were read, the candidates of a reference are found in a
strict order and are those that the entries give, and the reference is resolved to the least of
them. So histories that leave the same segments resolve all references alike, each once and where
it is seen first.
-/
theorem after_resolves {changes : List Change} (read : AreRead changes)
    : (∀ reference : Name,
        reference.IsRead
        → ((after changes).candidates reference).Pairwise Name.Precedes
          ∧ (∀ name,
              name ∈ (after changes).candidates reference
              ↔ IsCandidate (after changes).entries reference name)
          ∧ (∀ name ∈ (after changes).candidates reference,
              2 ≤ name.length
              ∧ name.last = reference.first
              ∧ ∃ entry ∈ (after changes).entries,
                  entry.name.segments = name.segments ++ reference.segments.tail)
          ∧ (∀ name,
              (after changes).resolve? reference = some name
              ↔ IsCandidate (after changes).entries reference name
                ∧ ∀ other,
                    IsCandidate (after changes).entries reference other
                    → other = name ∨ name.Precedes other)
          ∧ ((after changes).resolve? reference = none
              ↔ ∀ name, ¬IsCandidate (after changes).entries reference name))
      ∧ ∀ others : List Change,
          AreRead others
          → (∀ segments,
              segments ∈ (after changes).entries.map (fun entry => entry.name.segments)
              ↔ segments ∈ (after others).entries.map fun entry => entry.name.segments)
          → ∀ references : List Name,
              (∀ reference ∈ references, reference.IsRead)
              → (after changes).resolveAll references = (after others).resolveAll references
                ∧ ((after changes).resolveAll references).map Resolution.reference
                  = references.eraseDups := by
  have holds := holds_after changes
  have proper := read.isProper
  rw [holds.entries_eq]
  refine ⟨fun reference spelled => ?_, fun others read' same references spelled => ?_⟩
  · have named := spelled.isProper.1
    refine ⟨holds.pairwise_candidates proper named,
      fun name => holds.mem_candidates_iff proper named, fun name listed => ?_,
      fun name => holds.resolve?_eq_some_iff proper named,
      holds.resolve?_eq_none_iff proper named⟩
    have candidate := (holds.mem_candidates_iff proper named).mp listed
    obtain ⟨importing, found⟩ := candidate.exists_entry named
    exact ⟨importing.two_le_length, importing.last_eq, found⟩
  · have holds' := holds_after others
    rw [holds'.entries_eq] at same
    refine ⟨holds.resolveAll_congr holds' proper read'.isProper same fun reference listed =>
      (spelled reference listed).isProper.1, ?_⟩
    rw [resolveAll_eq, List.map_map]
    exact List.map_id _

/-- A history with an entry that is gone and one with another written form resolve a reference
alike.
-/
theorem after_resolves_of_two_histories
    : ∃ (changes others : List Change) (reference name : Name),
        changes
          = [.addFile ⟨0⟩ [⟨["App".toList, "Foo".toList], .qualified⟩],
              .insert ⟨⟨["Lib".toList, "Foo".toList], .qualified⟩, ⟨1⟩⟩, .removeFile ⟨0⟩]
        ∧ others = [.insert ⟨⟨["Lib".toList, "Foo".toList], .fullyQualified⟩, ⟨2⟩⟩]
        ∧ reference = ⟨["Foo".toList], .unqualified⟩
        ∧ name = ⟨["Lib".toList, "Foo".toList], .qualified⟩
        ∧ (after changes).resolve? reference = some name
        ∧ (after changes).resolveAll [reference, reference]
          = (after others).resolveAll [reference, reference]
        ∧ ((after changes).resolveAll [reference, reference]).map Resolution.reference
          = [reference] := by
  let changes : List Change :=
    [.addFile ⟨0⟩ [⟨["App".toList, "Foo".toList], .qualified⟩],
      .insert ⟨⟨["Lib".toList, "Foo".toList], .qualified⟩, ⟨1⟩⟩, .removeFile ⟨0⟩]
  let others : List Change :=
    [.insert ⟨⟨["Lib".toList, "Foo".toList], .fullyQualified⟩, ⟨2⟩⟩]
  have app : Name.IsRead ⟨["App".toList, "Foo".toList], .qualified⟩ :=
    ⟨"App\\Foo".toList, by decide⟩
  have lib : Name.IsRead ⟨["Lib".toList, "Foo".toList], .qualified⟩ :=
    ⟨"Lib\\Foo".toList, by decide⟩
  have rooted : Name.IsRead ⟨["Lib".toList, "Foo".toList], .fullyQualified⟩ :=
    ⟨"\\Lib\\Foo".toList, by decide⟩
  have spelled : Name.IsRead ⟨["Foo".toList], .unqualified⟩ := ⟨"Foo".toList, by decide⟩
  have read : AreRead changes := by
    simp only [AreRead, changes, List.forall_mem_cons, Change.names]
    exact ⟨⟨app, nofun⟩, ⟨lib, nofun⟩, nofun, nofun⟩
  have read' : AreRead others := by
    simp only [AreRead, others, List.forall_mem_cons, Change.names]
    exact ⟨⟨rooted, nofun⟩, nofun⟩
  have left : (after changes).entries = [⟨⟨["Lib".toList, "Foo".toList], .qualified⟩, ⟨1⟩⟩] :=
    (holds_after changes).entries_eq
  have left' : (after others).entries
      = [⟨⟨["Lib".toList, "Foo".toList], .fullyQualified⟩, ⟨2⟩⟩] :=
    (holds_after others).entries_eq
  obtain ⟨single, alike⟩ := after_resolves read
  obtain ⟨_, _, _, least, _⟩ := single _ spelled
  obtain ⟨same, keys⟩ := alike others read' (by rw [left, left']; exact fun _ => Iff.rfl)
    [⟨["Foo".toList], .unqualified⟩, ⟨["Foo".toList], .unqualified⟩] (by simpa using spelled)
  refine ⟨changes, others, _, _, rfl, rfl, rfl, rfl, (least _).mpr ⟨?_, ?_⟩, same, keys⟩
  · rw [left]
    exact ⟨_, .head _, by decide, by decide, rfl⟩
  · rw [left]
    rintro other ⟨entry, listed, _, _, rfl⟩
    obtain rfl := List.mem_singleton.mp listed
    exact .inl rfl

end SymbolIndex

end ImportHeader
