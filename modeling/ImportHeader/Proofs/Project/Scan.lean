import ImportHeader.Proofs.Project.Reach
import ImportHeader.Proofs.Symbol.History

/-! A search for classes numbers the sources that it reaches. Which directories it was given, how
often, and in which order does not matter beyond that.
-/

namespace ImportHeader

namespace FileTree

variable {tree : FileTree} {root path : Path} {directories others : List Path}
  {index : ProjectIndex}

-----------------------------------------------------------------------------------------
-- Sorted paths
-----------------------------------------------------------------------------------------

/-- A path stands before what is kept of the paths behind it, in place of a further spelling. -/
theorem distinct_cons (path : Path) (rest : List Path)
    : sortedPaths.distinct rest = [] ∧ sortedPaths.distinct (path :: rest) = [path]
      ∨ ∃ next others,
          sortedPaths.distinct rest = next :: others
          ∧ (path.components = next.components
                ∧ sortedPaths.distinct (path :: rest) = path :: others
              ∨ path.components ≠ next.components
                ∧ sortedPaths.distinct (path :: rest) = path :: next :: others) := by
  rw [sortedPaths.distinct]
  cases sortedPaths.distinct rest with
  | nil => exact .inl ⟨rfl, rfl⟩
  | cons next others =>
      refine .inr ⟨next, others, rfl, ?_⟩
      by_cases same : path.components = next.components
      · exact .inl ⟨same, if_pos (beq_iff_eq.mpr same)⟩
      · exact .inr ⟨same, if_neg fun found => same (eq_of_beq found)⟩

theorem subset_distinct {paths : List Path} : sortedPaths.distinct paths ⊆ paths := by
  induction paths with
  | nil => exact List.Subset.refl _
  | cons first rest ih =>
      rcases distinct_cons first rest
        with ⟨_, alone⟩ | ⟨next, others, kept, ⟨_, spelled⟩ | ⟨_, apart⟩⟩
      · rw [alone]
        exact List.cons_subset_cons _ (List.nil_subset _)
      · rw [spelled]
        rw [kept] at ih
        exact List.cons_subset_cons _ (List.Subset.trans (List.subset_cons_self _ _) ih)
      · rw [apart, ← kept]
        exact List.cons_subset_cons _ ih

/-- No path is lost, up to its spelling. -/
theorem exists_mem_distinct {paths : List Path} (listed : path ∈ paths)
    : ∃ kept ∈ sortedPaths.distinct paths, kept.components = path.components := by
  induction paths with
  | nil => cases listed
  | cons first rest ih =>
      rcases distinct_cons first rest
        with ⟨none, alone⟩ | ⟨next, others, found, ⟨same, spelled⟩ | ⟨_, apart⟩⟩
      · rw [none] at ih
        rw [alone]
        rcases List.mem_cons.mp listed with rfl | later
        · exact ⟨path, .head _, rfl⟩
        · obtain ⟨_, ⟨⟩, _⟩ := ih later
      · rw [found] at ih
        rw [spelled]
        rcases List.mem_cons.mp listed with rfl | later
        · exact ⟨path, .head _, rfl⟩
        · obtain ⟨kept, member, same'⟩ := ih later
          -- The first spelling stands in for the next one.
          rcases List.mem_cons.mp member with rfl | further
          · exact ⟨first, .head _, same.trans same'⟩
          · exact ⟨kept, .tail _ further, same'⟩
      · rw [apart, ← found]
        rcases List.mem_cons.mp listed with rfl | later
        · exact ⟨path, .head _, rfl⟩
        · obtain ⟨kept, member, same⟩ := ih later
          exact ⟨kept, .tail _ member, same⟩

/-- Sorted paths without further spellings are in strict order. -/
theorem pairwise_distinct {paths : List Path}
    (ordered : paths.Pairwise fun left right => left.le right = true)
    : (sortedPaths.distinct paths).Pairwise Path.Before := by
  induction paths with
  | nil => exact .nil
  | cons first rest ih =>
      obtain ⟨notAfter, ordered⟩ := List.pairwise_cons.mp ordered
      have later := ih ordered
      have inside := @subset_distinct rest
      rcases distinct_cons first rest
        with ⟨_, alone⟩ | ⟨next, others, kept, ⟨same, spelled⟩ | ⟨other, apart⟩⟩
      · rw [alone]
        exact List.pairwise_singleton _ _
      · rw [kept] at later
        obtain ⟨before, later⟩ := List.pairwise_cons.mp later
        rw [spelled]
        refine List.pairwise_cons.mpr ⟨fun path member => ?_, later⟩
        rw [Path.Before, same]
        exact before path member
      · rw [kept] at later inside
        obtain ⟨before, _⟩ := List.pairwise_cons.mp later
        have leads : first.Before next :=
          ((Path.le_iff first next).mp (notAfter next (inside (.head _)))).resolve_right other
        rw [apart]
        refine List.pairwise_cons.mpr ⟨fun path member => ?_, later⟩
        rcases List.mem_cons.mp member with rfl | further
        · exact leads
        · exact Component.lex_before_trans leads (before path further)

theorem pairwise_sortedPaths (paths : List Path)
    : (sortedPaths paths).Pairwise Path.Before :=
  pairwise_distinct (List.pairwise_mergeSort Path.le_trans Path.le_total paths)

theorem subset_sortedPaths (paths : List Path) : sortedPaths paths ⊆ paths :=
  fun _ member => List.mem_mergeSort.mp (subset_distinct member)

theorem exists_mem_sortedPaths {paths : List Path} (listed : path ∈ paths)
    : ∃ kept ∈ sortedPaths paths, kept.components = path.components :=
  exists_mem_distinct (List.mem_mergeSort.mpr listed)

-----------------------------------------------------------------------------------------
-- Numbers
-----------------------------------------------------------------------------------------

/-- The changes that add files with the given classes, numbered in order. -/
def additions (declared : List (List Name)) : List SymbolIndex.Change :=
  declared.zipIdx.map fun (names, number) => .addFile ⟨number⟩ names

/-- The entries of files with the given classes, numbered in order. -/
def entriesOf (declared : List (List Name)) : List SymbolEntry :=
  declared.zipIdx.flatMap fun (names, number) => names.map fun name => ⟨name, ⟨number⟩⟩

theorem additions_concat (declared : List (List Name)) (names : List Name)
    : additions (declared ++ [names])
      = additions declared ++ [.addFile ⟨declared.length⟩ names] := by
  rw [additions, List.zipIdx_append, List.map_append, Nat.zero_add]
  rfl

theorem entriesOf_concat (declared : List (List Name)) (names : List Name)
    : entriesOf (declared ++ [names])
      = entriesOf declared ++ names.map fun name => ⟨name, ⟨declared.length⟩⟩ := by
  rw [entriesOf, List.zipIdx_append, List.flatMap_append, Nat.zero_add]
  simp [entriesOf]

theorem index_lt_of_mem_entriesOf {declared : List (List Name)} {entry : SymbolEntry}
    (listed : entry ∈ entriesOf declared)
    : entry.file.index < declared.length := by
  obtain ⟨⟨names, number⟩, numbered, listed⟩ := List.mem_flatMap.mp listed
  obtain ⟨name, _, rfl⟩ := List.mem_map.mp listed
  have below := (List.mem_zipIdx numbered).2.1
  rwa [Nat.zero_add] at below

/-- Files that are added in order keep all their entries: none has the number of an earlier one. -/
theorem liveAfter_additions (declared : List (List Name))
    : SymbolIndex.liveAfter (additions declared) = entriesOf declared := by
  induction declared using List.reverseRecOn with
  | nil => rfl
  | append_singleton declared names ih =>
      have kept : (entriesOf declared).filter (fun entry => entry.file != ⟨declared.length⟩)
          = entriesOf declared := by
        refine List.filter_eq_self.mpr fun entry listed => ?_
        have below := index_lt_of_mem_entriesOf listed
        rw [bne_iff_ne]
        intro same
        rw [same] at below
        exact Nat.lt_irrefl _ below
      rw [additions_concat, entriesOf_concat, SymbolIndex.liveAfter, List.foldl_append,
        ← SymbolIndex.liveAfter, ih]
      change (entriesOf declared).filter (fun entry => entry.file != ⟨declared.length⟩) ++ _ = _
      rw [kept]

/-- An index has some files in order, and is what adding them in order makes of the empty index. -/
structure Numbers (tree : FileTree) (index : ProjectIndex) (paths : List Path) : Prop where
  paths_eq : index.files.paths = paths
  symbols_eq
    : index.symbols
      = SymbolIndex.after (additions (paths.map fun path => (tree.declaredIn? path).getD []))

/-- A new file gets the next number. -/
theorem Numbers.setFile {paths : List Path} {names : List Name}
    (numbers : tree.Numbers index paths)
    (new : ∀ known ∈ paths, path.components ≠ known.components)
    (declared : tree.declaredIn? path = some names)
    : tree.Numbers (index.setFile path names) (paths ++ [path]) := by
  have unknown : index.files.fileId? path = none := by
    rw [SourceTable.fileId?, numbers.paths_eq, Option.map_eq_none_iff, List.findIdx?_eq_none_iff]
    exact fun known listed => beq_eq_false_iff_ne.mpr (new known listed)
  have inserted : index.files.insert path = (⟨paths ++ [path]⟩, ⟨paths.length⟩) := by
    rw [SourceTable.insert, unknown, numbers.paths_eq]
  unfold ProjectIndex.setFile
  rw [inserted]
  refine ⟨rfl, ?_⟩
  rw [List.map_append, List.map_singleton, additions_concat, SymbolIndex.after, List.foldl_append,
    ← SymbolIndex.after, ← numbers.symbols_eq, declared, List.length_map]
  rfl

/-- Paths of which no two are the same are numbered in order, without those that cannot be read or
parsed.
-/
theorem Numbers.foldl {known : List Path} (paths : List Path)
    (numbers : tree.Numbers index known)
    (apart : (known ++ paths).Pairwise fun left right => left.components ≠ right.components)
    : tree.Numbers
        (paths.foldl (fun index path => (tree.declaredIn? path).elim index (index.setFile path))
          index)
        (known ++ paths.filter fun path => (tree.declaredIn? path).isSome) := by
  induction paths generalizing index known with
  | nil => simpa using numbers
  | cons path paths ih =>
      rw [List.foldl_cons]
      cases declared : tree.declaredIn? path with
      | none =>
          rw [List.filter_cons_of_neg (by simp [declared])]
          refine ih numbers (apart.sublist ?_)
          exact (List.sublist_cons_self _ _).append_left known
      | some names =>
          rw [List.filter_cons_of_pos (by simp [declared]), List.append_cons]
          have new : ∀ other ∈ known, path.components ≠ other.components := by
            intro other listed
            exact ((List.pairwise_append.mp apart).2.2 other listed path (.head _)).symm
          rw [List.append_cons] at apart
          exact ih (numbers.setFile new declared) apart

-----------------------------------------------------------------------------------------
-- The index of a search
-----------------------------------------------------------------------------------------

/-- The paths that a search finds, in the order of its directories. -/
def found (tree : FileTree) (root : Path) (directories : List Path) : List Path :=
  directories.flatMap fun directory => tree.sourcesIn (root.join directory)

theorem mem_found_iff
    : path ∈ tree.found root directories ↔ tree.Reaches root directories path := by
  simp only [found, Reaches, List.mem_flatMap, mem_sourcesIn_iff]

theorem numbers_scan (tree : FileTree) (root : Path) (directories : List Path)
    : tree.Numbers (tree.scan root directories)
        ((sortedPaths (tree.found root directories)).filter
          fun path => (tree.declaredIn? path).isSome) := by
  have empty : tree.Numbers .empty [] := ⟨rfl, rfl⟩
  refine empty.foldl _ ((pairwise_sortedPaths _).imp fun {left right} before same => ?_)
  rw [Path.Before, same] at before
  exact Component.lex_before_irrefl _ before

/-- Files with declarations parse, and the declarations are those of the parse. -/
theorem exists_files (tree : FileTree) {paths : List Path}
    (declare : ∀ path ∈ paths, (tree.declaredIn? path).isSome = true)
    : ∃ files, List.Forall₂ tree.Parses paths files
        ∧ paths.map (fun path => (tree.declaredIn? path).getD [])
          = files.map SourceFile.declared := by
  induction paths with
  | nil => exact ⟨[], .nil, rfl⟩
  | cons path paths ih =>
      obtain ⟨first, others⟩ := List.forall_mem_cons.mp declare
      obtain ⟨names, declared⟩ := Option.isSome_iff_exists.mp first
      obtain ⟨file, parses, rfl⟩ := declaredIn?_eq_some_iff.mp declared
      obtain ⟨files, parse, declarations⟩ := ih others
      refine ⟨file :: files, .cons parses parse, ?_⟩
      rw [List.map_cons, List.map_cons, declarations, declared]
      rfl

theorem fileId?_of_ordered {table : SourceTable} {number : Nat}
    (ordered : table.paths.Pairwise Path.Before) (here : table.paths[number]? = some path)
    : table.fileId? path = some ⟨number⟩ := by
  obtain ⟨inside, rfl⟩ := List.getElem?_eq_some_iff.mp here
  have first : table.paths.findIdx? (Path.same table.paths[number]) = some number := by
    refine List.findIdx?_eq_some_iff_getElem.mpr ⟨inside, beq_self_eq_true _, ?_⟩
    intro earlier less
    have before := List.pairwise_iff_getElem.mp ordered earlier number (by omega) inside less
    intro same
    rw [Path.Before, ← eq_of_beq same] at before
    exact Component.lex_before_irrefl _ before
  rw [SourceTable.fileId?, first]
  rfl

/-- What an index says of the files that the directories reach. They are in the order of their
paths, each once; a file is left out just if it cannot be read or does not parse; its number is its
place; and the entries are the declarations of one file after the other.
-/
structure Lists (tree : FileTree) (root : Path) (directories : List Path) (index : ProjectIndex)
    : Prop where
  ordered : index.files.paths.Pairwise Path.Before
  mem_iff
    : ∀ steps,
        (∃ path ∈ index.files.paths, path.components = steps)
        ↔ ∃ path file,
            tree.Reaches root directories path ∧ path.components = steps ∧ tree.Parses path file
  numbered
    : ∀ number path,
        index.files.paths[number]? = some path → index.files.fileId? path = some ⟨number⟩
  entries_eq
    : ∃ files,
        List.Forall₂ tree.Parses index.files.paths files
        ∧ index.symbols.entries
          = files.zipIdx.flatMap fun (file, number) =>
              file.declared.map fun name => ⟨name, ⟨number⟩⟩

theorem lists_scan (tree : FileTree) (root : Path) (directories : List Path)
    : tree.Lists root directories (tree.scan root directories) := by
  have numbers := numbers_scan tree root directories
  have reaches {path : Path} (listed : path ∈ sortedPaths (tree.found root directories))
      : tree.Reaches root directories path :=
    mem_found_iff.mp (subset_sortedPaths _ listed)
  have ordered : (tree.scan root directories).files.paths.Pairwise Path.Before := by
    rw [numbers.paths_eq]
    exact (pairwise_sortedPaths _).filter _
  refine ⟨ordered, ?_, ?_, ?_⟩
  · intro steps
    rw [numbers.paths_eq]
    constructor
    · rintro ⟨path, listed, rfl⟩
      obtain ⟨listed, declares⟩ := List.mem_filter.mp listed
      obtain ⟨names, declared⟩ := Option.isSome_iff_exists.mp declares
      obtain ⟨file, parses, _⟩ := declaredIn?_eq_some_iff.mp declared
      exact ⟨path, file, reaches listed, rfl, parses⟩
    · rintro ⟨path, file, reached, rfl, parses⟩
      obtain ⟨kept, listed, same⟩ := exists_mem_sortedPaths (mem_found_iff.mpr reached)
      have declared : tree.declaredIn? kept = some file.declared := by
        rw [declaredIn?_congr same (reaches listed).endsInSource reached.endsInSource]
        exact declaredIn?_eq_some_iff.mpr ⟨file, parses, rfl⟩
      exact ⟨kept, List.mem_filter.mpr ⟨listed, Option.isSome_iff_exists.mpr ⟨_, declared⟩⟩, same⟩
  · exact fun number path here => fileId?_of_ordered ordered here
  · obtain ⟨files, parse, declarations⟩ :=
      exists_files tree fun path listed => (List.mem_filter.mp listed).2
    refine ⟨files, numbers.paths_eq ▸ parse, ?_⟩
    rw [numbers.symbols_eq, declarations, (SymbolIndex.holds_after _).entries_eq,
      liveAfter_additions, entriesOf, List.zipIdx_map, List.flatMap_map]
    rfl

/-- A file that is reached in another spelling is read and parsed all the same. -/
theorem exists_parses_of_reach {steps : List Component}
    (reach
      : (∃ path, tree.Reaches root directories path ∧ path.components = steps)
        → ∃ path, tree.Reaches root others path ∧ path.components = steps)
    (parses
      : ∃ path file,
          tree.Reaches root directories path ∧ path.components = steps ∧ tree.Parses path file)
    : ∃ path file,
        tree.Reaches root others path ∧ path.components = steps ∧ tree.Parses path file := by
  obtain ⟨path, file, reached, rfl, source, read, parsed⟩ := parses
  obtain ⟨path', reached', spelled⟩ := reach ⟨path, reached, rfl⟩
  refine ⟨path', file, reached', spelled, source, ?_, parsed⟩
  rw [readText_congr spelled reached'.endsInSource reached.endsInSource, read]

/-- Of two indexes of the same files each has the files of the other one. -/
theorem Lists.components_eq {index' : ProjectIndex} (lists : tree.Lists root directories index)
    (lists' : tree.Lists root others index') (same : tree.ReachesSame root directories others)
    : index.files.paths.map Path.components = index'.files.paths.map Path.components := by
  refine Component.eq_of_lex_pairwise (List.pairwise_map.mpr lists.ordered)
    (List.pairwise_map.mpr lists'.ordered) fun steps => ?_
  rw [List.mem_map, List.mem_map, lists.mem_iff, lists'.mem_iff]
  exact ⟨exists_parses_of_reach (same steps).mp, exists_parses_of_reach (same steps).mpr⟩

/-- Tables of the same paths give them the same numbers. -/
theorem fileId?_congr {table table' : SourceTable}
    (same : table.paths.map Path.components = table'.paths.map Path.components) (path : Path)
    : table.fileId? path = table'.fileId? path := by
  have search (paths : List Path)
      : paths.findIdx? (Path.same path)
        = (paths.map Path.components).findIdx? (path.components == ·) := by
    rw [List.findIdx?_map]
    rfl
  rw [SourceTable.fileId?, SourceTable.fileId?, search, search, same]

theorem map_declared_congr {paths paths' : List Path}
    (same : paths.map Path.components = paths'.map Path.components)
    (ends : ∀ path ∈ paths, path.EndsInSource) (ends' : ∀ path ∈ paths', path.EndsInSource)
    : paths.map (fun path => (tree.declaredIn? path).getD [])
      = paths'.map fun path => (tree.declaredIn? path).getD [] := by
  induction paths generalizing paths' with
  | nil => rw [List.map_eq_nil_iff.mp same.symm]
  | cons path paths ih =>
      cases paths' with
      | nil => cases same
      | cons path' paths' =>
          obtain ⟨first, rest⟩ := List.cons.inj same
          obtain ⟨here, later⟩ := List.forall_mem_cons.mp ends
          obtain ⟨here', later'⟩ := List.forall_mem_cons.mp ends'
          rw [List.map_cons, List.map_cons, declaredIn?_congr first here here',
            ih rest later later']

/-- A search depends on the files that it reaches and on nothing else. From two lists of directories
that reach the same files it makes the same table, up to the spelling of paths, with the same
numbers, and the same symbols. The table lists the files in order, without those that cannot be read
or parsed, and the entries are their declarations. Directories that are listed in another order,
more than once, or below one another reach the same files.
-/
theorem scan_of_reachesSame (same : tree.ReachesSame root directories others)
    : (tree.scan root directories).files.paths.map Path.components
        = (tree.scan root others).files.paths.map Path.components
      ∧ (∀ path,
          (tree.scan root directories).files.fileId? path
          = (tree.scan root others).files.fileId? path)
      ∧ (tree.scan root directories).symbols = (tree.scan root others).symbols
      ∧ tree.Lists root directories (tree.scan root directories)
      ∧ tree.Lists root others (tree.scan root others)
      ∧ ∀ these those,
          tree.Covers root these those → tree.Covers root those these
          → tree.ReachesSame root these those := by
  have lists := lists_scan tree root directories
  have lists' := lists_scan tree root others
  have paths := lists.components_eq lists' same
  refine ⟨paths, fileId?_congr paths, ?_, lists, lists', fun _ _ => reachesSame_of_covers⟩
  have numbers := numbers_scan tree root directories
  have numbers' := numbers_scan tree root others
  have ends (directories : List Path)
      : ∀ path ∈ (sortedPaths (tree.found root directories)).filter
            fun path => (tree.declaredIn? path).isSome, path.EndsInSource := by
    intro path listed
    have found := subset_sortedPaths _ (List.mem_filter.mp listed).1
    exact (mem_found_iff.mp found).endsInSource
  rw [numbers.paths_eq, numbers'.paths_eq] at paths
  rw [numbers.symbols_eq, numbers'.symbols_eq, map_declared_congr paths (ends _) (ends _)]

/-- A directory that is listed again, and one below it, change nothing. The file that does not parse
is left out, and the one in an excluded directory is not found.
-/
theorem scan_of_reachesSame_below
    : let tree : FileTree := {
        current := []
        files := [
          (["p", "src", "Models", "User.php"], "<?php class User \x7b\x7d".toUTF8),
          (["p", "src", "Broken.php"], "<?php class \x7b".toUTF8),
          (["p", "src", "vendor", "Hidden.php"], "<?php class Hidden \x7b\x7d".toUTF8)]
        directories := [] }
      let directories : List Path := [⟨"src"⟩]
      let others : List Path := [⟨"src/Models"⟩, ⟨"src"⟩, ⟨"src"⟩]
      tree.ReachesSame ⟨"/p"⟩ directories others
        ∧ (tree.scan ⟨"/p"⟩ directories).symbols = (tree.scan ⟨"/p"⟩ others).symbols
        ∧ (tree.scan ⟨"/p"⟩ directories).files.paths = [⟨"/p/src/Models/User.php"⟩]
        ∧ (tree.scan ⟨"/p"⟩ others).files.paths.map Path.components
          = [Path.components ⟨"/p/src/Models/User.php"⟩]
        ∧ (tree.scan ⟨"/p"⟩ others).symbols.entries = [⟨⟨["User"], .unqualified⟩, ⟨0⟩⟩] := by
  intro tree directories others
  have covers : tree.Covers ⟨"/p"⟩ directories others := by
    intro directory listed
    refine ⟨⟨"src"⟩, .head _, ?_⟩
    rcases List.mem_cons.mp listed with rfl | later
    · refine .inr ⟨by rfl, ["Models"], ?_, by decide⟩
      intro name listed
      obtain rfl := List.mem_singleton.mp listed
      exact ⟨⟨by decide, by decide, by decide, by decide⟩, by decide⟩
    · refine .inl ?_
      simpa [others] using later
  have covers' : tree.Covers ⟨"/p"⟩ others directories :=
    fun directory listed => ⟨directory, .tail _ (.tail _ listed), .inl rfl⟩
  have same := reachesSame_of_covers covers covers'
  obtain ⟨paths, _, symbols, _⟩ := scan_of_reachesSame same
  -- The sort is no recursion on the list, so it is evaluated apart from the rest.
  have numbers := numbers_scan tree ⟨"/p"⟩ directories
  have found : tree.found ⟨"/p"⟩ directories
      = [⟨"/p/src/Models/User.php"⟩, ⟨"/p/src/Broken.php"⟩] := by decide +kernel
  have sorted : sortedPaths [⟨"/p/src/Models/User.php"⟩, ⟨"/p/src/Broken.php"⟩]
      = [⟨"/p/src/Broken.php"⟩, ⟨"/p/src/Models/User.php"⟩] := by
    have swaps {path path' : Path} (later : path.le path' = false)
        : [path, path'].mergeSort Path.le = [path', path] := by
      simp [List.mergeSort, later]
    rw [sortedPaths, swaps (by decide +kernel)]
    decide +kernel
  have parsed : [⟨"/p/src/Broken.php"⟩, ⟨"/p/src/Models/User.php"⟩].filter
        (fun path => (tree.declaredIn? path).isSome)
      = [⟨"/p/src/Models/User.php"⟩] := by decide +kernel
  rw [found, sorted, parsed] at numbers
  refine ⟨same, symbols, numbers.paths_eq, ?_, ?_⟩
  · rw [← paths, numbers.paths_eq]
    rfl
  · rw [← symbols, numbers.symbols_eq, (SymbolIndex.holds_after _).entries_eq]
    decide +kernel

end FileTree

end ImportHeader
