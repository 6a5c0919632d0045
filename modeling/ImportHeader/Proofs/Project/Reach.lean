import ImportHeader.Project.Scan
import ImportHeader.Proofs.Project.Paths

/-! What a search of directories reaches. A path to a source leads where its components lead, in
whatever way it is spelled, so directories that overlap reach no source twice.
-/

namespace ImportHeader

-----------------------------------------------------------------------------------------
-- Look-up by components
-----------------------------------------------------------------------------------------

/-- The spelling of the path ends with the extension of a source. -/
def Path.EndsInSource (path : Path) : Prop :=
  ".php".toList <:+ path.text

/-- The last part of such a path is a component, so no slash ends it. -/
theorem Path.EndsInSource.isNone_getLast? {path : Path} (ends : path.EndsInSource)
    : (path.parts.getLast?.bind Prod.snd).isNone = false := by
  obtain ⟨front, text⟩ := ends
  have noSlash : '/' ∉ ".php".toList := by decide
  obtain ⟨kept, last⟩ := Text.getLast?_pieces_append noSlash front
  have found (leads : Bool) : (Path.component? leads (kept ++ ".php".toList)).isNone = false := by
    refine Option.isNone_eq_false_iff.mpr (Option.isSome_iff_ne_none.mpr ?_)
    refine Path.component?_ne_none (by simp) fun dot => ?_
    have lengths := congrArg List.length dot
    simp at lengths
  obtain ⟨first, rest, cut⟩ := Text.exists_pieces_cons '/' path.text
  rw [text, cut] at last
  unfold Path.parts
  rw [cut]
  dsimp only
  cases rest with
  | nil =>
      obtain rfl := Option.some.inj last
      split
      · rename_i absolute
        exact absurd (first_eq_nil_of_isAbsolute absolute cut) (by simp)
      · exact found true
  | cons second rest =>
      rw [List.getLast?_cons_cons] at last
      have later : ((second :: rest).map fun part => (part, Path.component? false part)).getLast?
          = some (kept ++ ".php".toList, Path.component? false (kept ++ ".php".toList)) := by
        rw [List.getLast?_map, last]
        rfl
      rw [List.map_cons] at later ⊢
      split
      · rw [later]
        exact found false
      · rw [List.getLast?_cons_cons, later]
        exact found false

namespace FileTree

variable {tree : FileTree} {root path other directory above : Path} {location names : Location}
  {directories others : List Path}

/-- The directory from which a path is followed. -/
def origin (tree : FileTree) (path : Path) : Location :=
  if path.isAbsolute then [] else tree.current

/-- A path that leads somewhere leads there by its components, whether or not a slash ends it. -/
theorem foldlM_of_locate (located : tree.locate path = .ok location)
    : path.text ≠ [] ∧ path.components.foldlM tree.step (tree.origin path) = .ok location := by
  unfold locate at located
  split at located
  · cases located
  · rename_i some
    refine ⟨by simpa using some, ?_⟩
    dsimp only at located
    change List.foldlM tree.step (tree.origin path) _ = _ at located
    split at located
    · rw [List.foldlM_append] at located
      cases followed : path.components.foldlM tree.step (tree.origin path) with
      | error fault =>
          rw [followed] at located
          cases located
      | ok last =>
          rw [followed] at located
          -- The step to the current directory leads nowhere else.
          change (tree.step last .current >>= fun here => pure here) = _ at located
          unfold step at located
          split at located
          · cases located
          · split at located
            · cases located
            · exact located
    · exact located

theorem locate_congr (same : path.components = other.components) (ends : path.EndsInSource)
    (ends' : other.EndsInSource)
    : tree.locate path = tree.locate other := by
  have absolute : path.isAbsolute = other.isAbsolute := by
    rw [Path.isAbsolute_eq, Path.isAbsolute_eq, same]
  have empty : path.text.isEmpty = other.text.isEmpty := by
    rw [Bool.eq_iff_iff, List.isEmpty_iff, List.isEmpty_iff, ← Path.components_eq_nil_iff,
      ← Path.components_eq_nil_iff, same]
  unfold locate
  simp only [ends.isNone_getLast?, ends'.isNone_getLast?, absolute, empty, same]

theorem readText_congr (same : path.components = other.components) (ends : path.EndsInSource)
    (ends' : other.EndsInSource)
    : tree.readText path = tree.readText other := by
  unfold readText
  rw [locate_congr same ends ends']

/-- What a source declares does not depend on the spelling of its path. -/
theorem declaredIn?_congr (same : path.components = other.components) (ends : path.EndsInSource)
    (ends' : other.EndsInSource)
    : tree.declaredIn? path = tree.declaredIn? other := by
  unfold declaredIn?
  rw [readText_congr same ends ends']

/-- The file at a path can be read and parsed. -/
def Parses (tree : FileTree) (path : Path) (file : SourceFile) : Prop :=
  ∃ source, tree.readText path = .ok source ∧ parse source = .ok file

theorem declaredIn?_eq_some_iff {names : List Name}
    : tree.declaredIn? path = some names
      ↔ ∃ file, tree.Parses path file ∧ file.declared = names := by
  unfold declaredIn? Parses
  cases read : tree.readText path with
  | error fault => simp [Except.toOption]
  | ok source => cases parsed : parse source <;> simp [Except.toOption, parsed]

-----------------------------------------------------------------------------------------
-- What a search reaches
-----------------------------------------------------------------------------------------

/-- The path that spells some names from a directory on. -/
def below (directory : Path) (names : Location) : Path :=
  names.foldl (fun path name => path.join ⟨name⟩) directory

/-- The path leads to a source below a directory, and spells the names from the directory on. The
directories between the two are none that a search leaves out.
-/
def IsSourceBelow (tree : FileTree) (directory path : Path) : Prop :=
  ∃ location between name content,
    tree.locate directory = .ok location ∧ tree.hasDirectory location = true
      ∧ (location ++ (between ++ [name]), content) ∈ tree.files
      ∧ isSource name = true ∧ (∀ passed ∈ between, isExcluded passed = false)
      ∧ path = below directory (between ++ [name])

/-- The path leads to a source below one of the directories, which are taken from a root. -/
def Reaches (tree : FileTree) (root : Path) (directories : List Path) (path : Path) : Prop :=
  ∃ directory ∈ directories, tree.IsSourceBelow (root.join directory) path

/-- Two lists of directories reach the same files: the same paths, up to their spelling. -/
def ReachesSame (tree : FileTree) (root : Path) (directories others : List Path) : Prop :=
  ∀ steps,
    (∃ path, tree.Reaches root directories path ∧ path.components = steps)
    ↔ ∃ path, tree.Reaches root others path ∧ path.components = steps

theorem isDirectory_iff
    : tree.isDirectory path = true
      ↔ ∃ location, tree.locate path = .ok location ∧ tree.hasDirectory location = true := by
  unfold isDirectory
  cases tree.locate path <;> simp

theorem mem_filesBelow_iff
    : names ∈ tree.filesBelow location
      ↔ names ≠ [] ∧ ∃ content, (location ++ names, content) ∈ tree.files := by
  unfold filesBelow
  rw [List.mem_filterMap]
  constructor
  · rintro ⟨⟨file, content⟩, listed, found⟩
    dsimp only at found
    split at found
    · rename_i under
      obtain ⟨isPrefix, other⟩ := Bool.and_eq_true_iff.mp under
      obtain ⟨rest, rfl⟩ := List.isPrefixOf_iff_prefix.mp isPrefix
      rw [List.drop_left] at found
      obtain rfl := Option.some.inj found
      refine ⟨?_, content, listed⟩
      rintro rfl
      simp at other
    · cases found
  · rintro ⟨some, content, listed⟩
    refine ⟨_, listed, ?_⟩
    simp [some]

theorem isFound_iff
    : names ≠ [] ∧ isFound names = true
      ↔ ∃ between name, names = between ++ [name] ∧ isSource name = true
          ∧ ∀ passed ∈ between, isExcluded passed = false := by
  unfold isFound
  constructor
  · rintro ⟨some, found⟩
    obtain ⟨between, name, rfl⟩ := (List.eq_nil_or_concat' names).resolve_left some
    rw [List.getLast?_concat, List.dropLast_concat, Bool.and_eq_true_iff] at found
    exact ⟨between, name, rfl, found.1, by simpa using found.2⟩
  · rintro ⟨between, name, rfl, source, entered⟩
    refine ⟨by simp, ?_⟩
    rw [List.getLast?_concat, List.dropLast_concat, Bool.and_eq_true_iff]
    refine ⟨source, ?_⟩
    simpa using entered

/-- A search finds just the sources below a directory. -/
theorem mem_sourcesIn_iff
    : path ∈ tree.sourcesIn directory ↔ tree.IsSourceBelow directory path := by
  constructor
  · intro member
    unfold sourcesIn at member
    split at member
    · rename_i isDirectory
      obtain ⟨location, located, here⟩ := isDirectory_iff.mp isDirectory
      rw [located] at member
      obtain ⟨names, found, rfl⟩ := List.mem_map.mp member
      obtain ⟨listed, found⟩ := List.mem_filter.mp found
      obtain ⟨some, content, inTree⟩ := mem_filesBelow_iff.mp listed
      obtain ⟨between, name, rfl, source, entered⟩ := isFound_iff.mp ⟨some, found⟩
      exact ⟨location, between, name, content, located, here, inTree, source, entered, rfl⟩
    · cases member
  · rintro ⟨location, between, name, content, located, here, inTree, source, entered, rfl⟩
    obtain ⟨some, found⟩ := isFound_iff.mpr ⟨between, name, rfl, source, entered⟩
    rw [sourcesIn, if_pos (isDirectory_iff.mpr ⟨location, located, here⟩), located]
    refine List.mem_map.mpr ⟨between ++ [name], List.mem_filter.mpr ⟨?_, found⟩, rfl⟩
    exact mem_filesBelow_iff.mpr ⟨some, content, inTree⟩

/-- A path keeps the end of what it is put before. -/
theorem suffix_join (path below : Path) : below.text <:+ (path.join below).text := by
  unfold Path.join
  split
  · exact List.suffix_refl _
  · split
    · exact List.suffix_append _ _
    · exact (List.suffix_cons _ _).trans (List.suffix_append _ _)

theorem IsSourceBelow.endsInSource (reached : tree.IsSourceBelow directory path)
    : path.EndsInSource := by
  obtain ⟨_, between, name, _, _, _, _, source, _, rfl⟩ := reached
  unfold isSource at source
  have ends := List.isSuffixOf_iff_suffix.mp (Bool.and_eq_true_iff.mp source).1
  rw [below, List.foldl_append]
  exact ends.trans (suffix_join _ ⟨name⟩)

theorem Reaches.endsInSource (reached : tree.Reaches root directories path)
    : path.EndsInSource := by
  obtain ⟨_, _, found⟩ := reached
  exact found.endsInSource

/-- What is below two spellings of one directory has the same components. -/
theorem components_below_congr {left right : Path} (same : left.components = right.components)
    (names : Location)
    : (below left names).components = (below right names).components := by
  induction names generalizing left right with
  | nil => exact same
  | cons name names ih => exact ih (Path.components_join_congr same ⟨name⟩)

/-- Names that a path can go through are the components that it adds. -/
theorem components_below (some : directory.text ≠ [])
    (isStep : ∀ name ∈ names, Path.IsStep name)
    : (below directory names).components = directory.components ++ names.map .normal := by
  induction names generalizing directory with
  | nil => exact (List.append_nil _).symm
  | cons name names ih =>
      obtain ⟨first, others⟩ := List.forall_mem_cons.mp isStep
      have joined := Path.components_join_of_isStep first some
      have some' : (directory.join ⟨name⟩).text ≠ [] := by
        rw [Ne, ← Path.components_eq_nil_iff, joined]
        exact List.append_ne_nil_of_right_ne_nil _ (List.cons_ne_nil _ _)
      refine (ih some' others).trans ?_
      rw [joined, List.append_assoc]
      rfl

-----------------------------------------------------------------------------------------
-- Directories that overlap
-----------------------------------------------------------------------------------------

/-- A directory is another one, or lies below it behind names that a search enters. -/
def IsWithin (tree : FileTree) (root directory above : Path) : Prop :=
  directory = above
    ∨ tree.isDirectory (root.join above) = true
      ∧ ∃ names : Location, (∀ name ∈ names, Path.IsStep name ∧ isExcluded name = false)
          ∧ directory.components = above.components ++ names.map .normal

/-- Every one of the other directories is one of the directories or lies below one of them. -/
def Covers (tree : FileTree) (root : Path) (directories others : List Path) : Prop :=
  ∀ directory ∈ others, ∃ above ∈ directories, tree.IsWithin root directory above

/-- Names at the end of a path lead on from where the path leads. -/
theorem eq_append_of_foldlM {last : Location}
    (followed : (names.map Component.normal).foldlM tree.step location = .ok last)
    : last = location ++ names := by
  induction names generalizing location with
  | nil =>
      cases followed
      exact (List.append_nil _).symm
  | cons name names ih =>
      rw [List.map_cons, List.foldlM_cons] at followed
      unfold step at followed
      split at followed
      · cases followed
      · split at followed
        · cases followed
        · rw [ih followed, List.append_assoc]
          rfl

theorem steps_map_normal
    (spelled : directory.components = above.components ++ names.map .normal)
    : directory.steps = above.steps ++ names.map .normal := by
  rw [Path.steps_eq_filter, Path.steps_eq_filter, spelled, List.filter_append]
  congr 1
  refine List.filter_eq_self.mpr fun component member => ?_
  obtain ⟨name, _, rfl⟩ := List.mem_map.mp member
  rfl

theorem isAbsolute_congr
    (spelled : directory.components = above.components ++ names.map .normal)
    : directory.isAbsolute = above.isAbsolute := by
  rw [Path.isAbsolute_eq, Path.isAbsolute_eq, spelled]
  cases above.components with
  | nil => cases names <;> rfl
  | cons _ _ => rfl

/-- The root before both keeps a directory below another one. -/
theorem components_join_of_spelled
    (spelled : directory.components = above.components ++ names.map .normal)
    : (root.join directory).components
      = (root.join above).components ++ names.map .normal := by
  have absolute := isAbsolute_congr spelled
  by_cases none : root.text = []
  · simpa [Path.join, none] using spelled
  · cases relative : above.isAbsolute with
    | true => simpa [Path.join, relative, absolute] using spelled
    | false =>
        rw [relative] at absolute
        rw [Path.components_join absolute none, Path.components_join relative none,
          steps_map_normal spelled, List.append_assoc]

/-- A source below a directory within another one is a source below that one. -/
theorem IsWithin.isSourceBelow (within : tree.IsWithin root directory above)
    (reached : tree.IsSourceBelow (root.join directory) path)
    : ∃ path', tree.IsSourceBelow (root.join above) path' ∧ path'.components = path.components := by
  rcases within with rfl | ⟨isDirectory, names, entered, spelled⟩
  · exact ⟨path, reached, rfl⟩
  obtain ⟨last, between, name, content, located, _, inTree, source, entered', rfl⟩ := reached
  have spelled' : (root.join directory).components = _ := components_join_of_spelled spelled
  obtain ⟨location, led, here⟩ := isDirectory_iff.mp isDirectory
  obtain ⟨some, followed⟩ := foldlM_of_locate led
  have leads : last = location ++ names := by
    have followed' := (foldlM_of_locate located).2
    have origin : tree.origin (root.join directory) = tree.origin (root.join above) := by
      rw [FileTree.origin, FileTree.origin, isAbsolute_congr spelled']
    rw [origin, spelled', List.foldlM_append, followed] at followed'
    exact eq_append_of_foldlM followed'
  subst leads
  refine ⟨below (root.join above) (names ++ between ++ [name]),
    ⟨location, names ++ between, name, content, led, here, ?_, source, ?_, rfl⟩, ?_⟩
  · simpa only [List.append_assoc] using inTree
  · intro passed member
    rcases List.mem_append.mp member with outer | inner
    · exact (entered passed outer).2
    · exact entered' passed inner
  · have joined
        : (below (root.join above) names).components = (root.join directory).components := by
      rw [spelled', components_below some fun name member => (entered name member).1]
    rw [List.append_assoc, below, List.foldl_append]
    exact components_below_congr joined _

theorem Covers.exists_reaches (covers : tree.Covers root directories others)
    (reached : tree.Reaches root others path)
    : ∃ path', tree.Reaches root directories path' ∧ path'.components = path.components := by
  obtain ⟨directory, listed, found⟩ := reached
  obtain ⟨above, listed', within⟩ := covers directory listed
  obtain ⟨path', found', same⟩ := within.isSourceBelow found
  exact ⟨path', ⟨above, listed', found'⟩, same⟩

/-- Lists of directories that cover one another reach the same files. -/
theorem reachesSame_of_covers (covers : tree.Covers root directories others)
    (covers' : tree.Covers root others directories)
    : tree.ReachesSame root directories others := by
  refine fun steps => ⟨?_, ?_⟩
  · rintro ⟨path, reached, rfl⟩
    exact covers'.exists_reaches reached
  · rintro ⟨path, reached, rfl⟩
    exact covers.exists_reaches reached

end FileTree

end ImportHeader
