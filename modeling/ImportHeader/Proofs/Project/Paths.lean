import ImportHeader.Project.Path
import ImportHeader.Proofs.Name
import Mathlib.Data.List.Sort

/-! What a path means: its components, those of a path below another one, and the order of paths.
All of it depends on the components, apart from a slash that ends a path.
-/

namespace ImportHeader

namespace Path

variable {path left right below : Path}

-----------------------------------------------------------------------------------------
-- Components
-----------------------------------------------------------------------------------------

/-- What a path is said to start with: the root, the current directory, or nothing of these. -/
def leading (path : Path) : List Component :=
  if path.isAbsolute then [.root]
  else if (Text.pieces '/' path.text).head? = some ['.'] then [.current]
  else []

/-- The steps of a path, without what it starts with. -/
def steps (path : Path) : List Component :=
  (Text.pieces '/' path.text).filterMap (component? false)

theorem component?_true (part : Text)
    : (component? true part).toList
      = (if part = ['.'] then [Component.current] else []) ++ (component? false part).toList := by
  unfold component?
  split
  · rename_i empty
    rw [List.isEmpty_iff.mp empty]
    rfl
  · split
    · rename_i dot
      rw [if_pos (eq_of_beq dot)]
      rfl
    · rename_i other
      rw [if_neg fun same => other (beq_iff_eq.mpr same)]
      rfl

/-- Nothing stands before the slash of the root. -/
theorem first_eq_nil_of_isAbsolute {first : Text} {rest : List Text} (absolute : path.isAbsolute)
    (cut : Text.pieces '/' path.text = first :: rest)
    : first = [] := by
  obtain ⟨behind, text⟩ := List.head?_eq_some_iff.mp (eq_of_beq absolute)
  rw [text, Text.pieces_cons, if_pos rfl] at cut
  exact (List.cons.inj cut).1.symm

theorem components_eq (path : Path) : path.components = path.leading ++ path.steps := by
  obtain ⟨first, rest, cut⟩ := Text.exists_pieces_cons '/' path.text
  have others : (rest.map fun part => (part, component? false part)).filterMap Prod.snd
      = rest.filterMap (component? false) := by
    rw [List.filterMap_map]
    rfl
  unfold components leading steps parts
  rw [cut]
  dsimp only
  split
  · rename_i absolute
    rw [others, first_eq_nil_of_isAbsolute absolute cut]
    rfl
  · rw [List.filterMap_cons, others, List.filterMap_cons, List.head?_cons]
    have start := component?_true first
    simp only [Option.some.injEq]
    cases found : component? true first with
    | none =>
        rw [found] at start
        have start := List.append_eq_nil_iff.mp start.symm
        rw [start.1, Option.toList_eq_nil_iff.mp start.2]
        rfl
    | some component =>
        rw [found] at start
        dsimp only
        change [component] ++ _ = _
        rw [Option.toList_some] at start
        rw [start]
        cases component? false first <;> simp

/-- No step is the root or the current directory. -/
theorem ne_of_mem_steps {component : Component} (member : component ∈ path.steps)
    : component ≠ .root ∧ component ≠ .current := by
  obtain ⟨part, _, found⟩ := List.mem_filterMap.mp member
  unfold component? at found
  split at found
  · cases found
  · split at found
    · cases found
    · split at found
      · cases found
        exact ⟨nofun, nofun⟩
      · cases found
        exact ⟨nofun, nofun⟩

theorem steps_eq_filter (path : Path)
    : path.steps
      = path.components.filter fun component => component != .root && component != .current := by
  have kept : path.steps.filter (fun component => component != .root && component != .current)
      = path.steps := by
    refine List.filter_eq_self.mpr fun component member => ?_
    obtain ⟨notRoot, notCurrent⟩ := ne_of_mem_steps member
    simp [notRoot, notCurrent]
  rw [components_eq, List.filter_append, kept]
  unfold leading
  split
  · rfl
  · split <;> rfl

/-- A path is absolute if its first component is the root. -/
theorem isAbsolute_eq (path : Path)
    : path.isAbsolute = (path.components.head? == some .root) := by
  rw [components_eq]
  unfold leading
  split
  · rename_i absolute
    rw [absolute]
    rfl
  · rename_i relative
    rw [Bool.eq_false_iff.mpr relative]
    split
    · rfl
    · rw [List.nil_append]
      refine (beq_eq_false_iff_ne.mpr fun root => ?_).symm
      exact (ne_of_mem_steps (List.mem_of_mem_head? root)).1 rfl

/-- A part that is no dot and not empty is a step. -/
theorem component?_ne_none {leads : Bool} {part : Text} (some : part ≠ []) (noDot : part ≠ ['.'])
    : component? leads part ≠ none := by
  unfold component?
  rw [if_neg (by simpa using some), if_neg (by simpa using noDot)]
  split <;> nofun

/-- Only the empty path has no components. -/
theorem components_eq_nil_iff : path.components = [] ↔ path.text = [] := by
  obtain ⟨text⟩ := path
  constructor
  · intro none
    rw [components_eq, List.append_eq_nil_iff] at none
    obtain ⟨noStart, noSteps⟩ := none
    cases text with
    | nil => rfl
    | cons c rest =>
        exfalso
        unfold leading isAbsolute at noStart
        have notSlash : c ≠ '/' := by
          rintro rfl
          cases noStart
        obtain ⟨first, others, cut⟩ := Text.exists_pieces_cons '/' rest
        have cut' : Text.pieces '/' (c :: rest) = (c :: first) :: others := by
          rw [Text.pieces_cons, if_neg notSlash, cut]
          rfl
        have noDot : c :: first ≠ ['.'] := by
          intro dot
          simp [cut', dot, notSlash] at noStart
        unfold steps at noSteps
        rw [cut', List.filterMap_eq_nil_iff] at noSteps
        exact component?_ne_none (List.cons_ne_nil c first) noDot (noSteps _ (.head _))
  · rintro rfl
    rfl

-----------------------------------------------------------------------------------------
-- Paths below others
-----------------------------------------------------------------------------------------

theorem steps_append (front back : Text)
    : (Path.mk (front ++ '/' :: back)).steps = (Path.mk front).steps ++ (Path.mk back).steps := by
  unfold steps
  rw [Text.pieces_append, List.filterMap_append]

/-- What a path starts with is decided before its first slash. -/
theorem leading_append (front back : Text)
    : (Path.mk (front ++ '/' :: back)).leading
      = if front = [] then [.root] else (Path.mk front).leading := by
  cases front with
  | nil => rfl
  | cons c front =>
      rw [if_neg nofun]
      unfold leading
      rw [Text.pieces_append]
      obtain ⟨first, others, cut⟩ := Text.exists_pieces_cons '/' (c :: front)
      rw [cut]
      rfl

/-- A relative path adds its steps to the components of the path before it. -/
theorem components_join (relative : below.isAbsolute = false) (some : path.text ≠ [])
    : (path.join below).components = path.components ++ below.steps := by
  unfold join
  rw [relative, List.isEmpty_eq_false_iff.mpr some]
  simp only [Bool.or_self, Bool.false_eq_true, if_false]
  obtain ⟨text⟩ := path
  split
  · rename_i ends
    -- The slash that ends the path is the one between the two.
    obtain ⟨front, rfl⟩ := List.getLast?_eq_some_iff.mp ends
    rw [List.append_assoc, List.singleton_append, components_eq, components_eq, leading_append,
      leading_append, steps_append, steps_append front []]
    simp [steps, Text.pieces, Text.splitBy, component?]
  · rw [components_eq, components_eq, leading_append, if_neg some, steps_append,
      List.append_assoc]

/-- A path below two spellings of one path is one path. -/
theorem components_join_congr (same : left.components = right.components) (below : Path)
    : (left.join below).components = (right.join below).components := by
  have empty : left.text = [] ↔ right.text = [] := by
    rw [← components_eq_nil_iff, ← components_eq_nil_iff, same]
  cases relative : below.isAbsolute with
  | true => simp [join, relative]
  | false =>
      by_cases none : left.text = []
      · simp [join, none, empty.mp none]
      · rw [components_join relative none, components_join relative (mt empty.mpr none), same]

/-- A directory name that a path can go through by its own spelling. -/
def IsStep (name : Text) : Prop :=
  name ≠ [] ∧ '/' ∉ name ∧ name ≠ ['.'] ∧ name ≠ ['.', '.']

theorem steps_of_isStep {name : Text} (isStep : IsStep name)
    : (Path.mk name).steps = [.normal name] := by
  obtain ⟨some, noSlash, noDot, noDots⟩ := isStep
  unfold steps
  rw [Text.pieces_eq_splitOn, List.splitOn_eq_singleton noSlash]
  simp [component?, some, noDot, noDots]

theorem components_join_of_isStep {name : Text} (isStep : IsStep name) (some : path.text ≠ [])
    : (path.join ⟨name⟩).components = path.components ++ [.normal name] := by
  rw [components_join _ some, steps_of_isStep isStep]
  cases name with
  | nil => rfl
  | cons c name =>
      refine beq_eq_false_iff_ne.mpr fun slash => isStep.2.1 ?_
      rw [← Option.some.inj slash]
      exact .head _

-----------------------------------------------------------------------------------------
-- The order of paths
-----------------------------------------------------------------------------------------

end Path

/-- The order of components: the root, the current directory, the parent, and the names in their
own order.
-/
inductive Component.Before : Component → Component → Prop
  | rootCurrent : Before .root .current
  | rootParent : Before .root .parent
  | rootNormal (name : Text) : Before .root (.normal name)
  | currentParent : Before .current .parent
  | currentNormal (name : Text) : Before .current (.normal name)
  | parentNormal (name : Text) : Before .parent (.normal name)
  | normal {left right : Text} (before : left < right)
    : Before (.normal left) (.normal right)

/-- Paths are ordered by their first components that differ; what one path lacks comes first. -/
def Path.Before (left right : Path) : Prop :=
  List.Lex Component.Before left.components right.components

/-- Lists are compared member by member. -/
theorem compareLex_eq_lt_iff {α : Type} {cmp : α → α → Ordering} {before : α → α → Prop}
    (lt : ∀ left right, cmp left right = .lt ↔ before left right)
    (eq : ∀ left right, cmp left right = .eq ↔ left = right) (left right : List α)
    : List.compareLex cmp left right = .lt ↔ List.Lex before left right := by
  induction left generalizing right with
  | nil =>
      cases right with
      | nil => exact ⟨nofun, nofun⟩
      | cons _ _ => exact ⟨fun _ => .nil, fun _ => rfl⟩
  | cons first left ih =>
      cases right with
      | nil => exact ⟨nofun, nofun⟩
      | cons second right =>
          rw [List.compareLex_cons_cons, Ordering.then_eq_lt, lt, eq, ih]
          constructor
          · rintro (before | ⟨rfl, later⟩)
            · exact .rel before
            · exact .cons later
          · rintro (_ | before | later)
            · exact .inl before
            · exact .inr ⟨rfl, later⟩

namespace Component

theorem compare_sortKey_normal (left right : Text)
    : compare (normal left).sortKey (normal right).sortKey = compare left right := by
  rw [List.compare_eq_compareLex, sortKey, sortKey, List.compareLex_cons_cons]
  rfl

theorem compare_sortKey_eq_lt_iff (left right : Component)
    : compare left.sortKey right.sortKey = .lt ↔ left.Before right := by
  constructor
  · intro less
    cases left with
    | root =>
        cases right with
        | root => cases less
        | current => exact .rootCurrent
        | parent => exact .rootParent
        | normal name => exact .rootNormal name
    | current =>
        cases right with
        | root => cases less
        | current => cases less
        | parent => exact .currentParent
        | normal name => exact .currentNormal name
    | parent =>
        cases right with
        | root => cases less
        | current => cases less
        | parent => cases less
        | normal name => exact .parentNormal name
    | normal name =>
        cases right with
        | root => cases less
        | current => cases less
        | parent => cases less
        | normal other =>
            rw [compare_sortKey_normal, Text.compare_eq_lt] at less
            exact .normal less
  · intro before
    cases before with
    | normal before => rw [compare_sortKey_normal, Text.compare_eq_lt]; exact before
    | _ => rfl

theorem sortKey_injective (left right : Component) (same : left.sortKey = right.sortKey)
    : left = right := by
  cases left <;> cases right <;> simp_all [sortKey]

theorem compare_sortKey_eq_iff (left right : Component)
    : compare left.sortKey right.sortKey = .eq ↔ left = right :=
  Std.compare_eq_iff_eq.trans ⟨sortKey_injective left right, congrArg _⟩

theorem compare_sortKeys (steps others : List Component)
    : compare (steps.map sortKey) (others.map sortKey)
      = List.compareLex (fun left right : Component => compare left.sortKey right.sortKey)
          steps others := by
  rw [List.compare_eq_compareLex]
  induction steps generalizing others with
  | nil => cases others <;> rfl
  | cons first steps ih =>
      cases others with
      | nil => rfl
      | cons second others =>
          simp only [List.map_cons, List.compareLex_cons_cons, ih]

/-- The order of lists of components is the one that paths are sorted by. -/
theorem lex_before_iff (steps others : List Component)
    : List.Lex Before steps others ↔ compare (steps.map sortKey) (others.map sortKey) = .lt := by
  rw [compare_sortKeys]
  exact (compareLex_eq_lt_iff compare_sortKey_eq_lt_iff compare_sortKey_eq_iff _ _).symm

theorem compare_sortKeys_eq_iff (steps others : List Component)
    : compare (steps.map sortKey) (others.map sortKey) = .eq ↔ steps = others :=
  Std.compare_eq_iff_eq.trans
    (List.map_injective_iff.mpr fun _ _ => sortKey_injective _ _).eq_iff

theorem lex_before_trans {first second third : List Component}
    (before : List.Lex Before first second) (later : List.Lex Before second third)
    : List.Lex Before first third := by
  rw [lex_before_iff] at *
  exact Std.TransCmp.lt_trans before later

theorem lex_before_irrefl (steps : List Component) : ¬List.Lex Before steps steps := by
  intro before
  rw [lex_before_iff, (compare_sortKeys_eq_iff steps steps).mpr rfl] at before
  cases before

/-- Lists in strict order that hold the same are the same. -/
theorem eq_of_lex_pairwise {lists others : List (List Component)}
    (ordered : lists.Pairwise (List.Lex Before)) (ordered' : others.Pairwise (List.Lex Before))
    (same : ∀ steps, steps ∈ lists ↔ steps ∈ others)
    : lists = others := by
  have irrefl : Std.Irrefl (List.Lex Before) := ⟨lex_before_irrefl⟩
  have antisymm : Std.Antisymm (List.Lex Before) :=
    ⟨fun first _ before after => (lex_before_irrefl first (lex_before_trans before after)).elim⟩
  exact ordered.eq_of_mem_iff ordered' same

end Component

namespace Path

/-- A path that sorts to the front of another one is before it, or spells the same path. -/
theorem le_iff (left right : Path)
    : left.le right = true ↔ left.Before right ∨ left.components = right.components := by
  rw [le, Ordering.isLE_iff_eq_lt_or_eq_eq, Component.compare_sortKeys_eq_iff,
    ← Component.lex_before_iff]
  rfl

theorem le_trans (left path right : Path) (first : left.le path = true)
    (second : path.le right = true)
    : left.le right = true :=
  Std.TransCmp.isLE_trans first second

theorem le_total (left right : Path) : (left.le right || right.le left) = true := by
  have swapped : compare (right.components.map Component.sortKey)
        (left.components.map Component.sortKey)
      = (compare (left.components.map Component.sortKey)
          (right.components.map Component.sortKey)).swap :=
    Std.OrientedOrd.eq_swap
  unfold le
  rw [swapped]
  cases compare (left.components.map Component.sortKey)
    (right.components.map Component.sortKey) <;> rfl

end Path

end ImportHeader
