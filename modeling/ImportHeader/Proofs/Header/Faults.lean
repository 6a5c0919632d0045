import ImportHeader.Proofs.Header.Calls
import ImportHeader.Proofs.Parser.Partition
import ImportHeader.Proofs.Text.Bytes

/-! The check of the header against what a header is. The check compares neighbours in lists that
it cuts out of the file; an ordered header is stated by the places of the items in the file, and so
is each fault with the statement that is blamed for it. Of several faults the check reports the
first: a second namespace, then a late one, then a stray import.
-/

namespace ImportHeader

/-- A statement at a place of a list is an import. -/
def ImportAt (stmts : List Stmt) (place : Nat) : Prop :=
  ∃ stmt ∈ stmts[place]?, stmt.isImport = true

/-- An import at a place behind another one, with something else between the two. -/
def IsStray (stmts : List Stmt) (place : Nat) : Prop :=
  ImportAt stmts place
    ∧ ∃ first gap, first < gap ∧ gap < place ∧ ImportAt stmts first ∧ ¬ImportAt stmts gap

namespace SourceFile

/-- A namespace stands at a place of the top level. -/
def SpaceAt (file : SourceFile) (place : Nat) (space : Namespace) : Prop :=
  file.items[place]? = some (.scope space)

/-- A `declare` directive stands at a place of the top level. -/
def DeclareAt (file : SourceFile) (place : Nat) : Prop :=
  ∃ stmt, file.items[place]? = some (.plain stmt) ∧ stmt.isDeclare = true

/-- At most one namespace. -/
def HasOneNamespace (file : SourceFile) : Prop :=
  ∀ place place' space space',
    file.SpaceAt place space → file.SpaceAt place' space' → place = place'

/-- Nothing but directives before a namespace. -/
def LeadsWithNamespace (file : SourceFile) : Prop :=
  ∀ place space, file.SpaceAt place space → ∀ before < place, file.DeclareAt before

/-- A header that can be edited: its imports stand at an interval of places. -/
structure HasOrderedHeader (file : SourceFile) : Prop where
  single : file.HasOneNamespace
  leads : file.LeadsWithNamespace
  joined : ∃ start stop, ∀ place,
    ImportAt file.importScope place ↔ start ≤ place ∧ place < stop

/-- What is wrong with a header, and the bytes of the statement that is blamed. -/
inductive IsAtFault (file : SourceFile) : StructureFault → Option Span → Prop
  /-- The second namespace of the file. -/
  | second {first place : Nat} {space space' : Namespace}
      (before : file.SpaceAt first space) (less : first < place) (here : file.SpaceAt place space')
      (alone : ∀ between < place, ∀ other, file.SpaceAt between other → between = first)
    : IsAtFault file .multipleNamespaces (some space'.span)
  /-- The only namespace, behind something that is no directive. -/
  | late {place before : Nat} {space : Namespace}
      (single : file.HasOneNamespace) (here : file.SpaceAt place space) (less : before < place)
      (other : ¬file.DeclareAt before)
    : IsAtFault file .namespaceNotFirst (some space.span)
  /-- The first import that is apart from those before it. -/
  | stray {place : Nat} {stmt : Stmt}
      (single : file.HasOneNamespace) (leads : file.LeadsWithNamespace)
      (here : file.importScope[place]? = some stmt) (isStray : IsStray file.importScope place)
      (first : ∀ before < place, ¬IsStray file.importScope before)
    : IsAtFault file .nonContiguousImports stmt.span?

end SourceFile

-----------------------------------------------------------------------------------------
-- Stray imports
-----------------------------------------------------------------------------------------

section Stray

variable {stmts front block back : List Stmt} {stmt : Stmt} {place : Nat}

theorem not_importAt_iff : (∀ place, ¬ImportAt stmts place) ↔ NoImport stmts := by
  constructor
  · intro none stmt listed
    obtain ⟨place, here⟩ := List.getElem?_of_mem listed
    exact Bool.eq_false_iff.mpr fun isImport => none place ⟨stmt, here, isImport⟩
  · rintro none place ⟨stmt, here, isImport⟩
    rw [none stmt (List.mem_of_getElem? here)] at isImport
    cases isImport

/-- The imports behind a beginning are those of the rest. -/
theorem importAt_append (later : Nat)
    : ImportAt (front ++ back) (front.length + later) ↔ ImportAt back later := by
  unfold ImportAt
  rw [List.getElem?_append_right (Nat.le_add_right _ _), Nat.add_sub_cancel_left]

theorem importAt_append_left (less : place < front.length)
    : ImportAt (front ++ back) place ↔ ImportAt front place := by
  unfold ImportAt
  rw [List.getElem?_append_left less]

/-- The statements up to the first run of imports, the run, and those behind it. -/
structure CutsRun (stmts front block back : List Stmt) : Prop where
  whole : stmts = front ++ (block ++ back)
  plain : NoImport front
  imports : ∀ stmt ∈ block, stmt.isImport = true
  apart : ∀ stmt ∈ back.head?, stmt.isImport = false ∧ block ≠ []

/-- What a test lets pass no further does not pass it. -/
theorem not_passes_of_head? {test : Stmt → Bool}
    (leads : (stmts.dropWhile test).head? = some stmt)
    : test stmt = false := by
  have stops := List.head?_dropWhile_not test stmts
  rw [leads] at stops
  simpa using stops

/-- The check searches the statements behind the first run. -/
theorem exists_cutsRun (stmts : List Stmt)
    : ∃ front block back, CutsRun stmts front block back
        ∧ SourceFile.strayImport? stmts = back.find? Stmt.isImport := by
  let later := stmts.dropWhile fun stmt => !stmt.isImport
  refine ⟨stmts.takeWhile fun stmt => !stmt.isImport, later.takeWhile Stmt.isImport,
    later.dropWhile Stmt.isImport, ⟨?_, ?_, ?_, ?_⟩, rfl⟩
  · rw [List.takeWhile_append_dropWhile, List.takeWhile_append_dropWhile]
  · intro stmt listed
    simpa using List.mem_takeWhile_imp listed
  · intro stmt listed
    exact List.mem_takeWhile_imp listed
  · intro stmt leads
    refine ⟨not_passes_of_head? leads, fun empty => ?_⟩
    -- A first run without an import would leave nothing to search.
    cases starts : later with
    | nil =>
        rw [starts] at leads
        cases leads
    | cons head rest =>
        have isImport : (!head.isImport) = false :=
          not_passes_of_head? (congrArg List.head? starts)
        rw [starts, List.takeWhile_cons_of_pos (by simpa using isImport)] at empty
        cases empty

namespace CutsRun

/-- The stray imports are those behind the first run. -/
theorem isStray_iff (cuts : CutsRun stmts front block back)
    : IsStray stmts place
      ↔ ∃ later, place = front.length + (block.length + later) ∧ ImportAt back later := by
  obtain ⟨rfl, plain, imports, apart⟩ := cuts
  have runs {place : Nat} (lower : front.length ≤ place)
      (upper : place < front.length + block.length)
      : ImportAt (front ++ (block ++ back)) place := by
    obtain ⟨inner, rfl⟩ := Nat.exists_eq_add_of_le lower
    have less : inner < block.length := by omega
    rw [importAt_append, importAt_append_left less]
    exact ⟨block[inner], List.getElem?_eq_getElem less, imports _ (List.getElem_mem less)⟩
  have starts {place : Nat} (isImport : ImportAt (front ++ (block ++ back)) place)
      : front.length ≤ place := by
    refine Nat.le_of_not_lt fun less => ?_
    exact not_importAt_iff.mpr plain place ((importAt_append_left less).mp isImport)
  constructor
  · rintro ⟨isImport, first, gap, less, less', isFirst, isGap⟩
    have beyond : front.length + block.length ≤ gap := by
      refine Nat.le_of_not_lt fun inside => isGap (runs ?_ inside)
      exact Nat.le_trans (starts isFirst) (Nat.le_of_lt less)
    obtain ⟨later, rfl⟩ := Nat.exists_eq_add_of_le (Nat.le_trans beyond (Nat.le_of_lt less'))
    refine ⟨later, Nat.add_assoc _ _ _, ?_⟩
    rwa [Nat.add_assoc, importAt_append, importAt_append] at isImport
  · rintro ⟨later, rfl, isImport⟩
    refine ⟨by rwa [importAt_append, importAt_append], ?_⟩
    cases back with
    | nil =>
        obtain ⟨_, here, _⟩ := isImport
        cases here
    | cons head rest =>
        obtain ⟨other, some⟩ := apart head rfl
        have length := List.length_pos_of_ne_nil some
        have gap : ¬ImportAt (head :: rest) 0 := by
          rintro ⟨stmt, here, isImport⟩
          obtain rfl : head = stmt := Option.some.inj here
          rw [other] at isImport
          cases isImport
        have positive : later ≠ 0 := by
          rintro rfl
          exact gap isImport
        refine ⟨front.length, front.length + (block.length + 0), by omega, by omega,
          runs (Nat.le_refl _) (by omega), ?_⟩
        rwa [importAt_append, importAt_append]

/-- Without an import behind it, the first run has the places of all imports. -/
theorem importAt_iff (cuts : CutsRun stmts front block back) (plain' : NoImport back)
    : ImportAt stmts place ↔ front.length ≤ place ∧ place < front.length + block.length := by
  obtain ⟨rfl, plain, imports, _⟩ := cuts
  rcases Nat.lt_or_ge place front.length with less | le
  · rw [importAt_append_left less]
    refine iff_of_false (not_importAt_iff.mpr plain place) (by omega)
  · obtain ⟨inner, rfl⟩ := Nat.exists_eq_add_of_le le
    rw [importAt_append]
    rcases Nat.lt_or_ge inner block.length with less | le
    · rw [importAt_append_left less]
      refine iff_of_true ?_ (by omega)
      exact ⟨block[inner], List.getElem?_eq_getElem less, imports _ (List.getElem_mem less)⟩
    · obtain ⟨later, rfl⟩ := Nat.exists_eq_add_of_le le
      rw [importAt_append]
      exact iff_of_false (not_importAt_iff.mpr plain' later) (by omega)

end CutsRun

/-- Imports stand at an interval of places exactly if none is stray. -/
theorem exists_interval_iff
    : (∃ start stop, ∀ place, ImportAt stmts place ↔ start ≤ place ∧ place < stop)
      ↔ ∀ place, ¬IsStray stmts place := by
  constructor
  · rintro ⟨start, stop, bounds⟩ place ⟨isImport, first, gap, less, less', isFirst, isGap⟩
    have lower := (bounds first).mp isFirst
    have upper := (bounds place).mp isImport
    exact isGap ((bounds gap).mpr ⟨by omega, by omega⟩)
  · intro none
    obtain ⟨front, block, back, cuts, _⟩ := exists_cutsRun stmts
    have plain' : NoImport back := not_importAt_iff.mp fun later isImport =>
      none _ (cuts.isStray_iff.mpr ⟨later, rfl, isImport⟩)
    exact ⟨front.length, front.length + block.length, fun _ => cuts.importAt_iff plain'⟩

theorem SourceFile.strayImport?_eq_none_iff
    : strayImport? stmts = none ↔ ∀ place, ¬IsStray stmts place := by
  obtain ⟨front, block, back, cuts, found⟩ := exists_cutsRun stmts
  have plain : back.find? Stmt.isImport = none ↔ NoImport back := by
    rw [List.find?_eq_none]
    exact forall₂_congr fun _ _ => Bool.not_eq_true _ ▸ Iff.rfl
  rw [found, plain, ← not_importAt_iff]
  constructor
  · intro none place isStray
    obtain ⟨later, _, isImport⟩ := cuts.isStray_iff.mp isStray
    exact none later isImport
  · intro none later isImport
    exact none _ (cuts.isStray_iff.mpr ⟨later, rfl, isImport⟩)

/-- The import that the check finds is the first stray one. -/
theorem SourceFile.exists_of_strayImport? (found : strayImport? stmts = some stmt)
    : ∃ place, stmts[place]? = some stmt ∧ IsStray stmts place
        ∧ ∀ before < place, ¬IsStray stmts before := by
  obtain ⟨front, block, back, cuts, same⟩ := exists_cutsRun stmts
  obtain ⟨isImport, skipped, rest, rfl, none⟩ :=
    List.find?_eq_some_iff_append.mp (same.symm.trans found)
  have here : (skipped ++ stmt :: rest)[skipped.length]? = some stmt := by simp
  refine ⟨front.length + (block.length + skipped.length), ?_,
    cuts.isStray_iff.mpr ⟨skipped.length, rfl, stmt, here, isImport⟩, ?_⟩
  · rw [cuts.whole, List.getElem?_append_right (Nat.le_add_right _ _), Nat.add_sub_cancel_left,
      List.getElem?_append_right (Nat.le_add_right _ _), Nat.add_sub_cancel_left, here]
  · intro before less isStray
    obtain ⟨later, rfl, isImport'⟩ := cuts.isStray_iff.mp isStray
    have inside : later < skipped.length := by omega
    refine not_importAt_iff.mpr ?_ later ((importAt_append_left inside).mp isImport')
    intro stmt listed
    simpa using none stmt listed

end Stray

-----------------------------------------------------------------------------------------
-- Namespaces
-----------------------------------------------------------------------------------------

namespace SourceFile

variable {file : SourceFile} {place : Nat} {space : Namespace}

/-- Behind the items before a namespace stand that namespace and those behind it. -/
theorem spaceAt_iff {front back : List Item} {first : Namespace}
    (whole : file.items = front ++ .scope first :: back)
    (none : ∀ item ∈ front, item.space? = none)
    : file.SpaceAt place space
      ↔ place = front.length ∧ space = first
        ∨ ∃ later, place = front.length + (later + 1) ∧ back[later]? = some (.scope space) := by
  unfold SpaceAt
  rw [whole]
  rcases Nat.lt_or_ge place front.length with less | le
  · rw [List.getElem?_append_left less]
    constructor
    · intro here
      cases none _ (List.mem_of_getElem? here)
    · rintro (⟨rfl, _⟩ | ⟨later, rfl, _⟩) <;> omega
  · obtain ⟨inner, rfl⟩ := Nat.exists_eq_add_of_le le
    rw [List.getElem?_append_right le, Nat.add_sub_cancel_left]
    cases inner with
    | zero => simp [eq_comm]
    | succ later => simp

/-- No namespace stands where there is none. -/
theorem not_spaceAt (none : file.namespaces = []) : ¬file.SpaceAt place space := by
  intro here
  cases List.filterMap_eq_nil_iff.mp none _ (List.mem_of_getElem? here)

/-- A namespace and a later one. -/
theorem exists_of_two_namespaces {first second : Namespace} {rest : List Namespace}
    (listed : file.namespaces = first :: second :: rest)
    : ∃ place place', file.SpaceAt place first ∧ place < place' ∧ file.SpaceAt place' second
        ∧ ∀ between < place', ∀ other, file.SpaceAt between other → between = place := by
  obtain ⟨front, item, back, whole, none, isFirst, listed'⟩ :=
    List.filterMap_eq_cons_iff.mp listed
  obtain ⟨middle, item', back', rfl, none', isSecond, _⟩ :=
    List.filterMap_eq_cons_iff.mp listed'
  have scope {item : Item} {space : Namespace} (isScope : item.space? = some space)
      : item = .scope space := by
    cases item with
    | plain stmt => cases isScope
    | scope other => exact congrArg Item.scope (Option.some.inj isScope)
  obtain rfl := scope isFirst
  obtain rfl := scope isSecond
  refine ⟨front.length, front.length + (middle.length + 1),
    (spaceAt_iff whole none).mpr (.inl ⟨rfl, rfl⟩), by omega,
    (spaceAt_iff whole none).mpr (.inr ⟨middle.length, rfl, by simp⟩), ?_⟩
  intro between less other here
  rcases (spaceAt_iff whole none).mp here with ⟨rfl, _⟩ | ⟨later, rfl, among⟩
  · rfl
  · have inside : later < middle.length := by omega
    rw [List.getElem?_append_left inside] at among
    cases none' _ (List.mem_of_getElem? among)

/-- The only namespace, and the items before it. -/
theorem exists_of_one_namespace {only : Namespace} (listed : file.namespaces = [only])
    : file.SpaceAt file.beforeNamespace.length only
      ∧ (∀ place space, file.SpaceAt place space → place = file.beforeNamespace.length)
      ∧ ∀ before < file.beforeNamespace.length,
          file.items[before]? = file.beforeNamespace[before]? := by
  obtain ⟨front, item, back, whole, none, isOnly, none'⟩ := List.filterMap_eq_cons_iff.mp listed
  obtain rfl : item = .scope only := by
    cases item with
    | plain stmt => cases isOnly
    | scope other => exact congrArg Item.scope (Option.some.inj isOnly)
  have same : file.beforeNamespace = front := by
    unfold beforeNamespace
    rw [whole, List.takeWhile_append_of_pos (fun item listed => by rw [none item listed]; rfl),
      List.takeWhile_cons_of_neg (by simp [Item.space?]), List.append_nil]
  rw [same]
  refine ⟨(spaceAt_iff whole none).mpr (.inl ⟨rfl, rfl⟩), ?_, fun before less => ?_⟩
  · intro place space here
    rcases (spaceAt_iff whole none).mp here with ⟨rfl, _⟩ | ⟨later, _, among⟩
    · rfl
    · cases List.filterMap_eq_nil_iff.mp none' _ (List.mem_of_getElem? among)
  · rw [whole, List.getElem?_append_left less]

/-- Directives are recognised one by one. -/
theorem leadsWithNamespace_iff {only : Namespace} (listed : file.namespaces = [only])
    : file.LeadsWithNamespace
      ↔ (file.beforeNamespace.all fun item => item.stmt?.any Stmt.isDeclare) = true := by
  obtain ⟨here, alone, same⟩ := exists_of_one_namespace listed
  rw [List.all_eq_true]
  constructor
  · intro leads item among
    obtain ⟨before, atItem⟩ := List.getElem?_of_mem among
    have less := (List.getElem?_eq_some_iff.mp atItem).1
    obtain ⟨stmt, isStmt, declares⟩ := leads _ _ here before less
    rw [same before less, atItem] at isStmt
    obtain rfl := Option.some.inj isStmt
    exact declares
  · intro directives place space isSpace before less
    obtain rfl := alone place space isSpace
    have item := directives _ (List.getElem_mem less)
    obtain ⟨stmt, isStmt, declares⟩ := (Option.any_eq_true _ _).mp item
    refine ⟨stmt, ?_, declares⟩
    rw [same before less, List.getElem?_eq_getElem less]
    cases plain : file.beforeNamespace[before] with
    | plain other =>
        rw [plain] at isStmt
        exact congrArg (fun stmt => some (Item.plain stmt)) (Option.some.inj isStmt)
    | scope other =>
        rw [plain] at isStmt
        cases isStmt

/-- The check of the imports ends the check of an otherwise ordered header. -/
theorem checkContiguous_spec (single : file.HasOneNamespace) (leads : file.LeadsWithNamespace)
    : (file.checkContiguous = .ok () ∧ file.HasOrderedHeader)
      ∨ ∃ span?, file.IsAtFault .nonContiguousImports span?
          ∧ file.checkContiguous = .error ⟨.nonContiguousImports, file.lineOf span?⟩ := by
  unfold checkContiguous
  cases found : strayImport? file.importScope with
  | none =>
      exact .inl ⟨rfl, single, leads, exists_interval_iff.mpr (strayImport?_eq_none_iff.mp found)⟩
  | some stmt =>
      obtain ⟨place, here, isStray, first⟩ := exists_of_strayImport? found
      exact .inr ⟨stmt.span?, .stray single leads here isStray first, rfl⟩

/-- The check passes an ordered header, and else reports what is at fault. -/
theorem checkStructure_spec (file : SourceFile)
    : (file.checkStructure = .ok () ∧ file.HasOrderedHeader)
      ∨ ∃ fault span?, file.IsAtFault fault span?
          ∧ file.checkStructure = .error ⟨fault, file.lineOf span?⟩ := by
  unfold checkStructure
  split
  · rename_i first second rest listed
    obtain ⟨place, place', before, less, here, alone⟩ := exists_of_two_namespaces listed
    exact .inr ⟨_, _, .second before less here alone, rfl⟩
  · rename_i only listed
    obtain ⟨here, alone, same⟩ := exists_of_one_namespace listed
    have single : file.HasOneNamespace := fun place place' space space' isSpace isSpace' =>
      (alone place space isSpace).trans (alone place' space' isSpace').symm
    split
    · rename_i directives
      have leads := (leadsWithNamespace_iff listed).mpr directives
      rcases checkContiguous_spec single leads with ⟨passes, ordered⟩ | ⟨span?, fault, fails⟩
      · exact .inl ⟨passes, ordered⟩
      · exact .inr ⟨_, span?, fault, fails⟩
    · rename_i other
      have late : ¬file.LeadsWithNamespace := fun leads =>
        other ((leadsWithNamespace_iff listed).mp leads)
      unfold LeadsWithNamespace at late
      push Not at late
      obtain ⟨place, space, isSpace, before, less, other⟩ := late
      obtain rfl := alone place space isSpace
      exact .inr ⟨_, _, .late single here less other, rfl⟩
  · rename_i listed
    have absent (place : Nat) (space : Namespace) : ¬file.SpaceAt place space :=
      not_spaceAt listed
    have single : file.HasOneNamespace :=
      fun place _ space _ here _ => absurd here (absent place space)
    have leads : file.LeadsWithNamespace := fun place space here =>
      absurd here (absent place space)
    rcases checkContiguous_spec single leads with ⟨passes, ordered⟩ | ⟨span?, fault, fails⟩
    · exact .inl ⟨passes, ordered⟩
    · exact .inr ⟨_, span?, fault, fails⟩

-----------------------------------------------------------------------------------------
-- One fault, one statement to blame
-----------------------------------------------------------------------------------------

variable {fault fault' : StructureFault} {span? span?' : Option Span}

/-- An ordered header has no fault. -/
theorem HasOrderedHeader.not_isAtFault (ordered : file.HasOrderedHeader)
    : ¬file.IsAtFault fault span? := by
  rintro (⟨before, less, here, _⟩ | ⟨_, here, less, other⟩ | ⟨_, _, _, isStray, _⟩)
  · exact absurd (ordered.single _ _ _ _ before here) (Nat.ne_of_lt less)
  · exact other (ordered.leads _ _ here _ less)
  · exact exists_interval_iff.mp ordered.joined _ isStray

/-- What is at fault is determined, and so is the statement that is blamed. -/
theorem IsAtFault.unique (isAt : file.IsAtFault fault span?) (isAt' : file.IsAtFault fault' span?')
    : fault = fault' ∧ span? = span?' := by
  have two {first place : Nat} {space space' : Namespace} (before : file.SpaceAt first space)
      (less : first < place) (here : file.SpaceAt place space') (single : file.HasOneNamespace)
      : False :=
    absurd (single _ _ _ _ before here) (Nat.ne_of_lt less)
  cases isAt with
  | @second first place space space' before less here alone =>
      cases isAt' with
      | @second first' place' other other' before' less' here' alone' =>
          refine ⟨rfl, ?_⟩
          -- The later of two second namespaces would have a third one before it.
          rcases Nat.lt_trichotomy place place' with earlier | rfl | later
          · have same := alone' place earlier _ here
            have same' := alone' first (Nat.lt_trans less earlier) _ before
            omega
          · rw [SpaceAt, here] at here'
            rw [Item.scope.inj (Option.some.inj here')]
          · have same := alone place' later _ here'
            have same' := alone first' (Nat.lt_trans less' later) _ before'
            omega
      | late single => exact (two before less here single).elim
      | stray single => exact (two before less here single).elim
  | @late place before space single here less other =>
      cases isAt' with
      | second before' less' here' => exact (two before' less' here' single).elim
      | @late place' _ space' _ here' _ _ =>
          obtain rfl := single _ _ _ _ here here'
          rw [SpaceAt, here] at here'
          rw [Item.scope.inj (Option.some.inj here')]
          exact ⟨rfl, rfl⟩
      | stray _ leads => exact absurd (leads _ _ here _ less) other
  | @stray place stmt single leads here isStray first =>
      cases isAt' with
      | second before' less' here' => exact (two before' less' here' single).elim
      | late _ here' less' other' => exact absurd (leads _ _ here' _ less') other'
      | @stray place' stmt' _ _ here' isStray' first' =>
          obtain rfl : place = place' := by
            rcases Nat.lt_trichotomy place place' with earlier | same | later
            · exact absurd isStray (first' _ earlier)
            · exact same
            · exact absurd isStray' (first _ later)
          rw [here] at here'
          rw [Option.some.inj here']
          exact ⟨rfl, rfl⟩

/-- The check passes exactly the ordered headers. -/
theorem checkStructure_eq_ok_iff : file.checkStructure = .ok () ↔ file.HasOrderedHeader := by
  rcases file.checkStructure_spec with ⟨passes, ordered⟩ | ⟨fault, span?, isAt, fails⟩
  · exact iff_of_true passes ordered
  · rw [fails]
    exact iff_of_false nofun fun ordered => ordered.not_isAtFault isAt

/-- The check reports exactly what is at fault. -/
theorem checkStructure_eq_error_iff {error : StructureError}
    : file.checkStructure = .error error
      ↔ ∃ span?, file.IsAtFault error.fault span? ∧ error.line = file.lineOf span? := by
  rcases file.checkStructure_spec with ⟨passes, ordered⟩ | ⟨fault, span?, isAt, fails⟩
  · rw [passes]
    exact iff_of_false nofun fun ⟨_, isAt, _⟩ => ordered.not_isAtFault isAt
  · rw [fails, Except.error.injEq]
    constructor
    · rintro rfl
      exact ⟨span?, isAt, rfl⟩
    · rintro ⟨span?', isAt', line⟩
      obtain ⟨rfl, rfl⟩ := isAt.unique isAt'
      rw [← line]

-----------------------------------------------------------------------------------------
-- Parsed files
-----------------------------------------------------------------------------------------

/-- A statement in the import scope of a parsed file has a place. -/
theorem exists_span_of_importScope {source : Text} (parsed : parse source = .ok file) {stmt : Stmt}
    (listed : stmt ∈ file.importScope)
    : ∃ span, stmt.span? = some span := by
  have places : ∀ item ∈ file.items, ∀ place ∈ item.places, ∃ span, place.1 = some span := by
    intro item among place isPlace
    obtain ⟨_, _, _, ⟨_, _, empty⟩ | ⟨tag, _, _, _, _, _, opened⟩⟩ := parse_eq_ok parsed
    · rw [empty] at among
      cases among
    · obtain ⟨before, here, behind, same, isOver⟩ :=
        (tiles_of_parse parsed opened).exists_of_mem among
      have inside : (before ++ (here ++ behind)).Sublist (tokenize source) :=
        same ▸ List.filter_sublist
      obtain ⟨span, placed, _⟩ := isOver.isStretch (sublist_of_append inside) place isPlace
      exact ⟨span, placed⟩
  unfold importScope at listed
  cases first : file.firstNamespace? with
  | none =>
      rw [first] at listed
      obtain ⟨item, among, isStmt⟩ := List.mem_filterMap.mp listed
      cases item with
      | scope space => cases isStmt
      | plain other =>
          obtain rfl := Option.some.inj isStmt
          exact places _ among _ List.mem_cons_self
  | some space =>
      rw [first] at listed
      obtain ⟨item, among, isSpace⟩ := List.exists_of_findSome?_eq_some first
      cases item with
      | plain other => cases isSpace
      | scope other =>
          obtain rfl := Option.some.inj isSpace
          exact places _ among (stmt.span?, stmt.text)
            (List.mem_cons_of_mem _ (List.mem_map_of_mem listed))

/-- What is blamed in a parsed file has a place in it. -/
theorem IsAtFault.exists_span {source : Text} (parsed : parse source = .ok file)
    (isAt : file.IsAtFault fault span?)
    : ∃ span, span? = some span := by
  cases isAt with
  | second => exact ⟨_, rfl⟩
  | late => exact ⟨_, rfl⟩
  | stray _ _ here => exact exists_span_of_importScope parsed (List.mem_of_getElem? here)

/-- The check of a parsed file passes exactly the ordered headers. In any other header it reports
what is at fault, with the line on which the statement starts that is blamed: one more than the
line feeds before it.
-/
theorem checkStructure_decides_header {source : Text} (parsed : parse source = .ok file)
    : (file.checkStructure = .ok () ↔ file.HasOrderedHeader)
      ∧ ∀ error, file.checkStructure = .error error
          ↔ ∃ span, file.IsAtFault error.fault (some span)
              ∧ error.line = (Text.takeBytes span.start source).count '\n' + 1 := by
  have lines (span : Span)
      : file.lineOf (some span) = (Text.takeBytes span.start source).count '\n' + 1 := by
    unfold lineOf
    rw [(parse_eq_ok parsed).2.2.1]
    exact congrArg (· + 1) (LineIndex.lineAt_eq_count source span.start)
  refine ⟨checkStructure_eq_ok_iff, fun error => checkStructure_eq_error_iff.trans ?_⟩
  constructor
  · rintro ⟨span?, isAt, line⟩
    obtain ⟨span, rfl⟩ := isAt.exists_span parsed
    exact ⟨span, isAt, line.trans (lines span)⟩
  · rintro ⟨span, isAt, line⟩
    exact ⟨some span, isAt, line.trans (lines span).symm⟩

/-- The third import of a namespace is blamed for the function between it and the others, and a
namespace behind an import is blamed before its own imports.
-/
theorem checkStructure_blames_third_import_and_late_namespace
    : (∃ source file span,
        source = "<?php\ndeclare(ticks=1);\nnamespace A;\nuse B;\nuse C;\nf();\nuse D;\n".toList
        ∧ parse source = .ok file
        ∧ file.IsAtFault .nonContiguousImports (some span)
        ∧ (Text.takeBytes span.start source).count '\n' + 1 = 7
        ∧ ¬file.HasOrderedHeader)
      ∧ ∃ source file span,
          source = "<?php\nuse B;\nnamespace A;\nuse C;\nf();\nuse D;\n".toList
          ∧ parse source = .ok file
          ∧ file.IsAtFault .namespaceNotFirst (some span)
          ∧ (Text.takeBytes span.start source).count '\n' + 1 = 3 := by
  have reports (source : Text) (error : StructureError)
      (checked : (parse source).toOption.any (fun file => match file.checkStructure with
        | .ok () => false
        | .error found => found == error) = true)
      : ∃ file, parse source = .ok file ∧ file.checkStructure = .error error := by
    obtain ⟨file, parsed, matched⟩ := exists_of_parses _ checked
    refine ⟨file, parsed, ?_⟩
    cases result : file.checkStructure with
    | ok _ =>
        rw [result] at matched
        cases matched
    | error found =>
        rw [result] at matched
        rw [eq_of_beq matched]
  refine ⟨?_, ?_⟩
  · obtain ⟨file, parsed, fails⟩ := reports
      "<?php\ndeclare(ticks=1);\nnamespace A;\nuse B;\nuse C;\nf();\nuse D;\n".toList
      ⟨.nonContiguousImports, 7⟩ (by decide +kernel)
    obtain ⟨passes, blames⟩ := checkStructure_decides_header parsed
    obtain ⟨span, isAt, line⟩ := (blames _).mp fails
    refine ⟨_, file, span, rfl, parsed, isAt, line.symm, fun ordered => ?_⟩
    rw [passes.mpr ordered] at fails
    cases fails
  · obtain ⟨file, parsed, fails⟩ := reports
      "<?php\nuse B;\nnamespace A;\nuse C;\nf();\nuse D;\n".toList
      ⟨.namespaceNotFirst, 3⟩ (by decide +kernel)
    obtain ⟨_, blames⟩ := checkStructure_decides_header parsed
    obtain ⟨span, isAt, line⟩ := (blames _).mp fails
    exact ⟨_, file, span, rfl, parsed, isAt, line.symm⟩

end SourceFile

end ImportHeader
