import ImportHeader.Proofs.Fix.Coverage
import ImportHeader.Proofs.Header.Rewriting

/-! A second run over the result of a first. It finds the same facts, so it resolves what the first
run resolved, and all of that is known by now. It removes nothing either, unless a doc comment that
kept an import went with another one.
-/

namespace ImportHeader

open ImportHeader.Lexer

/-- Whether a doc comment of a source mentions a local name. -/
def Text.mentionsInDocs (source bound : Text) : Bool :=
  (tokenize source).any fun token =>
    token.kind == .docComment && (DocType.mentions token.text).any (Text.sameFolded · bound)

/-- Where a doc comment of a source mentions a class that an import of its own brings in, the code
uses it or a doc comment of the new text still mentions it.
-/
def SourceFile.KeepsMentions (file : SourceFile) (source text : Text) : Prop :=
  ∀ declaration ∈ file.imports,
    ∀ binding ∈ declaration.bindings,
      declaration.bindings = [binding]
      → binding.kind = .classLike
      → source.mentionsInDocs binding.bound = true
      → file.usesInCode binding.bound = true ∨ text.mentionsInDocs binding.bound = true

instance (file : SourceFile) (source text : Text) : Decidable (file.KeepsMentions source text) :=
  List.decidableBAll _ file.imports

/-- What a parsed file uses, its code or a doc comment of its source names. -/
theorem SourceFile.uses_iff_of_parse {source : Text} {file : SourceFile}
    (parsed : parse source = .ok file) (bound : Text)
    : file.extract.uses bound = true
      ↔ file.usesInCode bound = true ∨ source.mentionsInDocs bound = true := by
  obtain ⟨_, docComments, _⟩ := parse_eq_ok parsed
  rw [uses_eq, Bool.or_eq_true, docComments, List.flatMap_map, List.any_flatMap, List.any_filter]
  rfl

-----------------------------------------------------------------------------------------
-- What the first run leaves
-----------------------------------------------------------------------------------------

/-- Additions are made one by one. -/
theorem Edit.addResolved_edit (edit : Edit) (resolutions : List Resolution)
    : (edit.addResolved resolutions).edit
      = (edit.addResolved resolutions).added.foldl Edit.add edit := by
  fun_induction Edit.addResolved edit resolutions with
  | case1 edit => rfl
  | case2 edit reference rest ih => exact ih
  | case3 edit reference rest name imported ih => exact ih
  | case4 edit reference rest name absent taken others ih => exact ih
  | case5 edit reference rest name absent free others ih => exact ih

/-- Where all that is resolved is known, nothing is added. -/
theorem Edit.addResolved_of_known {edit : Edit} {resolutions : List Resolution}
    (known
      : ∀ reference name,
          ⟨reference, some name⟩ ∈ resolutions
          → edit.isImported name = true ∨ edit.isBound name.last = true)
    : (edit.addResolved resolutions).edit = edit ∧ (edit.addResolved resolutions).added = [] := by
  fun_induction Edit.addResolved edit resolutions with
  | case1 edit => exact ⟨rfl, rfl⟩
  | case2 edit reference rest ih => exact ih fun other name later => known other name (.tail _ later)
  | case3 edit reference rest name imported ih =>
      exact ih fun other name later => known other name (.tail _ later)
  | case4 edit reference rest name absent taken others ih =>
      exact ih fun other name later => known other name (.tail _ later)
  | case5 edit reference rest name absent free others ih =>
      rcases known reference name (.head _) with here | here
      · exact absurd here absent
      · exact absurd here free

/-- A file that passes the check has no namespace but its first. -/
theorem SourceFile.firstNamespace?_of_mem {file : SourceFile} {space : Namespace}
    (checked : file.checkStructure = .ok ()) (listed : .scope space ∈ file.items)
    : file.firstNamespace? = some space := by
  have inside : space ∈ file.namespaces := List.mem_filterMap.mpr ⟨_, listed, rfl⟩
  have head : file.firstNamespace? = file.namespaces.head? := List.head?_filterMap.symm
  unfold checkStructure at checked
  split at checked
  · cases checked
  · rename_i only single
    rw [single, List.mem_singleton] at inside
    rw [head, single, inside]
    rfl
  · rename_i none
    rw [none] at inside
    cases inside

/-- A file that passes the check has the imports of its import scope and those around its namespace.
-/
theorem SourceFile.importing_mem_nodes_iff {file : SourceFile} {declaration : Import}
    (checked : file.checkStructure = .ok ())
    : .importing declaration ∈ file.nodes
      ↔ declaration ∈ file.imports ∨ declaration ∈ file.outerImports := by
  constructor
  · intro listed
    obtain ⟨stmt, declared, place⟩ := exists_stmt_of_mem_nodes listed
    rcases place with here | ⟨space, here, inside⟩
    · have found := List.mem_filterMap.mpr ⟨stmt, here, declared⟩
      unfold imports importScope outerImports
      cases file.firstNamespace? with
      | none => exact .inl found
      | some space => exact .inr found
    · refine .inl (List.mem_filterMap.mpr ⟨stmt, ?_, declared⟩)
      rw [importScope, firstNamespace?_of_mem checked here]
      exact inside
  · rintro (inside | outside)
    · exact importing_mem_nodes inside
    · unfold outerImports at outside
      split at outside
      · cases outside
      obtain ⟨stmt, listed, declared⟩ := List.mem_filterMap.mp outside
      obtain ⟨item, here, isStmt⟩ := List.mem_filterMap.mp listed
      cases item with
      | scope space => cases isStmt
      | plain other =>
          obtain rfl := Option.some.inj isStmt
          exact Outline.mem_preorderAll (List.mem_map_of_mem here)
            (Stmt.importing_mem_preorder declared)

/-- Whether some imports bring in a class under a local name. -/
def Import.bindClass (declarations : List Import) (segment : Text) : Bool :=
  (declarations.flatMap Import.bindings).any fun binding =>
    binding.kind == .classLike && Text.sameFolded binding.bound segment

theorem Import.bindClass_congr {left right : List Import}
    (same : left.map Import.bindings = right.map Import.bindings) (segment : Text)
    : bindClass left segment = bindClass right segment := by
  rw [bindClass, bindClass, List.flatMap_def, List.flatMap_def, same]

/-- What an import of a class binds is extracted. -/
theorem SourceFile.exists_classImport {file : SourceFile} {declaration : Import}
    {binding : Binding} (listed : .importing declaration ∈ file.nodes)
    (inside : binding ∈ declaration.bindings) (kind : binding.kind = .classLike)
    : ∃ entry ∈ file.extract.classImports, entry.bound = binding.bound := by
  obtain ⟨item, member, rfl⟩ := List.mem_map.mp inside
  refine ⟨_, List.mem_filter.mpr ⟨List.mem_flatMap.mpr ⟨_, listed, List.mem_map_of_mem member⟩, ?_⟩,
    rfl⟩
  exact beq_iff_eq.mpr kind

/-- The local names of a file are those of the imports in its scope and of those around it. -/
theorem SourceFile.binds_iff {file : SourceFile} {segment : Text}
    (checked : file.checkStructure = .ok ())
    : file.extract.binds segment = true
      ↔ Import.bindClass file.imports segment = true
        ∨ Import.bindClass file.outerImports segment = true := by
  have found (declarations : List Import)
      : Import.bindClass declarations segment = true
        ↔ ∃ declaration ∈ declarations,
            ∃ binding ∈ declaration.bindings,
              binding.kind = .classLike ∧ Text.sameFolded binding.bound segment = true := by
    rw [Import.bindClass, List.any_flatMap]
    simp
  rw [found, found]
  constructor
  · intro binds
    obtain ⟨entry, listed, same⟩ := List.any_eq_true.mp binds
    obtain ⟨extracted, kind⟩ := List.mem_filter.mp listed
    obtain ⟨node, inside, here⟩ := List.mem_flatMap.mp extracted
    cases node with
    | importing declaration =>
        obtain ⟨item, member, rfl⟩ := List.mem_map.mp here
        have bound : ∃ binding ∈ declaration.bindings,
            binding.kind = .classLike ∧ Text.sameFolded binding.bound segment = true :=
          ⟨_, List.mem_map_of_mem member, eq_of_beq kind, same⟩
        exact ((importing_mem_nodes_iff checked).mp inside).imp (fun scope => ⟨_, scope, bound⟩)
          fun outer => ⟨_, outer, bound⟩
    | _ => cases here
  · intro places
    obtain ⟨declaration, inside, binding, bound, kind, same⟩ : ∃ declaration,
        .importing declaration ∈ file.nodes
        ∧ ∃ binding ∈ declaration.bindings,
            binding.kind = .classLike ∧ Text.sameFolded binding.bound segment = true := by
      rcases places with ⟨declaration, scope, bound⟩ | ⟨declaration, outer, bound⟩
      · exact ⟨declaration, (importing_mem_nodes_iff checked).mpr (.inl scope), bound⟩
      · exact ⟨declaration, (importing_mem_nodes_iff checked).mpr (.inr outer), bound⟩
    obtain ⟨entry, listed, sameBound⟩ := exists_classImport inside bound kind
    exact List.any_eq_true.mpr ⟨entry, listed, by rw [sameBound]; exact same⟩

theorem SourceFile.usesInCode_of_candidate {file : SourceFile} {reference : Reference}
    (listed : reference ∈ file.extract.candidates)
    : file.usesInCode reference.name.first = true := by
  rw [usesInCode, ← map_name_candidates, Bool.or_eq_true]
  exact .inl (List.any_eq_true.mpr
    ⟨reference.name, List.mem_map_of_mem listed, Text.sameFolded_iff.mpr rfl⟩)

/-- An import of a single class that nothing uses would be removed. -/
theorem SourceFile.uses_of_importUnder?_eq_none {file : SourceFile} {stmt : Stmt}
    {declaration : Import} (listed : stmt ∈ file.importScope)
    (declared : stmt.declaration? = some declaration)
    (stays : stmt.importUnder? (file.extract.unusedImports.map ImportEntry.bound) = none)
    {binding : Binding} (single : declaration.bindings = [binding])
    (kind : binding.kind = .classLike)
    : file.extract.uses binding.bound = true := by
  have other := (Stmt.importUnder?_eq_none_iff declared).mp stays binding single kind
  have present : declaration ∈ file.imports := List.mem_filterMap.mpr ⟨stmt, listed, declared⟩
  have inside : binding ∈ declaration.bindings := single ▸ List.mem_singleton_self binding
  by_contra unused
  obtain ⟨entry, listed, bound⟩ := exists_classImport (importing_mem_nodes present) inside kind
  have gone : entry ∈ file.extract.unusedImports := by
    refine List.mem_filter.mpr ⟨listed, ?_⟩
    rw [bound, Bool.eq_false_iff.mpr unused]
    rfl
  rw [List.any_eq_false] at other
  refine other entry.bound (List.mem_map_of_mem gone) ?_
  rw [bound]
  exact Text.sameFolded_iff.mpr rfl

namespace Run

variable {source text : Text} {index : SymbolIndex} {config : Config} {file again : SourceFile}
  {edit : Edit} {plan : Plan}

/-- The edit of a run is that of its removals and additions. -/
theorem sort_eq_apply (run : Run source index config file edit plan)
    : plan.edit.sort
      = edit.apply plan.added (file.extract.unusedImports.map ImportEntry.bound) := by
  rw [run.planned]
  exact congrArg Edit.sort (Edit.addResolved_edit _ _)

/-- Where one class is imported at the end of a run, the code uses it or a doc comment mentions it.
-/
theorem uses_of_single (run : Run source index config file edit plan)
    (kept : file.KeepsMentions source text) {declaration : Import}
    (listed : declaration ∈ plan.edit.imports) {binding : Binding}
    (single : declaration.bindings = [binding]) (kind : binding.kind = .classLike)
    : file.usesInCode binding.bound = true ∨ text.mentionsInDocs binding.bound = true := by
  have planned := listed
  rw [run.planned] at planned
  rcases List.mem_append.mp ((Edit.imports_addResolved _ _).mem_iff.mp planned) with new | old
  · obtain ⟨name, added, rfl⟩ := List.mem_map.mp new
    obtain ⟨reference, needed, _, importing⟩ :=
      run.exists_reference_of_added (by rw [run.planned]; exact added)
    obtain rfl : ⟨.classLike, name.last, name.segments⟩ = binding := (List.cons.inj single).1
    rw [importing.last_eq]
    exact .inl (SourceFile.usesInCode_of_candidate (Extraction.mem_references.mp needed).1)
  · rw [Edit.imports_eq, Edit.scope_remove, Edit.scope, run.edit_file] at old
    obtain ⟨stmt, stays, declared⟩ := List.mem_filterMap.mp old
    obtain ⟨present, lasts⟩ := List.mem_filter.mp stays
    have used := SourceFile.uses_of_importUnder?_eq_none present declared
      (Option.isNone_iff_eq_none.mp lasts) single kind
    rcases (SourceFile.uses_iff_of_parse run.parsed _).mp used with here | mentioned
    · exact .inl here
    · exact kept declaration (List.mem_filterMap.mpr ⟨stmt, present, declared⟩) binding
        (single ▸ List.mem_singleton_self binding) single kind mentioned

/-- A run keeps the imports of single classes that are used. -/
theorem mem_imports_of_uses (run : Run source index config file edit plan) {declaration : Import}
    (listed : declaration ∈ file.imports) {binding : Binding}
    (single : declaration.bindings = [binding])
    (used : file.extract.uses binding.bound = true)
    : declaration ∈ plan.edit.imports := by
  obtain ⟨stmt, present, declared⟩ := List.mem_filterMap.mp listed
  rw [run.planned]
  refine (Edit.imports_addResolved _ _).mem_iff.mpr (List.mem_append_right _ ?_)
  rw [Edit.imports_eq, Edit.scope_remove, Edit.scope, run.edit_file]
  refine List.mem_filterMap.mpr ⟨stmt, List.mem_filter.mpr ⟨present, ?_⟩, declared⟩
  refine Option.isNone_iff_eq_none.mpr ((Stmt.importUnder?_eq_none_iff declared).mpr
    fun other same _ => ?_)
  obtain rfl := (List.cons.inj (single.symm.trans same)).1
  rw [List.any_eq_false]
  intro unused gone
  rw [Text.sameFolded_comm, Extraction.uses_of_unused used gone]
  exact Bool.false_ne_true

end Run

-----------------------------------------------------------------------------------------
-- What the second run finds
-----------------------------------------------------------------------------------------

/-- How a namespace is seen hangs on the segments of its name. -/
theorem SymbolIndex.relativeTo_congr (index : SymbolIndex) {space? space?' : Option Name}
    (same : space?.map Name.segments = space?'.map Name.segments)
    : index.relativeTo space? = index.relativeTo space?' := by
  cases space? with
  | none =>
      rw [Option.map_eq_none_iff.mp same.symm]
  | some space =>
      obtain ⟨space', rfl, segments⟩ := Option.map_eq_some_iff.mp same.symm
      have seen : relativeName? space' = relativeName? space := by
        funext name
        unfold relativeName? Name.length Name.startsWith
        rw [segments]
      simp only [relativeTo, seen]

namespace Rewritten

variable {file again : SourceFile} {declarations : List Import}

theorem usesInCode_eq (rewritten : Rewritten file declarations again) (bound : Text)
    : again.usesInCode bound = file.usesInCode bound := by
  rw [SourceFile.usesInCode, SourceFile.usesInCode, rewritten.facts_eq]

/-- The same names are ignored. -/
theorem contains_eq (rewritten : Rewritten file declarations again) (config : Config)
    (index : SymbolIndex) (name : Name)
    : (ignoreSet config again again.extract index).contains name
      = (ignoreSet config file file.extract index).contains name := by
  have spaces : ((again.firstNamespace?.bind Namespace.name?).map LocatedName.name).map Name.segments
      = ((file.firstNamespace?.bind Namespace.name?).map LocatedName.name).map Name.segments := by
    rw [Option.map_map, Option.map_map]
    exact rewritten.segments_eq
  rw [contains_ignoreSet, contains_ignoreSet, ignoredTexts, ignoredTexts, again.declared_eq,
    file.declared_eq, rewritten.facts_eq, index.relativeTo_congr spaces]

/-- The same names are candidates. -/
theorem exists_candidate (rewritten : Rewritten file declarations again) {reference : Reference}
    (listed : reference ∈ again.extract.candidates)
    : ∃ reference' ∈ file.extract.candidates, reference'.name = reference.name := by
  have named : reference.name ∈ again.extract.candidates.map Reference.name :=
    List.mem_map_of_mem listed
  rw [again.map_name_candidates, rewritten.facts_eq, ← file.map_name_candidates] at named
  exact List.mem_map.mp named

variable {edit edit' : Edit}

theorem bindings_of_file (rewritten : Rewritten file edit.imports again)
    (atAgain : edit'.file = again)
    : edit'.imports.map Import.bindings = edit.imports.map Import.bindings := by
  rw [← rewritten.bindings_eq, Edit.imports, atAgain]

/-- The same local names are taken. -/
theorem isBound_eq (rewritten : Rewritten file edit.imports again) (atAgain : edit'.file = again)
    (bound : Text)
    : edit'.isBound bound = edit.isBound bound := by
  rw [Edit.isBound_eq, Edit.isBound_eq, List.flatMap_def, rewritten.bindings_of_file atAgain,
    ← List.flatMap_def]

/-- The same classes are imported. -/
theorem isImported_eq (rewritten : Rewritten file edit.imports again)
    (atAgain : edit'.file = again) (name : Name)
    : edit'.isImported name = edit.isImported name := by
  rw [Edit.isImported_eq, Edit.isImported_eq, List.flatMap_def, rewritten.bindings_of_file atAgain,
    ← List.flatMap_def]

end Rewritten

namespace Run

variable {source text : Text} {index : SymbolIndex} {config : Config} {file again : SourceFile}
  {edit edit' : Edit} {plan plan' : Plan}

/-- The second run removes nothing. -/
theorem importUnder?_again (run : Run source index config file edit plan)
    (kept : file.KeepsMentions source text)
    (rewritten : Rewritten file plan.edit.sort.imports again) (parsed : parse text = .ok again)
    : ∀ stmt ∈ again.importScope,
        stmt.importUnder? (again.extract.unusedImports.map ImportEntry.bound) = none := by
  intro stmt listed
  cases declared : stmt.declaration? with
  | none => rw [Stmt.importUnder?, declared]
  | some declaration =>
      refine (Stmt.importUnder?_eq_none_iff declared).mpr fun binding single kind => ?_
      have found : declaration.bindings ∈ again.imports.map Import.bindings :=
        List.mem_map_of_mem (List.mem_filterMap.mpr ⟨stmt, listed, declared⟩)
      rw [rewritten.bindings_eq] at found
      obtain ⟨origin, inside, same⟩ := List.mem_map.mp found
      have used := run.uses_of_single kept
        (plan.edit.imports_sort_perm.mem_iff.mp inside) (same.trans single) kind
      have uses : again.extract.uses binding.bound = true := by
        rwa [SourceFile.uses_iff_of_parse parsed, rewritten.usesInCode_eq]
      rw [List.any_eq_false]
      intro unused gone
      rw [Text.sameFolded_comm, Extraction.uses_of_unused uses gone]
      exact Bool.false_ne_true

/-- What binds a candidate in the source still binds it in the text. -/
theorem binds_again (run : Run source index config file edit plan)
    (rewritten : Rewritten file plan.edit.sort.imports again) {reference : Reference}
    (candidate : reference ∈ file.extract.candidates)
    (binds : file.extract.binds reference.name.first = true)
    : again.extract.binds reference.name.first = true := by
  obtain ⟨checked, rfl, _⟩ := Edit.start_eq_ok run.started
  refine (SourceFile.binds_iff rewritten.checked).mpr ?_
  refine ((SourceFile.binds_iff checked).mp binds).imp (fun inside => ?_) fun outside => ?_
  · have used := Extraction.uses_of_mem (.inl ⟨reference, candidate, rfl⟩)
    have taken : edit.isBound reference.name.first = true := (Edit.isBound_eq _ _).trans inside
    have stays : plan.edit.sort.isBound reference.name.first = true := by
      rw [Edit.isBound_sort, run.planned]
      refine Edit.isBound_addResolved _ ?_
      rw [Edit.isBound_iff] at taken ⊢
      rwa [Edit.namesBoundTo_remove edit fun unused gone => Extraction.uses_of_unused used gone]
    rw [Import.bindClass_congr rewritten.bindings_eq]
    exact (Edit.isBound_eq _ _).symm.trans stays
  · rwa [Import.bindClass_congr rewritten.outer_bindings_eq]

/-- What the second run resolves is known. -/
theorem known_again (run : Run source index config file edit plan)
    (rewritten : Rewritten file plan.edit.sort.imports again) (atAgain : edit'.file = again)
    {reference : Reference} {name : Name}
    (listed
      : reference ∈ again.extract.references (ignoreSet config again again.extract index))
    (found : index.resolve? reference.name = some name)
    : edit'.isImported name = true ∨ edit'.isBound name.last = true := by
  obtain ⟨candidate, free, plain, wanted⟩ := Extraction.mem_references.mp listed
  obtain ⟨reference', candidate', same⟩ := rewritten.exists_candidate candidate
  -- The imports of the source did not bind it, since its bindings are kept.
  have free' : file.extract.binds reference'.name.first = false := by
    rw [Bool.eq_false_iff]
    intro binds
    have bound := run.binds_again rewritten candidate' binds
    rw [same, free] at bound
    cases bound
  have needed : reference'
      ∈ file.extract.references (ignoreSet config file file.extract index) := by
    refine Extraction.mem_references.mpr ⟨candidate', free', ?_, ?_⟩
    · rw [same]
      exact plain
    · rw [same, ← rewritten.contains_eq]
      exact wanted
  have resolved : ⟨reference'.name, some name⟩
      ∈ index.resolveAll ((file.extract.references
          (ignoreSet config file file.extract index)).map Reference.name) :=
    SymbolIndex.mem_resolveAll.mpr ⟨List.mem_map_of_mem needed, by rw [same, found]⟩
  rw [rewritten.isImported_eq atAgain, rewritten.isBound_eq atAgain, Edit.isImported_sort,
    Edit.isBound_sort, run.planned]
  exact (Edit.isImported_or_skipped _ resolved).imp_right And.right

/-- If the second run removes nothing, the mentions that kept imports are still there. -/
theorem keepsMentions_of_removed_eq_nil (run : Run source index config file edit plan)
    (rewritten : Rewritten file plan.edit.sort.imports again)
    (run' : Run text index config again edit' plan') (none : plan'.removed = [])
    : file.KeepsMentions source text := by
  intro declaration listed binding _ single kind mentioned
  have used := (SourceFile.uses_iff_of_parse run.parsed _).mpr (.inr mentioned)
  have kept := plan.edit.imports_sort_perm.mem_iff.mpr (run.mem_imports_of_uses listed single used)
  have found := List.mem_map_of_mem (f := Import.bindings) kept
  rw [← rewritten.bindings_eq] at found
  obtain ⟨declaration', present, same⟩ := List.mem_map.mp found
  obtain ⟨stmt, inside, declared⟩ := List.mem_filterMap.mp present
  rw [run'.planned] at none
  have stays := List.filterMap_eq_nil_iff.mp none stmt (run'.edit_file.symm ▸ inside)
  have again := SourceFile.uses_of_importUnder?_eq_none inside declared stays
    (same.trans single) kind
  rwa [SourceFile.uses_iff_of_parse run'.parsed, rewritten.usesInCode_eq] at again

/-- The second run has nothing to do. -/
theorem isIdle_again (run : Run source index config file edit plan)
    (kept : file.KeepsMentions source text)
    (rewritten : Rewritten file plan.edit.sort.imports again)
    (run' : Run text index config again edit' plan')
    : plan'.isIdle = true := by
  have lasts := run.importUnder?_again kept rewritten run'.parsed
  rw [← run'.edit_file] at lasts
  have removed : plan'.removed = [] := by
    rw [run'.planned, ← run'.edit_file]
    exact List.filterMap_eq_nil_iff.mpr lasts
  have same : (edit'.remove (again.extract.unusedImports.map ImportEntry.bound)).imports
      = edit'.imports := by
    rw [Edit.imports_eq, Edit.scope_remove, List.filter_eq_self.mpr, ← Edit.imports_eq]
    intro stmt listed
    rw [← run'.edit_file, lasts stmt listed]
    rfl
  have known : ∀ reference name,
      ⟨reference, some name⟩ ∈ index.resolveAll ((again.extract.references
        (ignoreSet config again again.extract index)).map Reference.name)
      → (edit'.remove (again.extract.unusedImports.map ImportEntry.bound)).isImported name = true
        ∨ (edit'.remove (again.extract.unusedImports.map ImportEntry.bound)).isBound name.last
          = true := by
    intro reference name resolved
    obtain ⟨named, found⟩ := SymbolIndex.mem_resolveAll.mp resolved
    obtain ⟨written, listed, rfl⟩ := List.mem_map.mp named
    rw [Edit.isImported, Edit.isBound, same]
    exact run.known_again rewritten run'.edit_file listed found.symm
  obtain ⟨stays, added⟩ := Edit.addResolved_of_known known
  have planned : plan'.edit = edit'.remove (again.extract.unusedImports.map ImportEntry.bound) := by
    rw [run'.planned]
    exact stays
  have sorted : plan'.edit.isSorted = true := by
    have bindings := rewritten.bindings_of_file run'.edit_file
    rw [← same, ← planned] at bindings
    rw [Edit.isSorted_congr bindings]
    exact plan.edit.isSorted_sort
  have none : plan'.added = [] := by
    rw [run'.planned]
    exact added
  rw [Plan.isIdle, none, removed, sorted]
  rfl

end Run

/-- A plan with nothing to do changes nothing. -/
theorem Plan.outcome_of_isIdle {plan : Plan} (idle : plan.isIdle = true) (source : Text)
    : plan.outcome source = .ok (.unchanged source plan.diagnostics) := by
  rw [Plan.outcome, if_pos idle]
  rfl

/-- The text of a plan with something to do is that of its edit. -/
theorem Plan.finish_eq_ok {plan : Plan} {source : Text} {outcome : Outcome}
    (busy : plan.isIdle = false) (carried : plan.outcome source = .ok outcome)
    : plan.edit.sort.finish = .ok outcome.text := by
  rw [Plan.outcome, busy, if_neg Bool.false_ne_true] at carried
  cases finished : plan.edit.sort.finish with
  | error error => simp [finished, bind, Except.bind] at carried
  | ok text =>
      simp only [finished, bind, Except.bind, pure, Except.pure, Except.ok.injEq] at carried
      subst carried
      rfl

/-- A run over the result of a run changes nothing exactly when a doc comment of the result still
mentions each import that doc comments alone have kept, if the edit of the first run was safe.
-/
theorem fixImports_again {source : Text} {index : SymbolIndex} {config : Config}
    {file : SourceFile} {outcome : Outcome} (parsed : parse source = .ok file)
    (done : fixImports source index config = .ok outcome)
    (safe
      : ∀ edit plan,
          Run source index config file edit plan
          → plan.isIdle = false
          → Edit.IsSafe source file edit plan.edit.sort)
    : (∃ diagnostics,
        fixImports outcome.text index config = .ok (.unchanged outcome.text diagnostics))
      ↔ file.KeepsMentions source outcome.text := by
  have same : file.KeepsMentions source source := fun _ _ _ _ _ _ mentioned => .inr mentioned
  obtain ⟨_, again, ⟨code, rfl⟩ | ⟨edit, plan, run, carried⟩⟩ := fixImports_cases done
  · cases parsed.symm.trans again
    exact iff_of_true ⟨[], done⟩ same
  cases parsed.symm.trans again
  cases busy : plan.isIdle with
  | true =>
      rw [Plan.outcome_of_isIdle busy] at carried
      cases carried
      exact iff_of_true ⟨plan.diagnostics, done⟩ same
  | false =>
      have isSafe := safe edit plan run busy
      have finished := Plan.finish_eq_ok busy carried
      rw [run.sort_eq_apply] at isSafe finished
      obtain ⟨again, reread, code, rewritten⟩ :=
        Edit.exists_rewritten run.parsed run.code run.started isSafe finished
      rw [← run.sort_eq_apply] at rewritten
      obtain ⟨edit', started⟩ := Edit.exists_start rewritten.checked outcome.text
      have run' : Run outcome.text index config again edit' _ := ⟨reread, code, started, rfl⟩
      rw [run'.fixImports_eq]
      constructor
      · rintro ⟨diagnostics, unchanged⟩
        refine run.keepsMentions_of_removed_eq_nil rewritten run' ?_
        exact (Plan.outcome_eq_ok unchanged).2.1.symm
      · intro kept
        rw [Plan.outcome_of_isIdle (run.isIdle_again kept rewritten run')]
        exact ⟨_, rfl⟩

/-- Whether a run that adds the given names is safe, by the file it starts from. -/
def SourceFile.isSafeRun (file : SourceFile) (source : Text) (added : List Name) : Bool :=
  match Edit.start file source with
  | .ok edit =>
      decide (Edit.IsSafe source file edit
        (edit.apply added (file.extract.unusedImports.map ImportEntry.bound)))
  | .error _ => false

theorem Run.isSafe {source : Text} {index : SymbolIndex} {config : Config} {file : SourceFile}
    {edit : Edit} {plan : Plan} (run : Run source index config file edit plan)
    (safe : file.isSafeRun source plan.added = true)
    : Edit.IsSafe source file edit plan.edit.sort := by
  rw [SourceFile.isSafeRun, run.started, decide_eq_true_iff] at safe
  rwa [run.sort_eq_apply]

/-- An import that nothing uses is removed, one that a doc comment mentions stays, and then all is
done.
-/
theorem fixImports_again_of_mentioned_class
    : ∃ source outcome diagnostics,
        source = "<?php\nuse Old\\Bar;\nuse Lib\\Foo;\n/** @var Foo */\nnew Baz;\n".toList
        ∧ fixImports source (.ofEntries []) .default = .ok outcome
        ∧ outcome.text = "<?php\n\nuse Lib\\Foo;\n\n/** @var Foo */\nnew Baz;\n".toList
        ∧ fixImports outcome.text (.ofEntries []) .default
          = .ok (.unchanged outcome.text diagnostics) := by
  obtain ⟨file, _, outcome, parsed, _, done, checked⟩ := exists_of_succeeds
    "<?php\nuse Old\\Bar;\nuse Lib\\Foo;\n/** @var Foo */\nnew Baz;\n".toList [] .default
    (fun file _ outcome =>
      outcome.text == "<?php\n\nuse Lib\\Foo;\n\n/** @var Foo */\nnew Baz;\n".toList
      && file.isSafeRun
        "<?php\nuse Old\\Bar;\nuse Lib\\Foo;\n/** @var Foo */\nnew Baz;\n".toList outcome.added
      && decide (file.KeepsMentions
        "<?php\nuse Old\\Bar;\nuse Lib\\Foo;\n/** @var Foo */\nnew Baz;\n".toList outcome.text))
    (by decide +kernel)
  simp only [Bool.and_eq_true, beq_iff_eq, decide_eq_true_eq] at checked
  obtain ⟨⟨written, safe⟩, kept⟩ := checked
  have again := fixImports_again parsed done fun edit plan run _ => by
    have added := (Plan.outcome_eq_ok (run.fixImports_eq.symm.trans done)).1
    exact run.isSafe (added ▸ safe)
  obtain ⟨diagnostics, idle⟩ := again.mpr kept
  exact ⟨_, outcome, diagnostics, rfl, done, written, idle⟩

/-- An import goes with the comment above it. If nothing else mentions the name of another one,
the next run removes that one too.
-/
theorem comment_of_removed_import_keeps_another
    : ∃ source outcome again,
        source = "<?php\n/** @var Foo */\nuse Lib\\Bar;\nuse Lib\\Foo;\n".toList
        ∧ fixImports source (.ofEntries []) .default = .ok outcome
        ∧ outcome.text = "<?php\n\nuse Lib\\Foo;\n".toList
        ∧ fixImports outcome.text (.ofEntries []) .default = .ok again
        ∧ again.changed = true
        ∧ again.removed = [⟨["Lib".toList, "Foo".toList], .qualified⟩] := by
  obtain ⟨_, _, outcome, _, _, done, checked⟩ := exists_of_succeeds
    "<?php\n/** @var Foo */\nuse Lib\\Bar;\nuse Lib\\Foo;\n".toList [] .default
    (fun _ _ outcome => outcome.text == "<?php\n\nuse Lib\\Foo;\n".toList) (by decide +kernel)
  obtain ⟨_, _, again, _, _, done', checked'⟩ := exists_of_succeeds
    "<?php\n\nuse Lib\\Foo;\n".toList [] .default
    (fun _ _ again => again.changed
      && again.removed == [⟨["Lib".toList, "Foo".toList], .qualified⟩]) (by decide +kernel)
  rw [beq_iff_eq] at checked
  rw [Bool.and_eq_true, beq_iff_eq] at checked'
  exact ⟨_, outcome, again, rfl, done, checked, checked.symm ▸ done', checked'.1, checked'.2⟩

end ImportHeader
