import ImportHeader.Proofs.Header.Recast
import ImportHeader.Proofs.Reference.Facts

/-! What a file holds besides its imports: its other statements, its namespace and the facts in them.
All of it is read off the blocks of the source, and so are the imports.
-/

namespace ImportHeader

open ImportHeader.Lexer ImportHeader.Parser

/-- What stands at the top level of a file besides imports. A statement is known by whether it is a
directive and by its text, and a namespace by its name, its form and its statements.
-/
inductive Entry where
  | stmt (isDeclare : Bool) (text : Text)
  | scope (segments? : Option (List Text)) (braced : Bool) (stmts : List (Bool × Text))
deriving DecidableEq

/-- A statement that is no import. -/
def Stmt.other? (stmt : Stmt) : Option (Bool × Text) :=
  if stmt.isImport then none else some (stmt.isDeclare, stmt.text)

/-- An item that is no import. -/
def Item.other? : Item → Option Entry
  | .plain stmt => stmt.other?.map fun (isDeclare, text) => .stmt isDeclare text
  | .scope space =>
      some (.scope (space.name?.map fun located => located.name.segments) space.braced
        (space.stmts.filterMap Stmt.other?))

/-- All of a file besides its imports, in order. -/
def SourceFile.entries (file : SourceFile) : List Entry :=
  file.items.filterMap Item.other?

/-- A part that is no import. -/
def Part.other? (part : Part) : Option (Bool × Text) :=
  if part.essence.2.1.isSome then none else some (part.essence.1, joined part.block.pieces)

/-- What a part imports. -/
def Part.import? (part : Part) : Option Import :=
  part.essence.2.1

/-- What a statement imports, without the places of the names. -/
def Stmt.imported? (stmt : Stmt) : Option Import :=
  stmt.declaration?.map Import.unplaced

/-- Parts at the top level that are no imports. -/
def Part.entries (parts : List Part) : List Entry :=
  parts.filterMap fun part => part.other?.map fun (isDeclare, text) => .stmt isDeclare text

/-- All blocks of a file besides its imports. -/
def Sheet.entries (sheet : Sheet) : List Entry :=
  match sheet.frame? with
  | none => Part.entries sheet.inside
  | some frame =>
      Part.entries frame.before
        ++ .scope (frame.name?.map Name.segments) frame.braced (sheet.inside.filterMap Part.other?)
        :: Part.entries frame.after

/-- The facts of parts in order. -/
def Part.facts (parts : List Part) : List Fact :=
  parts.flatMap fun part => part.essence.2.2

/-- The facts of all blocks of a file. -/
def Sheet.facts (sheet : Sheet) : List Fact :=
  match sheet.frame? with
  | none => Part.facts sheet.inside
  | some frame =>
      Part.facts frame.before ++ (Part.facts sheet.inside ++ Part.facts frame.after)

/-- The imports around the namespace of a file that has one. -/
def SourceFile.outerImports (file : SourceFile) : List Import :=
  match file.firstNamespace? with
  | none => []
  | some _ => (file.items.filterMap Item.stmt?).filterMap Stmt.declaration?

/-- What the blocks around a namespace import. -/
def Sheet.outerImports (sheet : Sheet) : List Import :=
  match sheet.frame? with
  | none => []
  | some frame => (frame.before ++ frame.after).filterMap Part.import?

/-- The segments of the name of the first namespace. -/
def SourceFile.spaceSegments? (file : SourceFile) : Option (List Text) :=
  (file.firstNamespace?.bind Namespace.name?).map fun located => located.name.segments

section

variable {source : Text} {part : Part} {parts : List Part} {found : Stmt} {stmts : List Stmt}

theorem other?_of_isPart (isPart : IsPart source part found) : found.other? = part.other? := by
  rw [Stmt.other?, Part.other?, isImport_of_isPart isPart, isDeclare_of_isPart isPart,
    isPart.text_eq]

theorem imported?_of_isPart (isPart : IsPart source part found)
    : found.imported? = part.import? :=
  (import_of_isPart isPart).symm

theorem filterMap_import? (pairs : List.Forall₂ (IsPart source) parts stmts)
    : (stmts.filterMap Stmt.declaration?).map Import.unplaced = parts.filterMap Part.import? := by
  induction pairs with
  | nil => rfl
  | @cons part stmt parts stmts isPart _ ih =>
      have same := imported?_of_isPart isPart
      unfold Stmt.imported? at same
      cases found : stmt.declaration? with
      | none =>
          rw [found] at same
          rw [List.filterMap_cons_none found, List.filterMap_cons_none same.symm, ih]
      | some declaration =>
          rw [found] at same
          rw [List.filterMap_cons_some found, List.filterMap_cons_some same.symm, List.map_cons, ih]

theorem filterMap_other? (pairs : List.Forall₂ (IsPart source) parts stmts)
    : stmts.filterMap Stmt.other? = parts.filterMap Part.other? := by
  induction pairs with
  | nil => rfl
  | cons here _ ih =>
      rw [List.filterMap_cons, List.filterMap_cons, other?_of_isPart here, ih]

theorem entries_of_parts (pairs : List.Forall₂ (IsPart source) parts stmts)
    : (stmts.map Item.plain).filterMap Item.other? = Part.entries parts := by
  rw [List.filterMap_map, Part.entries]
  induction pairs with
  | nil => rfl
  | cons here _ ih =>
      rw [List.filterMap_cons, List.filterMap_cons, ih, Function.comp_apply, Item.other?,
        other?_of_isPart here]

theorem facts_of_isPart (isPart : IsPart source part found)
    : found.facts = part.essence.2.2 := by
  rw [← isPart.essence_eq, Stmt.facts, Outline.ofStmt, Outline.facts_node]
  cases found.kind <;>
    simp [StmtKind.essence, Node.facts, Node.references, Node.mention?, Node.declared?, exprFacts,
      ClassLike.facts, Function.facts]

theorem facts_of_parts (pairs : List.Forall₂ (IsPart source) parts stmts)
    : Outline.facts (stmts.map Outline.ofStmt) = Part.facts parts := by
  induction pairs with
  | nil => rfl
  | @cons part stmt parts stmts here _ ih =>
      change _ = part.essence.2.2 ++ Part.facts parts
      rw [List.map_cons, ← List.singleton_append, Outline.facts_append, ih, ← facts_of_isPart here]
      rfl

/-- Imports say nothing else about class names. -/
theorem facts_of_imports (pairs : List.Forall₂ (IsPart source) parts stmts)
    (imports : ∀ stmt ∈ stmts, stmt.isImport = true)
    : Part.facts parts = [] := by
  refine List.flatMap_eq_nil_iff.mpr fun part listed => ?_
  obtain ⟨stmt, inside, isPart⟩ := Pairing.exists_right pairs listed
  have isImport := imports stmt inside
  rw [← isPart.essence_eq]
  unfold Stmt.isImport Stmt.declaration? at isImport
  cases kind : stmt.kind with
  | importing declaration => rfl
  | _ =>
      rw [kind] at isImport
      cases isImport

end

/-- The items before the first namespace are those that are listed before it. -/
theorem SourceFile.beforeNamespace_eq {file : SourceFile} {before : List Stmt} {space : Namespace}
    {rest : List Item} (items : file.items = before.map .plain ++ .scope space :: rest)
    : file.beforeNamespace = before.map .plain := by
  have plain : ∀ item ∈ before.map Item.plain, item.space?.isNone = true := by
    intro item listed
    obtain ⟨stmt, _, rfl⟩ := List.mem_map.mp listed
    rfl
  rw [beforeNamespace, items, List.takeWhile_append_of_pos plain,
    List.takeWhile_cons_of_neg (by simp [Item.space?]), List.append_nil]

namespace Parser.Describes

variable {source : Text} {sheet : Sheet} {file : SourceFile}

theorem entries_eq (describes : Describes source sheet file.items)
    : file.entries = sheet.entries := by
  generalize items : file.items = found at describes
  unfold SourceFile.entries
  rw [items]
  cases describes with
  | flat isParts => exact entries_of_parts isParts
  | @framed frame inside before space after earlier spaced later =>
      have here : Item.other? (.scope space)
          = some (.scope (frame.name?.map Name.segments) frame.braced
            (inside.filterMap Part.other?)) := by
        rw [Item.other?, ← spaced.name_eq, ← spaced.braced_eq, ← filterMap_other? spaced.stmts,
          Option.map_map]
        rfl
      rw [List.filterMap_append, List.filterMap_cons_some here, entries_of_parts earlier,
        entries_of_parts later]
      rfl

/-- The facts of a file are those of its blocks. -/
theorem facts_eq (describes : Describes source sheet file.items) : file.facts = sheet.facts := by
  have plain (stmts : List Stmt)
      : (stmts.map Item.plain).map Outline.ofItem = stmts.map Outline.ofStmt := by
    rw [List.map_map]
    rfl
  generalize items : file.items = found at describes
  unfold SourceFile.facts SourceFile.outline
  rw [items]
  cases describes with
  | flat isParts =>
      rw [plain]
      exact facts_of_parts isParts
  | @framed frame inside before space after earlier spaced later =>
      have here : Node.facts (.item (.scope space)) = [] := rfl
      rw [List.map_append, List.map_cons, plain, plain, Outline.ofItem, Outline.facts_append,
        Outline.facts_node, here, List.nil_append, facts_of_parts earlier,
        facts_of_parts spaced.stmts, facts_of_parts later]
      rfl

/-- The namespace of a file has the name of its frame. -/
theorem spaceSegments?_eq (describes : Describes source sheet file.items)
    : file.spaceSegments? = (sheet.frame?.bind Frame.name?).map Name.segments := by
  unfold SourceFile.spaceSegments?
  cases framed : sheet.frame? with
  | none => rw [(describes.flat_eq framed).1, Option.bind_none, Option.bind_none]; rfl
  | some frame =>
      obtain ⟨space, first, spaced⟩ := describes.space framed
      rw [first, Option.bind_some, Option.bind_some, ← spaced.name_eq, Option.map_map]
      rfl

/-- Before a namespace stand directives only, as far as the check of the header goes. -/
theorem checkStructure_iff (describes : Describes source sheet file.items)
    : file.checkStructure = .ok ()
      ↔ (∀ frame ∈ sheet.frame?, ∀ part ∈ frame.before, part.essence.1 = true)
        ∧ SourceFile.strayImport? file.importScope = none := by
  have contiguous : file.checkContiguous = .ok ()
      ↔ SourceFile.strayImport? file.importScope = none := by
    unfold SourceFile.checkContiguous
    cases SourceFile.strayImport? file.importScope with
    | none => exact iff_of_true rfl rfl
    | some stmt => exact iff_of_false nofun nofun
  generalize items : file.items = found at describes
  cases describes with
  | @flat inside found isParts =>
      have none : file.namespaces = [] := by
        rw [SourceFile.namespaces, items, List.filterMap_map]
        exact List.filterMap_eq_nil_iff.mpr fun _ _ => rfl
      rw [SourceFile.checkStructure, none, contiguous]
      simp
  | @framed frame inside before space after earlier spaced later =>
      have nothing (stmts : List Stmt) : (stmts.map Item.plain).filterMap Item.space? = [] := by
        rw [List.filterMap_map]
        exact List.filterMap_eq_nil_iff.mpr fun _ _ => rfl
      have only : file.namespaces = [space] := by
        have here : Item.space? (.scope space) = some space := rfl
        rw [SourceFile.namespaces, items, List.filterMap_append, nothing,
          List.filterMap_cons_some here, nothing]
        rfl
      have all : (file.beforeNamespace.all fun item => item.stmt?.any Stmt.isDeclare) = true
          ↔ ∀ part ∈ frame.before, part.essence.1 = true := by
        rw [SourceFile.beforeNamespace_eq items, List.all_map, List.all_eq_true]
        constructor
        · intro holds part listed
          obtain ⟨stmt, inside, isPart⟩ := Pairing.exists_right earlier listed
          exact (isDeclare_of_isPart isPart).symm.trans (holds stmt inside)
        · intro holds stmt listed
          obtain ⟨part, inside, isPart⟩ := Pairing.exists_left earlier listed
          exact (isDeclare_of_isPart isPart).trans (holds part inside)
      have framed : (∀ other ∈ some frame, ∀ part ∈ other.before, part.essence.1 = true)
          ↔ ∀ part ∈ frame.before, part.essence.1 = true := by simp
      rw [SourceFile.checkStructure, only, framed, ← all, ← contiguous]
      dsimp only
      split
      · rename_i holds
        exact (and_iff_right holds).symm
      · rename_i fails
        exact iff_of_false nofun fun both => fails both.1

/-- The imports of a file are those of its blocks. -/
theorem imports_eq (describes : Describes source sheet file.items)
    : file.imports.map Import.unplaced = sheet.inside.filterMap Part.import? :=
  filterMap_import? describes.scope

theorem outerImports_eq (describes : Describes source sheet file.items)
    : file.outerImports.map Import.unplaced = sheet.outerImports := by
  cases framed : sheet.frame? with
  | none =>
      rw [SourceFile.outerImports, (describes.flat_eq framed).1, Sheet.outerImports, framed]
      rfl
  | some frame =>
      obtain ⟨space, first, _⟩ := describes.space framed
      rw [SourceFile.outerImports, first]
      have plain (stmts : List Stmt) : (stmts.map Item.plain).filterMap Item.stmt? = stmts := by
        rw [List.filterMap_map]
        exact List.filterMap_some
      generalize file.items = found at describes
      cases describes with
      | flat isParts => cases framed
      | framed earlier spaced later =>
          obtain rfl := Option.some.inj framed
          dsimp only
          rw [List.filterMap_append, List.filterMap_cons_none rfl, plain, plain]
          exact filterMap_import? (List.rel_append earlier later)

end Parser.Describes

-----------------------------------------------------------------------------------------
-- Other places, and other imports
-----------------------------------------------------------------------------------------

theorem Part.entries_map_bare (parts : List Part)
    : Part.entries (parts.map Part.bare) = Part.entries parts := by
  rw [Part.entries, List.filterMap_map]
  rfl

theorem Part.entries_append (left right : List Part)
    : Part.entries (left ++ right) = Part.entries left ++ Part.entries right :=
  List.filterMap_append

/-- What a file holds does not hang on places. -/
theorem Sheet.entries_bare (sheet : Sheet) : sheet.bare.entries = sheet.entries := by
  obtain ⟨frame?, inside⟩ := sheet
  cases frame? with
  | none => exact Part.entries_map_bare inside
  | some frame =>
      have inner : (inside.map Part.bare).filterMap Part.other? = inside.filterMap Part.other? := by
        rw [List.filterMap_map]
        rfl
      change Part.entries (frame.before.map Part.bare) ++ .scope _ _ _
        :: Part.entries (frame.after.map Part.bare) = _
      rw [Part.entries_map_bare, Part.entries_map_bare, Sheet.bare, inner]
      rfl

theorem Sheet.outerImports_bare (sheet : Sheet) : sheet.bare.outerImports = sheet.outerImports := by
  obtain ⟨frame?, inside⟩ := sheet
  cases frame? with
  | none => rfl
  | some frame =>
      change (frame.before.map Part.bare ++ frame.after.map Part.bare).filterMap Part.import?
        = (frame.before ++ frame.after).filterMap Part.import?
      rw [← List.map_append, List.filterMap_map]
      rfl

/-- Other imports in the scope leave those around the namespace. -/
theorem outerImports_redrawn (frame? : Option Frame) (front old back : List Part)
    (declarations : List Import)
    : (redrawn frame? front declarations back).outerImports
      = (⟨frame?, front ++ (old ++ back)⟩ : Sheet).outerImports := by
  cases frame? with
  | none => rfl
  | some frame => rfl

theorem Part.filterMap_other?_of_imports {parts : List Part}
    (imports : ∀ part ∈ parts, part.essence.2.1.isSome = true)
    : parts.filterMap Part.other? = [] := by
  refine List.filterMap_eq_nil_iff.mpr fun part listed => ?_
  rw [Part.other?, if_pos (imports part listed)]

theorem Part.entries_of_imports {parts : List Part}
    (imports : ∀ part ∈ parts, part.essence.2.1.isSome = true)
    : Part.entries parts = [] := by
  refine List.filterMap_eq_nil_iff.mpr fun part listed => ?_
  rw [Part.other?, if_pos (imports part listed)]
  rfl

theorem imports_map_partOf (declarations : List Import)
    : ∀ part ∈ declarations.map partOf, part.essence.2.1.isSome = true := by
  intro part listed
  obtain ⟨declaration, _, rfl⟩ := List.mem_map.mp listed
  rfl

theorem Frame.segments_redrawn (frame : Frame)
    : frame.redrawn.name?.map Name.segments = frame.name?.map Name.segments := by
  change (frame.name?.map Name.imported).map Name.segments = _
  rw [Option.map_map]
  exact congrArg (Option.map · frame.name?) (funext Name.segments_imported)

/-- A file with other imports holds the same besides. -/
theorem entries_redrawn {frame? : Option Frame} {front old back : List Part}
    (imports : ∀ part ∈ old, part.essence.2.1.isSome = true) (declarations : List Import)
    : (redrawn frame? front declarations back).entries
      = (⟨frame?, front ++ (old ++ back)⟩ : Sheet).entries := by
  have imports' := imports_map_partOf declarations
  cases frame? with
  | none =>
      change Part.entries (front ++ (declarations.map partOf ++ back)) = Part.entries _
      simp only [Part.entries_append, Part.entries_of_imports imports,
        Part.entries_of_imports imports']
  | some frame =>
      change Part.entries frame.before ++ .scope (frame.redrawn.name?.map Name.segments)
        frame.braced ((front ++ (declarations.map partOf ++ back)).filterMap Part.other?)
        :: Part.entries frame.after = _
      rw [frame.segments_redrawn, Sheet.entries]
      simp only [List.filterMap_append, Part.filterMap_other?_of_imports imports,
        Part.filterMap_other?_of_imports imports']

/-- A file that is read from the blocks of a redrawn one has its imports. -/
theorem imports_of_redrawn {text : Text} {again : SourceFile} {sheet : Sheet}
    {frame? : Option Frame} {front back : List Part} {declarations : List Import}
    (describes : Describes text sheet again.items)
    (bare : sheet.bare = (redrawn frame? front declarations back).bare) (plain : NoImports front)
    (plain' : NoImports back)
    : again.imports.map Import.unplaced = declarations.map Import.reread := by
  have none {parts : List Part} (noImports : NoImports parts)
      : parts.filterMap Part.import? = [] :=
    List.filterMap_eq_nil_iff.mpr fun part listed => by
      simpa [Part.import?] using noImports part listed
  have bareless (parts : List Part)
      : (parts.map Part.bare).filterMap Part.import? = parts.filterMap Part.import? := by
    rw [List.filterMap_map]
    rfl
  have printed : (declarations.map partOf).filterMap Part.import?
      = declarations.map Import.reread := by
    rw [List.filterMap_map, ← List.filterMap_eq_map]
    rfl
  have same := congrArg Sheet.inside bare
  change sheet.inside.map Part.bare
    = (front ++ (declarations.map partOf ++ back)).map Part.bare at same
  rw [describes.imports_eq, ← bareless, same, bareless, List.filterMap_append,
    List.filterMap_append, none plain, none plain', printed, List.nil_append, List.append_nil]

end ImportHeader
