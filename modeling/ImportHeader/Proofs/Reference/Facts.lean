import ImportHeader.Proofs.Reference.Extraction
import ImportHeader.Proofs.Tree.Facts

/-! What is extracted from a file, by its facts. The candidates and the declared classes hang on
the facts only, and a name is used if a fact or a doc comment says so. Imports stand at statements
only, so those of a file are the ones of its import scope if there are none outside it.
-/

namespace ImportHeader

/-- The name of a reference that an import can serve. -/
def Fact.candidate? : Fact → Option Name
  | .reference name _ => if name.isImportable then some name else none
  | _ => none

/-- The segment of a name that is only mentioned. -/
def Fact.mention? : Fact → Option Text
  | .mention segment => some segment
  | _ => none

/-- The name of a declared class. -/
def Fact.declared? : Fact → Option Text
  | .declared name => some name
  | _ => none

/-- All facts of a file in order. -/
def SourceFile.facts (file : SourceFile) : List Fact :=
  Outline.facts file.outline

/-- Whether the code of a file uses a local name, doc comments apart. -/
def SourceFile.usesInCode (file : SourceFile) (bound : Text) : Bool :=
  (file.facts.filterMap Fact.candidate?).any (fun name => Text.sameFolded name.first bound)
    || (file.facts.filterMap Fact.mention?).any (Text.sameFolded · bound)

-----------------------------------------------------------------------------------------
-- Extraction by facts
-----------------------------------------------------------------------------------------

theorem Node.filterMap_candidate? (node : Node) (lines : LineIndex)
    : node.facts.filterMap Fact.candidate? = (node.candidates lines).map Reference.name := by
  simp [Node.facts, Node.candidates, List.filterMap_map, List.map_filterMap, Function.comp_def,
    Fact.candidate?, apply_ite]

theorem Node.filterMap_mention? (node : Node)
    : node.facts.filterMap Fact.mention? = node.mention?.toList := by
  simp [Node.facts, List.filterMap_map, Function.comp_def, Fact.mention?]

theorem Node.filterMap_declared? (node : Node)
    : node.facts.filterMap Fact.declared? = node.declared?.toList := by
  simp [Node.facts, List.filterMap_map, Function.comp_def, Fact.declared?]

namespace SourceFile

/-- The candidates of a file are the references among its facts. -/
theorem map_name_candidates (file : SourceFile)
    : file.extract.candidates.map Reference.name = file.facts.filterMap Fact.candidate? := by
  rw [facts, Outline.facts, List.filterMap_flatMap]
  simp only [Node.filterMap_candidate? _ file.lines]
  exact List.map_flatMap

/-- The classes that a file declares are among its facts. -/
theorem declared_eq (file : SourceFile)
    : file.extract.declared = file.facts.filterMap Fact.declared? := by
  rw [facts, Outline.facts, List.filterMap_flatMap]
  simp only [Node.filterMap_declared?]
  exact List.filterMap_eq_flatMap_toList ..

/-- A name is used by the code of a file, or mentioned in a doc comment. -/
theorem uses_eq (file : SourceFile) (bound : Text)
    : file.extract.uses bound
      = (file.usesInCode bound
        || (file.docComments.flatMap DocType.mentions).any (Text.sameFolded · bound)) := by
  have mentioned : file.nodes.filterMap Node.mention? = file.facts.filterMap Fact.mention? := by
    rw [facts, Outline.facts, List.filterMap_flatMap]
    simp only [Node.filterMap_mention?]
    exact List.filterMap_eq_flatMap_toList ..
  rw [usesInCode, ← map_name_candidates, ← mentioned, List.any_map, Bool.or_assoc,
    ← List.any_append]
  rfl

end SourceFile

-----------------------------------------------------------------------------------------
-- Imports stand at statements
-----------------------------------------------------------------------------------------

/-- Whether a node is an import. -/
def Node.isImporting : Node → Bool
  | .importing _ => true
  | _ => false

namespace Outline

/-- No node of some outlines is an import. -/
def ImportFree (outlines : List Outline) : Prop :=
  ∀ node ∈ preorderAll outlines, node.isImporting = false

@[simp] theorem importFree_nil : ImportFree [] :=
  nofun

@[simp] theorem importFree_append (left right : List Outline)
    : ImportFree (left ++ right) ↔ ImportFree left ∧ ImportFree right := by
  simp [ImportFree, preorderAll_append, or_imp, forall_and]

@[simp] theorem importFree_node (here : Node) (inside rest : List Outline)
    : ImportFree (.node here inside :: rest)
      ↔ here.isImporting = false ∧ ImportFree inside ∧ ImportFree rest := by
  simp [ImportFree, preorderAll, preorder, or_imp, forall_and]

theorem importFree_cons (outline : Outline) (rest : List Outline)
    : ImportFree (outline :: rest) ↔ ImportFree [outline] ∧ ImportFree rest :=
  importFree_append [outline] rest

@[simp] theorem importFree_ofType? (role : TypeRole) (hint? : Option TypeHint)
    : ImportFree (ofType? role hint?) := by
  cases hint? with
  | none => exact importFree_nil
  | some hint => simp [ofType?, Node.isImporting]

mutual

theorem importFree_ofExpr : (expr : Expr) → ImportFree [ofExpr expr]
  | .new _ arguments => by simp [ofExpr, Node.isImporting, importFree_ofExprs arguments]
  | .staticAccess _ => by simp [ofExpr, Node.isImporting]
  | .instanceOf _ => by simp [ofExpr, Node.isImporting]
  | .catches _ => by simp [ofExpr, Node.isImporting]
  | .attr _ arguments => by simp [ofExpr, Node.isImporting, importFree_ofExprs arguments]
  | .qualifiedUse _ => by simp [ofExpr, Node.isImporting]
  | .closure function => by simp [ofExpr, Node.isImporting, importFree_ofFunction function]
  | .classLike declaration => by simp [ofExpr, Node.isImporting, importFree_ofClass declaration]

theorem importFree_ofExprs : (exprs : List Expr) → ImportFree (ofExprs exprs)
  | [] => importFree_nil
  | expr :: rest =>
      (importFree_cons _ _).mpr ⟨importFree_ofExpr expr, importFree_ofExprs rest⟩

theorem importFree_ofFunction : (function : Function Expr) → ImportFree [ofFunction function]
  | ⟨_, attributes, params, _, body⟩ => by
      simp [ofFunction, Node.isImporting, importFree_ofExprs attributes,
        importFree_ofParams params, importFree_ofExprs body]

theorem importFree_ofParams : (params : List (Param Expr)) → ImportFree (ofParams params)
  | [] => importFree_nil
  | param :: rest =>
      (importFree_cons _ _).mpr ⟨importFree_ofParam param, importFree_ofParams rest⟩

theorem importFree_ofParam : (param : Param Expr) → ImportFree [ofParam param]
  | ⟨_, attributes, _, default⟩ => by
      simp [ofParam, Node.isImporting, importFree_ofExprs attributes, importFree_ofExprs default]

theorem importFree_ofClass : (declaration : ClassLike Expr) → ImportFree [ofClass declaration]
  | ⟨_, _, attributes, _, _, arguments, members⟩ => by
      simp [ofClass, Node.isImporting, importFree_ofExprs attributes,
        importFree_ofExprs arguments, importFree_ofMembers members]

theorem importFree_ofMembers : (members : List (Member Expr)) → ImportFree (ofMembers members)
  | [] => importFree_nil
  | member :: rest =>
      (importFree_cons _ _).mpr ⟨importFree_ofMember member, importFree_ofMembers rest⟩

theorem importFree_ofMember : (member : Member Expr) → ImportFree [ofMember member]
  | .method function => by simp [ofMember, Node.isImporting, importFree_ofFunction function]
  | .traitUse _ adaptations => by
      simp [ofMember, Node.isImporting, importFree_ofExprs adaptations]
  | .property attributes _ initializer => by
      simp [ofMember, Node.isImporting, importFree_ofExprs attributes,
        importFree_ofExprs initializer]
  | .other exprs => by simp [ofMember, Node.isImporting, importFree_ofExprs exprs]

end

/-- The imports among the nodes of a statement: its own, if it is one. -/
theorem declaration?_of_mem_ofStmt {stmt : Stmt} {declaration : Import}
    (listed : .importing declaration ∈ (ofStmt stmt).preorder)
    : stmt.declaration? = some declaration := by
  rw [ofStmt, preorder, List.mem_cons] at listed
  have inside := listed.resolve_left fun same => by cases same
  unfold Stmt.declaration?
  cases kind : stmt.kind with
  | importing own =>
      rw [kind] at inside
      simpa [preorderAll, preorder, eq_comm] using inside
  | declare exprs =>
      rw [kind] at inside
      cases importFree_ofExprs exprs _ inside
  | other exprs =>
      rw [kind] at inside
      cases importFree_ofExprs exprs _ inside
  | classLike own =>
      rw [kind] at inside
      cases importFree_ofClass own _ inside
  | function own =>
      rw [kind] at inside
      cases importFree_ofFunction own _ inside

theorem exists_of_mem_preorderAll {outlines : List Outline} {node : Node}
    (listed : node ∈ preorderAll outlines)
    : ∃ outline ∈ outlines, node ∈ outline.preorder := by
  induction outlines with
  | nil => cases listed
  | cons outline rest ih =>
      rw [preorderAll, List.mem_append] at listed
      rcases listed with here | later
      · exact ⟨outline, List.mem_cons_self, here⟩
      · obtain ⟨other, inside, holds⟩ := ih later
        exact ⟨other, List.mem_cons_of_mem _ inside, holds⟩

end Outline

namespace SourceFile

/-- The imports among the nodes of a file are those of its statements. -/
theorem exists_stmt_of_mem_nodes {file : SourceFile} {declaration : Import}
    (listed : .importing declaration ∈ file.nodes)
    : ∃ stmt, stmt.declaration? = some declaration
        ∧ (stmt ∈ file.items.filterMap Item.stmt?
          ∨ ∃ space, .scope space ∈ file.items ∧ stmt ∈ space.stmts) := by
  obtain ⟨outline, inside, here⟩ := Outline.exists_of_mem_preorderAll listed
  obtain ⟨item, member, rfl⟩ := List.mem_map.mp inside
  cases item with
  | plain stmt =>
      exact ⟨stmt, Outline.declaration?_of_mem_ofStmt here,
        .inl (List.mem_filterMap.mpr ⟨_, member, rfl⟩)⟩
  | scope space =>
      rw [Outline.ofItem, Outline.preorder, List.mem_cons] at here
      have below := here.resolve_left fun same => by cases same
      obtain ⟨_, stmts, here⟩ := Outline.exists_of_mem_preorderAll below
      obtain ⟨stmt, member', rfl⟩ := List.mem_map.mp stmts
      exact ⟨stmt, Outline.declaration?_of_mem_ofStmt here, .inr ⟨space, member, member'⟩⟩

end SourceFile

end ImportHeader
