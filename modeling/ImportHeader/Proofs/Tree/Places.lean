import ImportHeader.Proofs.Tree.Facts
import Mathlib.Data.List.Perm.Basic

/-! The class names of a file in the order of the source, read off the tree directly. The walk over
the nodes meets each of them once. It meets them in the same order, but for the names of a class
that stand before those that it extends and implements.
-/

namespace ImportHeader

/-- A class name with where it stands, and what it is used for. -/
abbrev Place := LocatedName × ReferenceKind

namespace Place

/-- Whether an import can serve the name at a place. -/
def isImportable (place : Place) : Bool :=
  place.1.name.isImportable

/-- The class names of a type, if one is written. -/
def ofType? (role : TypeRole) (hint? : Option TypeHint) : List Place :=
  (hint?.getD []).map (·, role.referenceKind)

mutual

/-- The class names of an expression. -/
def ofExpr : Expr → List Place
  | .new target arguments => (target, .creation) :: ofExprs arguments
  | .staticAccess target => [(target, .staticAccess)]
  | .instanceOf target => [(target, .instanceOf)]
  | .catches targets => targets.map (·, .caught)
  | .attr target arguments => (target, .attr) :: ofExprs arguments
  | .qualifiedUse _ => []
  | .closure function => ofFunction function
  | .classLike declaration => ofClass declaration

/-- The class names of expressions in order. -/
def ofExprs : List Expr → List Place
  | [] => []
  | expr :: rest => ofExpr expr ++ ofExprs rest

/-- The class names of a function: attributes, parameters, return type and body. -/
def ofFunction : Function Expr → List Place
  | ⟨_, attributes, params, returnType?, body⟩ =>
      ofExprs attributes ++ (ofParams params ++ (ofType? .result returnType? ++ ofExprs body))

/-- The class names of parameters in order. -/
def ofParams : List (Param Expr) → List Place
  | [] => []
  | param :: rest => ofParam param ++ ofParams rest

/-- The class names of a parameter: attributes, type and default value. -/
def ofParam : Param Expr → List Place
  | ⟨_, attributes, type?, default⟩ =>
      ofExprs attributes ++ (ofType? .param type? ++ ofExprs default)

/-- The class names of a class: attributes, constructor arguments, what it extends and implements,
and members.
-/
def ofClass : ClassLike Expr → List Place
  | ⟨_, _, attributes, parents, interfaces, arguments, members⟩ =>
      ofExprs attributes ++ (ofExprs arguments
        ++ (parents.map (·, .parent) ++ (interfaces.map (·, .interface) ++ ofMembers members)))

/-- The class names of members in order. -/
def ofMembers : List (Member Expr) → List Place
  | [] => []
  | member :: rest => ofMember member ++ ofMembers rest

/-- The class names of a member. -/
def ofMember : Member Expr → List Place
  | .method function => ofFunction function
  | .traitUse traits adaptations => traits.map (·, .traitUse) ++ ofExprs adaptations
  | .property attributes type? initializer =>
      ofExprs attributes ++ (ofType? .property type? ++ ofExprs initializer)
  | .other exprs => ofExprs exprs

end

/-- The class names of a statement. Imports name no class that is used. -/
def ofStmt (stmt : Stmt) : List Place :=
  match stmt.kind with
  | .declare exprs | .other exprs => ofExprs exprs
  | .importing _ => []
  | .classLike declaration => ofClass declaration
  | .function declaration => ofFunction declaration

/-- The class names of an item of the top level. -/
def ofItem : Item → List Place
  | .plain stmt => ofStmt stmt
  | .scope space => space.stmts.flatMap ofStmt

end Place

/-- The class names of a file in the order of the source. -/
def SourceFile.places (file : SourceFile) : List Place :=
  file.items.flatMap Place.ofItem

/-- Whether a class that extends or implements classes that an import can serve has none of those
before them, in its attributes or constructor arguments.
-/
def ClassLike.isOrdered (declaration : ClassLike Expr) : Bool :=
  !(Place.ofExprs declaration.attributes ++ Place.ofExprs declaration.arguments).any
      Place.isImportable
    || !(declaration.parents ++ declaration.interfaces).any fun located =>
      located.name.isImportable

/-- Whether a walk meets the names of a node that an import can serve in the order of the source.
-/
def Node.isOrdered : Node → Bool
  | .classLike declaration => declaration.isOrdered
  | _ => true

theorem ClassLike.filter_eq_nil {declaration : ClassLike Expr}
    (ordered : declaration.isOrdered = true)
    : (Place.ofExprs declaration.attributes ++ Place.ofExprs declaration.arguments).filter
          Place.isImportable = []
      ∨ (Node.classLike declaration).references.filter Place.isImportable = [] := by
  rcases Bool.or_eq_true_iff.mp ordered with none | none
  · rw [Bool.not_eq_true', List.any_eq_false] at none
    exact .inl (List.filter_eq_nil_iff.mpr none)
  · rw [Bool.not_eq_true', List.any_eq_false] at none
    obtain ⟨parents, interfaces⟩ := List.forall_mem_append.mp none
    exact .inr (List.filter_eq_nil_iff.mpr (List.forall_mem_append.mpr
      ⟨List.forall_mem_map.mpr parents, List.forall_mem_map.mpr interfaces⟩))

namespace Outline

-----------------------------------------------------------------------------------------
-- The walk and the places
-----------------------------------------------------------------------------------------

/-- The class names that a walk meets, in its order. -/
def references (outlines : List Outline) : List Place :=
  (preorderAll outlines).flatMap Node.references

theorem references_append (left right : List Outline)
    : references (left ++ right) = references left ++ references right := by
  rw [references, preorderAll_append, List.flatMap_append]
  rfl

theorem references_node (here : Node) (inside : List Outline)
    : references [.node here inside] = here.references ++ references inside := by
  simp [references, preorderAll, preorder]

/-- A walk meets the given places, each once, and those that an import can serve in their order if
all nodes are in order.
-/
structure Meets (outlines : List Outline) (places : List Place) : Prop where
  perm : (references outlines).Perm places
  order
    : (∀ node ∈ preorderAll outlines, node.isOrdered = true)
      → (references outlines).filter Place.isImportable = places.filter Place.isImportable

namespace Meets

variable {outlines others : List Outline} {places more : List Place} {here : Node}

theorem nil : Meets [] [] :=
  ⟨.nil, fun _ => rfl⟩

theorem append (first : Meets outlines places) (second : Meets others more)
    : Meets (outlines ++ others) (places ++ more) := by
  refine ⟨?_, fun ordered => ?_⟩
  · rw [references_append]
    exact first.perm.append second.perm
  · rw [preorderAll_append] at ordered
    obtain ⟨here, later⟩ := List.forall_mem_append.mp ordered
    rw [references_append, List.filter_append, List.filter_append, first.order here,
      second.order later]

theorem cons {outline : Outline} (first : Meets [outline] places) (second : Meets others more)
    : Meets (outline :: others) (places ++ more) :=
  first.append second

/-- A node meets its own places before those inside it. -/
theorem node (here : Node) (inside : Meets outlines places)
    : Meets [.node here outlines] (here.references ++ places) := by
  refine ⟨?_, fun ordered => ?_⟩
  · rw [references_node]
    exact inside.perm.append_left _
  · rw [preorderAll, preorderAll, preorder, List.append_nil] at ordered
    obtain ⟨_, later⟩ := List.forall_mem_cons.mp ordered
    rw [references_node, List.filter_append, List.filter_append, inside.order later]

/-- A node that stands for nothing but what is inside it. -/
theorem wrap (inside : Meets outlines places) (none : here.references = [])
    : Meets [.node here outlines] places := by
  have meets := inside.node here
  rwa [none, List.nil_append] at meets

theorem type? (role : TypeRole) (hint? : Option TypeHint)
    : Meets (ofType? role hint?) (Place.ofType? role hint?) := by
  cases hint? with
  | none => exact nil
  | some hint =>
      have meets := nil.node (.type role hint)
      rwa [List.append_nil] at meets

/-- A node can have its own places behind some of those inside it, if only one of the two lists
holds names that an import can serve.
-/
theorem behind (here : Node) {inside : List Outline} {before : List Place}
    (first : Meets outlines before) (second : Meets inside more)
    (apart
      : here.isOrdered = true
        → before.filter Place.isImportable = [] ∨ here.references.filter Place.isImportable = [])
    : Meets [.node here (outlines ++ inside)] (before ++ (here.references ++ more)) := by
  refine ⟨?_, fun ordered => ?_⟩
  · rw [references_node, references_append, ← List.append_assoc, ← List.append_assoc]
    exact (List.perm_append_comm.trans (first.perm.append_right _)).append second.perm
  · rw [preorderAll, preorderAll, preorder, List.append_nil, preorderAll_append] at ordered
    obtain ⟨orderly, later⟩ := List.forall_mem_cons.mp ordered
    obtain ⟨early, late⟩ := List.forall_mem_append.mp later
    rw [references_node, references_append]
    simp only [List.filter_append, first.order early, second.order late]
    rcases apart orderly with none | none
    · rw [none, List.nil_append, List.nil_append]
    · rw [none, List.nil_append, List.nil_append]

end Meets

mutual

theorem meets_ofExpr : (expr : Expr) → Meets [ofExpr expr] (Place.ofExpr expr)
  | .new _ arguments => (meets_ofExprs arguments).node _
  | .staticAccess _ => Meets.nil.node _
  | .instanceOf _ => Meets.nil.node _
  | .catches targets => by
      have meets := Meets.nil.node (.expr (.catches targets))
      rwa [List.append_nil] at meets
  | .attr _ arguments => (meets_ofExprs arguments).node _
  | .qualifiedUse _ => Meets.nil.wrap rfl
  | .closure function => (meets_ofFunction function).wrap rfl
  | .classLike declaration => (meets_ofClass declaration).wrap rfl

theorem meets_ofExprs : (exprs : List Expr) → Meets (ofExprs exprs) (Place.ofExprs exprs)
  | [] => .nil
  | expr :: rest => (meets_ofExpr expr).cons (meets_ofExprs rest)

theorem meets_ofFunction
    : (function : Function Expr) → Meets [ofFunction function] (Place.ofFunction function)
  | ⟨_, attributes, params, returnType?, body⟩ => by
      refine Meets.wrap ?_ rfl
      rw [List.append_assoc, List.append_assoc]
      exact (meets_ofExprs attributes).append ((meets_ofParams params).append
        ((Meets.type? .result returnType?).append (meets_ofExprs body)))

theorem meets_ofParams
    : (params : List (Param Expr)) → Meets (ofParams params) (Place.ofParams params)
  | [] => .nil
  | param :: rest => (meets_ofParam param).cons (meets_ofParams rest)

theorem meets_ofParam : (param : Param Expr) → Meets [ofParam param] (Place.ofParam param)
  | ⟨_, attributes, type?, default⟩ => by
      refine Meets.wrap ?_ rfl
      rw [List.append_assoc]
      exact (meets_ofExprs attributes).append
        ((Meets.type? .param type?).append (meets_ofExprs default))

theorem meets_ofClass
    : (declaration : ClassLike Expr) → Meets [ofClass declaration] (Place.ofClass declaration)
  | ⟨kind, name?, attributes, parents, interfaces, arguments, members⟩ => by
      have meets := Meets.behind
        (.classLike ⟨kind, name?, attributes, parents, interfaces, arguments, members⟩)
        ((meets_ofExprs attributes).append (meets_ofExprs arguments)) (meets_ofMembers members)
        ClassLike.filter_eq_nil
      rw [Node.references] at meets
      simp only [List.append_assoc] at meets
      rw [ofClass, Place.ofClass, List.append_assoc]
      exact meets

theorem meets_ofMembers
    : (members : List (Member Expr)) → Meets (ofMembers members) (Place.ofMembers members)
  | [] => .nil
  | member :: rest => (meets_ofMember member).cons (meets_ofMembers rest)

theorem meets_ofMember
    : (member : Member Expr) → Meets [ofMember member] (Place.ofMember member)
  | .method function => (meets_ofFunction function).wrap rfl
  | .traitUse _ adaptations => (meets_ofExprs adaptations).node _
  | .property attributes type? initializer => by
      refine Meets.wrap ?_ rfl
      rw [List.append_assoc]
      exact (meets_ofExprs attributes).append
        ((Meets.type? .property type?).append (meets_ofExprs initializer))
  | .other exprs => (meets_ofExprs exprs).wrap rfl

end

theorem meets_ofStmt (stmt : Stmt) : Meets [ofStmt stmt] (Place.ofStmt stmt) := by
  refine Meets.wrap ?_ rfl
  unfold Place.ofStmt
  cases stmt.kind with
  | declare exprs => exact meets_ofExprs exprs
  | importing declaration => exact Meets.nil.wrap rfl
  | classLike declaration => exact meets_ofClass declaration
  | function declaration => exact meets_ofFunction declaration
  | other exprs => exact meets_ofExprs exprs

/-- What holds of each of some things holds of all of them in order. -/
theorem meets_map {α : Type} {outline : α → Outline} {places : α → List Place}
    (each : ∀ x, Meets [outline x] (places x)) (xs : List α)
    : Meets (xs.map outline) (xs.flatMap places) := by
  induction xs with
  | nil => exact .nil
  | cons x xs ih =>
      rw [List.map_cons, List.flatMap_cons]
      exact (each x).cons ih

theorem meets_ofItem (item : Item) : Meets [ofItem item] (Place.ofItem item) := by
  cases item with
  | plain stmt => exact meets_ofStmt stmt
  | scope space => exact (meets_map meets_ofStmt space.stmts).wrap rfl

end Outline

/-- A walk over a file meets its class names, each once. -/
theorem SourceFile.meets_places (file : SourceFile) : Outline.Meets file.outline file.places :=
  Outline.meets_map Outline.meets_ofItem file.items

end ImportHeader
