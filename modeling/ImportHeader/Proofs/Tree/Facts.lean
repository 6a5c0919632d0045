import ImportHeader.Reference.Extraction

/-! What a file says about class names, without the places where it says so. The facts of a
part of the tree are those of its nodes in order, and what is extracted from a file hangs on
its facts, its doc comments and its imports only.
-/

namespace ImportHeader

/-- What one node says about class names, wherever it stands. -/
inductive Fact where
  | reference (name : Name) (kind : ReferenceKind)
  | mention (segment : Text)
  | declared (name : Text)
deriving DecidableEq

/-- The facts at a node itself, not inside it. -/
def Node.facts (node : Node) : List Fact :=
  node.references.map (fun (located, kind) => .reference located.name kind)
    ++ node.mention?.toList.map .mention ++ node.declared?.toList.map .declared

namespace Outline

/-- The facts of outlines in order. -/
def facts (outlines : List Outline) : List Fact :=
  (preorderAll outlines).flatMap Node.facts

theorem preorderAll_append (left right : List Outline)
    : preorderAll (left ++ right) = preorderAll left ++ preorderAll right := by
  induction left with
  | nil => rfl
  | cons outline rest ih => simp [preorderAll, ih]

@[simp] theorem facts_nil : facts [] = [] :=
  rfl

@[simp] theorem facts_append (left right : List Outline)
    : facts (left ++ right) = facts left ++ facts right := by
  simp [facts, preorderAll_append]

@[simp] theorem facts_node (here : Node) (inside rest : List Outline)
    : facts (.node here inside :: rest) = here.facts ++ facts inside ++ facts rest := by
  simp [facts, preorderAll, preorder]

theorem ofExprs_append (left right : List Expr)
    : ofExprs (left ++ right) = ofExprs left ++ ofExprs right := by
  induction left with
  | nil => rfl
  | cons expr rest ih => simp [ofExprs, ih]

end Outline

open Outline

attribute [local simp] ofExpr ofExprs ofFunction ofParam ofClass ofMember ofType? Node.facts
  Node.references Node.mention? Node.declared?

/-- The facts of expressions in order. -/
def exprFacts (exprs : List Expr) : List Fact :=
  facts (ofExprs exprs)

/-- The facts of a written type. -/
def hintFacts (role : TypeRole) (hint? : Option TypeHint) : List Fact :=
  facts (ofType? role hint?)

/-- The facts of a function. -/
def Function.facts (function : Function Expr) : List Fact :=
  Outline.facts [ofFunction function]

/-- The facts of a parameter. -/
def Param.facts (param : Param Expr) : List Fact :=
  Outline.facts [ofParam param]

/-- The facts of a class. -/
def ClassLike.facts (declaration : ClassLike Expr) : List Fact :=
  Outline.facts [ofClass declaration]

/-- The facts of a member. -/
def Member.facts (member : Member Expr) : List Fact :=
  Outline.facts [ofMember member]

/-- The facts of a statement. -/
def Stmt.facts (stmt : Stmt) : List Fact :=
  Outline.facts [ofStmt stmt]

@[simp] theorem exprFacts_nil : exprFacts [] = [] :=
  rfl

@[simp] theorem exprFacts_append (left right : List Expr)
    : exprFacts (left ++ right) = exprFacts left ++ exprFacts right := by
  simp [exprFacts, ofExprs_append]

theorem exprFacts_eq_flatMap (exprs : List Expr)
    : exprs.flatMap (fun expr => exprFacts [expr]) = exprFacts exprs := by
  induction exprs with
  | nil => rfl
  | cons expr rest ih => rw [List.flatMap_cons, ih, ← exprFacts_append]; rfl

theorem hintFacts_eq (role : TypeRole) (hint? : Option TypeHint)
    : hintFacts role hint?
      = (hint?.map (List.map LocatedName.name)).toList.flatMap fun names =>
          names.map (Fact.reference · role.referenceKind) := by
  cases hint? with
  | none => rfl
  | some hint =>
      simp [hintFacts]

theorem facts_ofParams (params : List (Param Expr))
    : Outline.facts (ofParams params) = params.flatMap Param.facts := by
  induction params with
  | nil => rfl
  | cons param rest ih =>
      rw [List.flatMap_cons, ← ih]
      exact facts_append [ofParam param] (ofParams rest)

theorem facts_ofMembers (members : List (Member Expr))
    : Outline.facts (ofMembers members) = members.flatMap Member.facts := by
  induction members with
  | nil => rfl
  | cons member rest ih =>
      rw [List.flatMap_cons, ← ih]
      exact facts_append [ofMember member] (ofMembers rest)

theorem Param.facts_eq (param : Param Expr)
    : param.facts
      = exprFacts param.attributes ++ hintFacts .param param.type?
        ++ exprFacts param.default := by
  obtain ⟨name, attributes, type?, default⟩ := param
  simp [Param.facts, exprFacts, hintFacts]

theorem Function.facts_eq (function : Function Expr)
    : function.facts
      = exprFacts function.attributes ++ function.params.flatMap Param.facts
        ++ hintFacts .result function.returnType? ++ exprFacts function.body := by
  obtain ⟨name?, attributes, params, returnType?, body⟩ := function
  simp [Function.facts, exprFacts, hintFacts, facts_ofParams]

theorem ClassLike.facts_eq (declaration : ClassLike Expr)
    : declaration.facts
      = (declaration.parents.map LocatedName.name).map (Fact.reference · .parent)
        ++ (declaration.interfaces.map LocatedName.name).map (Fact.reference · .interface)
        ++ declaration.name?.toList.map .declared ++ exprFacts declaration.attributes
        ++ exprFacts declaration.arguments ++ declaration.members.flatMap Member.facts := by
  obtain ⟨kind, name?, attributes, parents, interfaces, arguments, members⟩ := declaration
  simp [ClassLike.facts, exprFacts, facts_ofMembers, Function.comp_def]

theorem Member.facts_method (function : Function Expr)
    : (Member.method function).facts = function.facts := by
  simp [Member.facts, Function.facts]

theorem Member.facts_traitUse (traits : List LocatedName) (adaptations : List Expr)
    : (Member.traitUse traits adaptations).facts
      = (traits.map LocatedName.name).map (Fact.reference · .traitUse)
        ++ exprFacts adaptations := by
  simp [Member.facts, exprFacts, Function.comp_def]

theorem Member.facts_property (attributes : List Expr) (type? : Option TypeHint)
    (initializer : List Expr)
    : (Member.property attributes type? initializer).facts
      = exprFacts attributes ++ hintFacts .property type? ++ exprFacts initializer := by
  simp [Member.facts, exprFacts, hintFacts]

theorem Member.facts_other (exprs : List Expr)
    : (Member.other exprs).facts = exprFacts exprs := by
  simp [Member.facts, exprFacts]

theorem exprFacts_new (target : LocatedName) (arguments : List Expr)
    : exprFacts [.new target arguments]
      = .reference target.name .creation :: exprFacts arguments := by
  simp [exprFacts]

theorem exprFacts_attr (target : LocatedName) (arguments : List Expr)
    : exprFacts [.attr target arguments]
      = .reference target.name .attr :: exprFacts arguments := by
  simp [exprFacts]

theorem exprFacts_staticAccess (target : LocatedName)
    : exprFacts [.staticAccess target] = [.reference target.name .staticAccess] := by
  simp [exprFacts]

theorem exprFacts_instanceOf (target : LocatedName)
    : exprFacts [.instanceOf target] = [.reference target.name .instanceOf] := by
  simp [exprFacts]

theorem exprFacts_qualifiedUse (target : LocatedName)
    : exprFacts [.qualifiedUse target] = [.mention target.name.first] := by
  simp [exprFacts]

theorem exprFacts_catches (targets : List LocatedName)
    : exprFacts [.catches targets]
      = (targets.map LocatedName.name).map (Fact.reference · .caught) := by
  simp [exprFacts, Function.comp_def]

theorem exprFacts_closure (function : Function Expr)
    : exprFacts [.closure function] = function.facts := by
  simp [exprFacts, Function.facts]

theorem exprFacts_classLike (declaration : ClassLike Expr)
    : exprFacts [.classLike declaration] = declaration.facts := by
  simp [exprFacts, ClassLike.facts]

end ImportHeader
