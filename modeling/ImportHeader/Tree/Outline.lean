import ImportHeader.Tree

/-! The outline of a file: the tree of all its nodes, each before those inside it. A walk
goes through it in that order and can leave out what is inside a node, or stop.
-/

namespace ImportHeader

/-- What a type is written for. -/
inductive TypeRole where
  | param
  | result
  | property
deriving DecidableEq, Inhabited

/-- Any node of the tree of a file. -/
inductive Node where
  | item (item : Item)
  | importing (declaration : Import)
  | classLike (declaration : ClassLike Expr)
  | member (member : Member Expr)
  | function (function : Function Expr)
  | param (param : Param Expr)
  | type (role : TypeRole) (hint : TypeHint)
  | expr (expr : Expr)

/-- A node and the outlines of what is inside it. -/
inductive Outline where
  | node (here : Node) (inside : List Outline)

namespace Outline

/-- The outline of a type, if one is written. -/
def ofType? (role : TypeRole) (hint? : Option TypeHint) : List Outline :=
  hint?.toList.map fun hint => .node (.type role hint) []

mutual

/-- The outline of an expression. -/
def ofExpr : Expr → Outline
  | .new target arguments => .node (.expr (.new target arguments)) (ofExprs arguments)
  | .staticAccess target => .node (.expr (.staticAccess target)) []
  | .instanceOf target => .node (.expr (.instanceOf target)) []
  | .catches targets => .node (.expr (.catches targets)) []
  | .attr target arguments => .node (.expr (.attr target arguments)) (ofExprs arguments)
  | .qualifiedUse target => .node (.expr (.qualifiedUse target)) []
  | .closure function => .node (.expr (.closure function)) [ofFunction function]
  | .classLike declaration => .node (.expr (.classLike declaration)) [ofClass declaration]

/-- The outlines of expressions in order. -/
def ofExprs : List Expr → List Outline
  | [] => []
  | expr :: rest => ofExpr expr :: ofExprs rest

/-- The outline of a function: attributes, parameters, return type and body. -/
def ofFunction : Function Expr → Outline
  | ⟨name?, attributes, params, returnType?, body⟩ =>
      .node (.function ⟨name?, attributes, params, returnType?, body⟩)
        (ofExprs attributes ++ ofParams params ++ ofType? .result returnType? ++ ofExprs body)

/-- The outlines of parameters in order. -/
def ofParams : List (Param Expr) → List Outline
  | [] => []
  | param :: rest => ofParam param :: ofParams rest

/-- The outline of a parameter: attributes, type and default value. -/
def ofParam : Param Expr → Outline
  | ⟨name, attributes, type?, default⟩ =>
      .node (.param ⟨name, attributes, type?, default⟩)
        (ofExprs attributes ++ ofType? .param type? ++ ofExprs default)

/-- The outline of a class: attributes, constructor arguments and members. -/
def ofClass : ClassLike Expr → Outline
  | ⟨kind, name?, attributes, parents, interfaces, arguments, members⟩ =>
      .node (.classLike ⟨kind, name?, attributes, parents, interfaces, arguments, members⟩)
        (ofExprs attributes ++ ofExprs arguments ++ ofMembers members)

/-- The outlines of members in order. -/
def ofMembers : List (Member Expr) → List Outline
  | [] => []
  | member :: rest => ofMember member :: ofMembers rest

/-- The outline of a member. -/
def ofMember : Member Expr → Outline
  | .method function => .node (.member (.method function)) [ofFunction function]
  | .traitUse traits adaptations =>
      .node (.member (.traitUse traits adaptations)) (ofExprs adaptations)
  | .property attributes type? initializer =>
      .node (.member (.property attributes type? initializer))
        (ofExprs attributes ++ ofType? .property type? ++ ofExprs initializer)
  | .other exprs => .node (.member (.other exprs)) (ofExprs exprs)

end

/-- The outline of a statement. -/
def ofStmt (stmt : Stmt) : Outline :=
  .node (.item (.plain stmt))
    (match stmt.kind with
    | .declare exprs | .other exprs => ofExprs exprs
    | .importing declaration => [.node (.importing declaration) []]
    | .classLike declaration => [ofClass declaration]
    | .function declaration => [ofFunction declaration])

/-- The outline of an item of the top level. -/
def ofItem : Item → Outline
  | .plain stmt => ofStmt stmt
  | .scope space => .node (.item (.scope space)) (space.stmts.map ofStmt)

end Outline

/-- The outlines of the items of a file in order. -/
def SourceFile.outline (file : SourceFile) : List Outline :=
  file.items.map Outline.ofItem

namespace Outline

mutual

/-- The nodes of an outline, each before those inside it. -/
def preorder : Outline → List Node
  | .node here inside => here :: preorderAll inside

/-- The nodes of several outlines in order. -/
def preorderAll : List Outline → List Node
  | [] => []
  | outline :: rest => preorder outline ++ preorderAll rest

end

end Outline

/-- All nodes of a file in order. -/
def SourceFile.nodes (file : SourceFile) : List Node :=
  Outline.preorderAll file.outline

/-- How a walk goes on behind a node: into it, past it, or not at all. -/
inductive Control where
  | descend
  | skip
  | stop
deriving DecidableEq, Inhabited

/-- What a walk has visited, in order, and whether it was stopped. -/
structure Visit where
  nodes : List Node
  stopped : Bool

namespace Outline

mutual

/-- Walks an outline under a control. -/
def walk (control : Node → Control) : Outline → Visit
  | .node here inside =>
      match control here with
      | .descend =>
          let visit := walkAll control inside
          ⟨here :: visit.nodes, visit.stopped⟩
      | .skip => ⟨[here], false⟩
      | .stop => ⟨[here], true⟩

/-- Walks several outlines in order, until one stops. -/
def walkAll (control : Node → Control) : List Outline → Visit
  | [] => ⟨[], false⟩
  | outline :: rest =>
      let visit := walk control outline
      if visit.stopped then
        visit
      else
        let others := walkAll control rest
        ⟨visit.nodes ++ others.nodes, others.stopped⟩

end

mutual

/-- Threads a state through the nodes of an outline; each step also says how to go on. The
flag tells whether a step stopped.
-/
def fold {σ : Type} (step : σ → Node → σ × Control) (state : σ) : Outline → σ × Bool
  | .node here inside =>
      match step state here with
      | (next, .descend) => foldAll step next inside
      | (next, .skip) => (next, false)
      | (next, .stop) => (next, true)

/-- Threads a state through several outlines in order, until a step stops. -/
def foldAll {σ : Type} (step : σ → Node → σ × Control) (state : σ)
    : List Outline → σ × Bool
  | [] => (state, false)
  | outline :: rest =>
      match fold step state outline with
      | (next, true) => (next, true)
      | (next, false) => foldAll step next rest

end

end Outline

namespace SourceFile

/-- Walks all nodes of a file in order under a control. -/
def walk (file : SourceFile) (control : Node → Control) : Visit :=
  Outline.walkAll control file.outline

/-- Threads a state through the nodes of a file in order. -/
def fold {σ : Type} (file : SourceFile) (state : σ) (step : σ → Node → σ × Control) : σ :=
  (Outline.foldAll step state file.outline).1

end SourceFile

end ImportHeader
