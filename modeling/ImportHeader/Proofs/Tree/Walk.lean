import ImportHeader.Tree.Outline
import Mathlib.Data.List.Basic

/-! Walks over a file under a control. What stands inside a node is said once, without recursion,
and with it the order of a walk: a node, then what is inside it unless that is skipped, then the
rest. A walk visits a beginning of that order, through the first node that stops it.
-/

namespace ImportHeader

/-- The nodes right inside a node, in order. -/
def Node.children : Node → List Node
  | .item (.plain stmt) =>
      match stmt.kind with
      | .declare exprs | .other exprs => exprs.map .expr
      | .importing declaration => [.importing declaration]
      | .classLike declaration => [.classLike declaration]
      | .function declaration => [.function declaration]
  | .item (.scope space) => space.stmts.map fun stmt => .item (.plain stmt)
  | .importing _ => []
  | .classLike declaration =>
      declaration.attributes.map .expr ++ declaration.arguments.map .expr
        ++ declaration.members.map .member
  | .member (.method declaration) => [.function declaration]
  | .member (.traitUse _ adaptations) => adaptations.map .expr
  | .member (.property attributes type? initializer) =>
      attributes.map .expr ++ type?.toList.map (.type .property) ++ initializer.map .expr
  | .member (.other exprs) => exprs.map .expr
  | .function ⟨_, attributes, params, returnType?, body⟩ =>
      attributes.map .expr ++ params.map .param ++ returnType?.toList.map (.type .result)
        ++ body.map .expr
  | .param ⟨_, attributes, type?, default⟩ =>
      attributes.map .expr ++ type?.toList.map (.type .param) ++ default.map .expr
  | .type _ _ => []
  | .expr (.new _ arguments) | .expr (.attr _ arguments) => arguments.map .expr
  | .expr (.closure declaration) => [.function declaration]
  | .expr (.classLike declaration) => [.classLike declaration]
  | .expr (.staticAccess _) | .expr (.instanceOf _) | .expr (.catches _)
  | .expr (.qualifiedUse _) => []

/-- The nodes of some trees in order, each before those inside it, without those inside a node
that is skipped.
-/
inductive IsPreorder (control : Node → Control) : List Node → List Node → Prop
  | nil : IsPreorder control [] []
  | skip {node rest later} (skips : control node = .skip) (others : IsPreorder control rest later)
    : IsPreorder control (node :: rest) (node :: later)
  | enter {node rest inside later} (enters : control node ≠ .skip)
      (within : IsPreorder control node.children inside) (others : IsPreorder control rest later)
    : IsPreorder control (node :: rest) (node :: (inside ++ later))

/-- Whether a control stops at a node. -/
def Control.stopsAt (control : Node → Control) (node : Node) : Bool :=
  control node == .stop

/-- A control that goes on in the given way where another one stops. -/
def Control.resume (reading : Control) (control : Node → Control) (node : Node) : Control :=
  if control node = .stop then reading else control node

/-- The nodes in order belong to one order only. -/
theorem IsPreorder.unique {control : Node → Control} {nodes sequence other : List Node}
    (isPreorder : IsPreorder control nodes sequence) (isPreorder' : IsPreorder control nodes other)
    : other = sequence := by
  induction isPreorder generalizing other with
  | nil =>
      cases isPreorder'
      rfl
  | skip skips _ ih =>
      cases isPreorder' with
      | skip _ others => rw [ih others]
      | enter enters => exact absurd skips enters
  | enter enters _ _ ih ih' =>
      cases isPreorder' with
      | skip skips => exact absurd skips enters
      | enter _ within others => rw [ih within, ih' others]

namespace Outline

-----------------------------------------------------------------------------------------
-- Outlines as unfolded trees
-----------------------------------------------------------------------------------------

mutual

/-- An outline is the tree below a node. -/
inductive Unfolds : Node → Outline → Prop
  | node {here : Node} {inside : List Outline} (all : UnfoldsAll here.children inside)
    : Unfolds here (.node here inside)

/-- Outlines are the trees below some nodes, in order. -/
inductive UnfoldsAll : List Node → List Outline → Prop
  | nil : UnfoldsAll [] []
  | cons {here : Node} {outline : Outline} {nodes : List Node} {outlines : List Outline}
      (first : Unfolds here outline) (rest : UnfoldsAll nodes outlines)
    : UnfoldsAll (here :: nodes) (outline :: outlines)

end

namespace UnfoldsAll

variable {nodes others : List Node} {outlines more : List Outline}

theorem append (first : UnfoldsAll nodes outlines) (second : UnfoldsAll others more)
    : UnfoldsAll (nodes ++ others) (outlines ++ more) := by
  induction outlines generalizing nodes with
  | nil =>
      cases first
      exact second
  | cons outline outlines ih =>
      obtain _ | ⟨here, rest⟩ := first
      exact .cons here (ih rest)

theorem single {here : Node} {outline : Outline} (unfolds : Unfolds here outline)
    : UnfoldsAll [here] [outline] :=
  .cons unfolds .nil

theorem map {α : Type} {node : α → Node} {outline : α → Outline}
    (each : ∀ x, Unfolds (node x) (outline x)) (xs : List α)
    : UnfoldsAll (xs.map node) (xs.map outline) := by
  induction xs with
  | nil => exact .nil
  | cons x xs ih => exact .cons (each x) ih

theorem type? (role : TypeRole) (hint? : Option TypeHint)
    : UnfoldsAll (hint?.toList.map (.type role)) (ofType? role hint?) := by
  cases hint? with
  | none => exact .nil
  | some hint => exact .single (.node .nil)

end UnfoldsAll

mutual

theorem unfolds_ofExpr : (expr : Expr) → Unfolds (.expr expr) (ofExpr expr)
  | .new _ arguments => .node (unfolds_ofExprs arguments)
  | .staticAccess _ => .node .nil
  | .instanceOf _ => .node .nil
  | .catches _ => .node .nil
  | .attr _ arguments => .node (unfolds_ofExprs arguments)
  | .qualifiedUse _ => .node .nil
  | .closure function => .node (.single (unfolds_ofFunction function))
  | .classLike declaration => .node (.single (unfolds_ofClass declaration))

theorem unfolds_ofExprs : (exprs : List Expr) → UnfoldsAll (exprs.map .expr) (ofExprs exprs)
  | [] => .nil
  | expr :: rest => .cons (unfolds_ofExpr expr) (unfolds_ofExprs rest)

theorem unfolds_ofFunction
    : (function : Function Expr) → Unfolds (.function function) (ofFunction function)
  | ⟨_, attributes, params, returnType?, body⟩ =>
      .node ((((unfolds_ofExprs attributes).append (unfolds_ofParams params)).append
        (.type? .result returnType?)).append (unfolds_ofExprs body))

theorem unfolds_ofParams
    : (params : List (Param Expr)) → UnfoldsAll (params.map .param) (ofParams params)
  | [] => .nil
  | param :: rest => .cons (unfolds_ofParam param) (unfolds_ofParams rest)

theorem unfolds_ofParam : (param : Param Expr) → Unfolds (.param param) (ofParam param)
  | ⟨_, attributes, type?, default⟩ =>
      .node (((unfolds_ofExprs attributes).append (.type? .param type?)).append
        (unfolds_ofExprs default))

theorem unfolds_ofClass
    : (declaration : ClassLike Expr) → Unfolds (.classLike declaration) (ofClass declaration)
  | ⟨_, _, attributes, _, _, arguments, members⟩ =>
      .node (((unfolds_ofExprs attributes).append (unfolds_ofExprs arguments)).append
        (unfolds_ofMembers members))

theorem unfolds_ofMembers
    : (members : List (Member Expr)) → UnfoldsAll (members.map .member) (ofMembers members)
  | [] => .nil
  | member :: rest => .cons (unfolds_ofMember member) (unfolds_ofMembers rest)

theorem unfolds_ofMember : (member : Member Expr) → Unfolds (.member member) (ofMember member)
  | .method function => .node (.single (unfolds_ofFunction function))
  | .traitUse _ adaptations => .node (unfolds_ofExprs adaptations)
  | .property attributes type? initializer =>
      .node (((unfolds_ofExprs attributes).append (.type? .property type?)).append
        (unfolds_ofExprs initializer))
  | .other exprs => .node (unfolds_ofExprs exprs)

end

theorem unfolds_ofStmt (stmt : Stmt) : Unfolds (.item (.plain stmt)) (ofStmt stmt) := by
  obtain ⟨kind, span?, text, comments, trailing?⟩ := stmt
  refine .node ?_
  cases kind with
  | declare exprs => exact unfolds_ofExprs exprs
  | importing declaration => exact .single (.node .nil)
  | classLike declaration => exact .single (unfolds_ofClass declaration)
  | function declaration => exact .single (unfolds_ofFunction declaration)
  | other exprs => exact unfolds_ofExprs exprs

theorem unfolds_ofItem (item : Item) : Unfolds (.item item) (ofItem item) := by
  cases item with
  | plain stmt => exact unfolds_ofStmt stmt
  | scope space => exact .node (.map unfolds_ofStmt space.stmts)

/-- The outline of a file is the tree below its items. -/
theorem unfoldsAll_outline (file : SourceFile)
    : UnfoldsAll (file.items.map .item) file.outline :=
  .map unfolds_ofItem file.items

-----------------------------------------------------------------------------------------
-- The order of the nodes
-----------------------------------------------------------------------------------------

variable (control : Node → Control)

mutual

/-- The nodes of an outline in order, without those inside a node that is skipped. -/
def cut : Outline → List Node
  | .node here inside => here :: if control here = .skip then [] else cutAll inside

/-- The nodes of several outlines in order, without those inside a node that is skipped. -/
def cutAll : List Outline → List Node
  | [] => []
  | outline :: rest => cut outline ++ cutAll rest

end

variable {control} {nodes : List Node}

mutual

theorem isPreorder_cut
    : (outline : Outline) → {here : Node} → {rest later : List Node} → Unfolds here outline
      → IsPreorder control rest later
      → IsPreorder control (here :: rest) (cut control outline ++ later)
  | .node here inside, _, _, _, .node all, others => by
      by_cases skips : control here = .skip
      · rw [cut, if_pos skips]
        exact .skip skips others
      · rw [cut, if_neg skips]
        exact .enter skips (isPreorder_cutAll inside all) others

theorem isPreorder_cutAll
    : (outlines : List Outline) → {nodes : List Node} → UnfoldsAll nodes outlines
      → IsPreorder control nodes (cutAll control outlines)
  | [], _, .nil => .nil
  | outline :: rest, _, .cons first others =>
      isPreorder_cut outline first (isPreorder_cutAll rest others)

end

-----------------------------------------------------------------------------------------
-- What a walk visits
-----------------------------------------------------------------------------------------

/-- A visit of nodes in their order, through the first one that stops it. -/
def visitThrough (control : Node → Control) (nodes : List Node) : Visit :=
  ⟨nodes.take (nodes.findIdx (Control.stopsAt control) + 1), nodes.any (Control.stopsAt control)⟩

theorem visitThrough_cons_of_stop {here : Node} (stops : control here = .stop)
    : visitThrough control (here :: nodes) = ⟨[here], true⟩ := by
  simp [visitThrough, List.findIdx_cons, Control.stopsAt, stops]

theorem visitThrough_cons {here : Node} (goes : control here ≠ .stop)
    : visitThrough control (here :: nodes)
      = ⟨here :: (visitThrough control nodes).nodes, (visitThrough control nodes).stopped⟩ := by
  have passes : Control.stopsAt control here = false := beq_false_of_ne goes
  simp [visitThrough, List.findIdx_cons, passes]

/-- A visit goes on behind nodes that do not stop it. -/
theorem visitThrough_append (nodes later : List Node)
    : visitThrough control (nodes ++ later)
      = if (visitThrough control nodes).stopped then
          visitThrough control nodes
        else
          ⟨(visitThrough control nodes).nodes ++ (visitThrough control later).nodes,
            (visitThrough control later).stopped⟩ := by
  induction nodes with
  | nil => rfl
  | cons here nodes ih =>
      by_cases stops : control here = .stop
      · rw [List.cons_append, visitThrough_cons_of_stop stops, visitThrough_cons_of_stop stops]
        rfl
      · rw [List.cons_append, visitThrough_cons stops, visitThrough_cons stops, ih]
        dsimp only
        split <;> rfl

mutual

theorem walk_eq_visitThrough
    : (outline : Outline) → walk control outline = visitThrough control (cut control outline)
  | .node here inside => by
      rw [walk, cut]
      cases goes : control here with
      | descend =>
          have enters : control here ≠ .stop := by simp [goes]
          rw [if_neg (by simp), visitThrough_cons enters, walkAll_eq_visitThrough inside]
      | skip =>
          have passes : control here ≠ .stop := by simp [goes]
          rw [if_pos rfl, visitThrough_cons passes]
          rfl
      | stop => rw [visitThrough_cons_of_stop goes]

theorem walkAll_eq_visitThrough
    : (outlines : List Outline)
      → walkAll control outlines = visitThrough control (cutAll control outlines)
  | [] => rfl
  | outline :: rest => by
      rw [walkAll, cutAll, visitThrough_append, walk_eq_visitThrough outline,
        walkAll_eq_visitThrough rest]

end

/-- A visit is stopped exactly if one of the visited nodes stops it. -/
theorem visitThrough_stopped_iff (nodes : List Node)
    : (visitThrough control nodes).stopped = true
      ↔ ∃ node ∈ (visitThrough control nodes).nodes, control node = .stop := by
  induction nodes with
  | nil => simp [visitThrough]
  | cons here nodes ih =>
      by_cases stops : control here = .stop
      · rw [visitThrough_cons_of_stop stops]
        simp [stops]
      · rw [visitThrough_cons stops]
        dsimp only
        rw [ih]
        simp [stops]

-----------------------------------------------------------------------------------------
-- Other readings of a stop, and folds
-----------------------------------------------------------------------------------------

theorem resume_of_ne {here : Node} (reading : Control) (goes : control here ≠ .stop)
    : Control.resume reading control here = control here :=
  if_neg goes

mutual

/-- A walk that goes on where another one stops visits what that one does, and maybe more. -/
theorem walk_resume (reading : Control)
    : (outline : Outline)
      → (walk control outline).nodes <+: (walk (reading.resume control) outline).nodes
        ∧ ((walk control outline).stopped = false
          → walk (reading.resume control) outline = walk control outline)
  | .node here inside => by
      by_cases stops : control here = .stop
      · have first (visit : Visit) : [here] <+: here :: visit.nodes :=
          List.cons_prefix_cons.mpr ⟨rfl, List.nil_prefix⟩
        rw [walk, stops]
        refine ⟨?_, nofun⟩
        rw [walk]
        cases reading.resume control here with
        | descend => exact first _
        | skip => exact first ⟨[], false⟩
        | stop => exact first ⟨[], true⟩
      · rw [walk, walk, resume_of_ne reading stops]
        obtain ⟨visits, same⟩ := walkAll_resume reading inside
        cases goes : control here with
        | descend =>
            refine ⟨List.cons_prefix_cons.mpr ⟨rfl, visits⟩, fun through => ?_⟩
            dsimp only at through ⊢
            rw [same through]
        | skip => exact ⟨List.prefix_refl _, fun _ => rfl⟩
        | stop => exact absurd goes stops

theorem walkAll_resume (reading : Control)
    : (outlines : List Outline)
      → (walkAll control outlines).nodes <+: (walkAll (reading.resume control) outlines).nodes
        ∧ ((walkAll control outlines).stopped = false
          → walkAll (reading.resume control) outlines = walkAll control outlines)
  | [] => ⟨List.prefix_refl _, fun _ => rfl⟩
  | outline :: rest => by
      obtain ⟨visits, same⟩ := walk_resume reading outline
      obtain ⟨later, same'⟩ := walkAll_resume reading rest
      rw [walkAll, walkAll]
      cases through : (walk control outline).stopped with
      | true =>
          refine ⟨?_, fun goes => ?_⟩
          · dsimp only
            rw [if_pos rfl]
            split
            · exact visits
            · exact visits.trans (List.prefix_append _ _)
          · dsimp only at goes
            rw [if_pos rfl, through] at goes
            cases goes
      | false =>
          rw [same through]
          dsimp only
          rw [through, if_neg Bool.false_ne_true, if_neg Bool.false_ne_true]
          exact ⟨List.prefix_append_right_inj _ |>.mpr later, fun goes => by rw [same' goes]⟩

end

/-- The step of a fold that gathers nodes under a control. -/
def gather (control : Node → Control) (seen : List Node) (node : Node) : List Node × Control :=
  (seen ++ [node], control node)

mutual

theorem fold_gather
    : (outline : Outline) → (seen : List Node)
      → fold (gather control) seen outline
        = (seen ++ (walk control outline).nodes, (walk control outline).stopped)
  | .node here inside, seen => by
      rw [fold, walk, gather]
      cases control here with
      | descend =>
          dsimp only
          rw [foldAll_gather inside, List.append_assoc]
          rfl
      | skip => rfl
      | stop => rfl

theorem foldAll_gather
    : (outlines : List Outline) → (seen : List Node)
      → foldAll (gather control) seen outlines
        = (seen ++ (walkAll control outlines).nodes, (walkAll control outlines).stopped)
  | [], seen => by rw [foldAll, walkAll, List.append_nil]
  | outline :: rest, seen => by
      rw [foldAll, walkAll, fold_gather outline]
      cases through : (walk control outline).stopped with
      | true =>
          dsimp only
          rw [if_pos rfl, through]
      | false =>
          dsimp only
          rw [foldAll_gather rest, if_neg Bool.false_ne_true, List.append_assoc]

end

end Outline

/-- Under any control a walk visits the nodes of a file in their order, without those inside a node
that is skipped, through the first of them that stops it. It is stopped exactly if it visits a node
that stops it. Where the control goes on in another way, the walk visits the same and maybe more,
and a fold that gathers the nodes gathers those that the walk visits.
-/
theorem SourceFile.walk_follows_control (file : SourceFile) (control : Node → Control)
    : (∃ sequence,
          (∀ other, IsPreorder control (file.items.map .item) other ↔ other = sequence)
          ∧ (file.walk control).nodes
            = sequence.take (sequence.findIdx (Control.stopsAt control) + 1))
      ∧ ((file.walk control).stopped = true
        ↔ ∃ node ∈ (file.walk control).nodes, control node = .stop)
      ∧ (∀ reading : Control,
          (file.walk control).nodes <+: (file.walk (reading.resume control)).nodes)
      ∧ file.fold [] (Outline.gather control) = (file.walk control).nodes := by
  have isPreorder : IsPreorder control (file.items.map .item)
      (Outline.cutAll control file.outline) :=
    Outline.isPreorder_cutAll file.outline (Outline.unfoldsAll_outline file)
  have visits : file.walk control
      = Outline.visitThrough control (Outline.cutAll control file.outline) :=
    Outline.walkAll_eq_visitThrough file.outline
  refine ⟨⟨Outline.cutAll control file.outline, fun other => ?_, ?_⟩, ?_, fun reading => ?_, ?_⟩
  · exact ⟨isPreorder.unique, fun same => same ▸ isPreorder⟩
  · rw [visits]
    rfl
  · rw [visits]
    exact Outline.visitThrough_stopped_iff _
  · exact (Outline.walkAll_resume reading file.outline).1
  · exact congrArg Prod.fst (Outline.foldAll_gather file.outline [])

end ImportHeader
