import ImportHeader.Proofs.Parser.Ledger
import ImportHeader.Proofs.Tree.Places
import Mathlib.Data.List.Infix

/-! Where the class names of a tree come from. A step of the parser finds names among those of the
tokens that it passes, each token once at most. It finds them in the order of the tokens, if closures
capture nothing but variables. Here are the names themselves, and those in types.
-/

namespace ImportHeader

/-- The name that a token spells. -/
def Token.located? (token : Token) : Option LocatedName :=
  if token.kind = .name then LocatedName.read? token.text token.span else none

/-- The names that tokens spell, in order. -/
def namesOf (tokens : List Token) : List LocatedName :=
  tokens.filterMap Token.located?

/-- The kinds of tokens in a list of captured variables. -/
def TokenKind.isCapture (kind : TokenKind) : Bool :=
  kind == .variable || kind == .comma || kind == .ampersand

/-- Whether tokens start with captured variables and the parenthesis behind them. -/
def listsVariables (tokens : List Token) : Bool :=
  (tokens.dropWhile fun token => token.kind.isCapture).head?.any fun token =>
    token.kind == .rightParen

/-- Whether tokens that start with the end of a parameter list and a list of captures have nothing
but variables in it.
-/
def capturesHere : List Token → Bool
  | closing :: keyword :: opening :: inside =>
      !(closing.kind == .rightParen && keyword.isKeyword "use" && opening.kind == .leftParen)
        || listsVariables inside
  | _ => true

/-- Whether closures capture nothing but variables. -/
def capturesVariables (tokens : List Token) : Bool :=
  tokens.tails.all capturesHere

theorem capturesHere_of_suffix {tokens code : List Token} (captures : capturesVariables code = true)
    (later : tokens <:+ code)
    : capturesHere tokens = true :=
  List.all_eq_true.mp captures tokens ((List.mem_tails _ _).mpr later)

namespace Place

/-- The names at some places. -/
def names (places : List Place) : List LocatedName :=
  places.map Prod.fst

@[simp] theorem names_nil : names [] = [] :=
  rfl

@[simp] theorem names_cons (located : LocatedName) (kind : ReferenceKind) (places : List Place)
    : names ((located, kind) :: places) = located :: names places :=
  rfl

@[simp] theorem names_append (left right : List Place)
    : names (left ++ right) = names left ++ names right :=
  List.map_append

@[simp] theorem names_map (located : List LocatedName) (kind : ReferenceKind)
    : names (located.map (·, kind)) = located := by
  rw [names, List.map_map]
  exact List.map_id _

@[simp] theorem names_ofType? (role : TypeRole) (hint? : Option TypeHint)
    : names (ofType? role hint?) = hint?.getD [] :=
  names_map _ _

theorem ofExprs_append (left right : List Expr)
    : ofExprs (left ++ right) = ofExprs left ++ ofExprs right := by
  induction left with
  | nil => rfl
  | cons expr rest ih => rw [List.cons_append, ofExprs, ih, ofExprs, List.append_assoc]

theorem ofParams_append (left right : List (Param Expr))
    : ofParams (left ++ right) = ofParams left ++ ofParams right := by
  induction left with
  | nil => rfl
  | cons param rest ih => rw [List.cons_append, ofParams, ih, ofParams, List.append_assoc]

theorem ofMembers_append (left right : List (Member Expr))
    : ofMembers (left ++ right) = ofMembers left ++ ofMembers right := by
  induction left with
  | nil => rfl
  | cons member rest ih => rw [List.cons_append, ofMembers, ih, ofMembers, List.append_assoc]

end Place

/-- The class names of expressions. -/
def exprNames (exprs : List Expr) : List LocatedName :=
  Place.names (Place.ofExprs exprs)

@[simp] theorem names_ofExprs (exprs : List Expr)
    : Place.names (Place.ofExprs exprs) = exprNames exprs :=
  rfl

@[simp] theorem exprNames_nil : exprNames [] = [] :=
  rfl

@[simp] theorem exprNames_append (left right : List Expr)
    : exprNames (left ++ right) = exprNames left ++ exprNames right := by
  rw [exprNames, Place.ofExprs_append, Place.names_append]
  rfl

@[simp] theorem exprNames_singleton (expr : Expr)
    : exprNames [expr] = Place.names (Place.ofExpr expr) := by
  rw [exprNames, Place.ofExprs, Place.ofExprs, List.append_nil]

namespace Parser

/-- The names that the tokens ahead of a cursor spell. -/
abbrev namesIn (root : Cursor) (mark : EndMark) : Ledger LocatedName where
  root
  mark
  spell := Token.located?
  calm := capturesVariables root.tokens = true

variable {root : Cursor} {mark : EndMark} {bound : Nat} {stack : List TokenKind} {start : Cursor}

-----------------------------------------------------------------------------------------
-- Names and types
-----------------------------------------------------------------------------------------

theorem eq_toList_of_read? {token : Token} {located : LocatedName} (kind : token.kind = .name)
    (read : LocatedName.read? token.text token.span = some located)
    : [located] = token.located?.toList := by
  rw [Token.located?, if_pos kind, read]
  rfl

/-- A name that is read is the one of the token that is passed. -/
theorem keeps_name : Keeps (namesIn root mark) bound stack Option.toList [] name? name? start := by
  have same : (fun found : Option LocatedName => found.toList.flatMap fun located => [located])
      = Option.toList := by
    funext found
    cases found <;> rfl
  rw [← same]
  exact keeps_name? eq_toList_of_read?

theorem keeps_requiredName {what : Expectation}
    : Keeps (namesIn root mark) bound stack (fun name => [name]) [] (expectName what)
        (expectName what) start :=
  keeps_expectName eq_toList_of_read?

theorem keeps_nameList : Keeps (namesIn root mark) bound stack id [] nameList nameList start := by
  refine Keeps.collect strides_nameListTurn (fun _ _ => rfl) fun start =>
    keeps_requiredName.bind fun _ => (skips_eat rfl).after fun {more _} _ => ?_
  cases more with
  | true => exact .pure rfl (List.Sublist.refl _)
  | false => exact .pure rfl (List.Sublist.refl _)

theorem keeps_typeName : Keeps (namesIn root mark) bound stack id [] typeName typeName start := by
  refine keeps_name.bind fun {found _} _ => ?_
  cases found with
  | none => exact .pure rfl (List.nil_sublist _)
  | some located =>
      refine .pure rfl ?_
      split
      · exact List.nil_sublist _
      · exact List.Sublist.refl _

theorem spends_typeGroup
    : Spends (namesIn root mark) bound (.rightParen :: stack) (fun _ => stack) id []
        (collect typeGroupTurn) (collect typeGroupTurn) start := by
  refine Spends.collect strides_typeGroupTurn (fun _ _ => rfl) fun start => .get ?_
  split
  · exact keeps_typeName.bind fun _ => .pure rfl (List.Sublist.refl _)
  · rename_i here
    exact (spends_skip here (.quiet rfl)).after fun _ => .pure rfl (List.nil_sublist _)
  · rename_i here
    exact (spends_skip here (.pop rfl)).after fun _ => .pure rfl (List.nil_sublist _)
  · exact .fail nofun

theorem keeps_typeAtom?
    : Keeps (namesIn root mark) bound stack (·.getD []) [] typeAtom? typeAtom? start := by
  refine (skips_eat rfl).after fun {nullable _} _ =>
    (spends_eat fun _ => .push rfl).after fun {grouped middle} _ => ?_
  cases grouped with
  | true => exact spends_typeGroup.bind fun _ => .pure rfl (List.Sublist.refl _)
  | false =>
      refine .get ?_
      split
      · exact keeps_typeName.bind fun _ => .pure rfl (List.Sublist.refl _)
      split
      · exact .fail nofun
      · exact .pure rfl (List.nil_sublist _)

theorem skips_typeJoint : Skips (namesIn root mark) bound stack typeJoint typeJoint start := by
  refine (skips_eat rfl).after fun {piped _} _ => ?_
  cases piped with
  | true => exact .pure rfl (List.nil_sublist _)
  | false =>
      refine .get ?_
      dsimp only
      split
      · rename_i joins
        have here := eq_of_beq (Bool.and_eq_true_iff.mp joins).1
        exact (spends_skip here (.quiet rfl)).after fun _ => .pure rfl (List.nil_sublist _)
      · exact .pure rfl (List.nil_sublist _)

theorem keeps_types
    : Keeps (namesIn root mark) bound stack List.flatten [] (collect typeTurn) (collect typeTurn)
        start := by
  refine Keeps.collect strides_typeTurn (fun _ _ => List.flatten_append) fun start =>
    keeps_typeAtom?.bind fun {atom? _} _ => ?_
  cases atom? with
  | none => exact .pure rfl (List.nil_sublist _)
  | some names =>
      refine skips_typeJoint.after fun {more _} _ => ?_
      cases more with
      | true => exact .pure rfl (by simp [Turn.found])
      | false => exact .pure rfl (by simp [Turn.found])

theorem keeps_typeHint?
    : Keeps (namesIn root mark) bound stack (·.getD []) [] typeHint? typeHint? start := by
  refine keeps_types.bind fun {found _} _ => ?_
  cases found with
  | nil => exact .pure rfl (List.nil_sublist _)
  | cons names others => exact .pure rfl (List.Sublist.refl _)

theorem keeps_returnType?
    : Keeps (namesIn root mark) bound stack (·.getD []) [] returnType? returnType? start := by
  refine (skips_eat rfl).after fun {announced _} _ => ?_
  cases announced with
  | true => exact keeps_typeHint?
  | false => exact .pure rfl (List.nil_sublist _)

end Parser

end ImportHeader
