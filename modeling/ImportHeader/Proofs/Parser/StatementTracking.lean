import ImportHeader.Proofs.Parser.ClassTracking

/-! Imports and statements follow themselves: before alike tokens a statement is of the same
sort, imports the same names and holds the same facts.
-/

namespace ImportHeader

/-- An item without its place. -/
def ImportItem.unplaced (item : ImportItem) : ImportItem :=
  { item with span? := none }

/-- An import without the places of its items. -/
def Import.unplaced (declaration : Import) : Import :=
  { declaration with items := declaration.items.map ImportItem.unplaced }

/-- What counts of a statement: whether it is a directive, what it imports, and its facts. -/
def StmtKind.essence : StmtKind → Bool × Option Import × List Fact
  | .declare exprs => (true, none, exprFacts exprs)
  | .importing declaration => (false, some declaration.unplaced, [])
  | .classLike declaration => (false, none, declaration.facts)
  | .function declaration => (false, none, declaration.facts)
  | .other exprs => (false, none, exprFacts exprs)

namespace Parser

variable {bound : Nat}

/-- What counts of an item. -/
def itemOnly (item : ImportItem) : List ImportItem :=
  [item.unplaced]

theorem flatMap_itemOnly (items : List ImportItem)
    : items.flatMap itemOnly = items.map ImportItem.unplaced :=
  List.map_eq_flatMap.symm

theorem tracks_importKind? : Tracks bound id importKind? importKind? := by
  refine .get fun {count start start'} within near => ?_
  rw [near.atKeyword_eq, near.atKeyword_eq]
  -- What stands behind the next token counts only if that one is a keyword.
  by_cases keyword : start.isKeyword 0 ["function", "const"] = true
  · have one := near.lt_of_isKeyword (Nat.zero_le _) keyword (by decide)
    rw [near.kind?_eq_of_le one]
    split
    · exact Tracks.pure rfl within near
    split
    · exact Tracks.skip.bind (fun _ => .pure rfl) within near
    split
    · exact Tracks.skip.bind (fun _ => .pure rfl) within near
    · exact Tracks.pure rfl within near
  · have neither
        : start.atKeyword "function" = false ∧ start.atKeyword "const" = false := by
      unfold Cursor.atKeyword
      cases next : start.token? 0 with
      | none => simp [Cursor.isKeyword, next]
      | some token => simpa [Cursor.isKeyword, next] using keyword
    rw [neither.1, neither.2]
    simp only [Bool.false_eq_true, if_false, ite_self]
    exact Tracks.pure rfl within near

theorem tracks_alias? : Tracks bound id alias? alias? := by
  refine tracks_eatKeyword.bind fun {renamed renamed'} same => ?_
  obtain rfl : renamed' = renamed := same
  split
  · refine tracks_name?.bind fun {found found'} same => .pure ?_
    have lasts := congrArg (Option.map Name.last) same
    simpa [Option.map_map, Function.comp_def] using lasts
  · exact .pure rfl

theorem tracks_importItem {located located' : LocatedName} {kind? : Option ImportKind}
    (named : located'.name = located.name)
    : Tracks bound ImportItem.unplaced (importItem located kind?)
        (importItem located' kind?) := by
  refine tracks_alias?.bind fun {alias? alias?'} same => ?_
  obtain rfl : alias?' = alias? := same
  refine .get fun within near => Tracks.pure ?_ within near
  rw [named]
  rfl

theorem tracks_importListTurn
    : Tracks bound (Turn.shown itemOnly) importListTurn importListTurn := by
  refine tracks_expectName.bind fun named => (tracks_importItem named).bind fun item => ?_
  refine tracks_eat.bind fun {more more'} same => ?_
  obtain rfl : more' = more := same
  split
  · exact .pure (by simp [Turn.shown, itemOnly, item])
  · exact .pure (by simp [Turn.shown, itemOnly, item])

theorem tracks_importGroupTurn
    : Tracks bound (Turn.shown itemOnly) importGroupTurn importGroupTurn := by
  refine tracks_eat.bind fun {closed closed'} same => ?_
  obtain rfl : closed' = closed := same
  split
  · exact .pure rfl
  refine tracks_importKind?.bind fun {kind? kind?'} same => ?_
  obtain rfl : kind?' = kind? := same
  refine tracks_expectName.bind fun named => (tracks_importItem named).bind fun item => ?_
  refine tracks_eat.bind fun {more more'} same => ?_
  obtain rfl : more' = more := same
  split
  · exact .pure (by simp [Turn.shown, itemOnly, item])
  · exact Tracks.expect.bind fun _ => .pure (by simp [Turn.shown, itemOnly, item])

theorem tracks_otherItems : Tracks bound (List.flatMap itemOnly) otherItems otherItems := by
  refine tracks_eat.bind fun {more more'} same => ?_
  obtain rfl : more' = more := same
  split
  · exact .collect strides_importListTurn tracks_importListTurn
  · exact .pure rfl

theorem tracks_importNames {kind : ImportKind}
    : Tracks bound Import.unplaced (importNames kind) (importNames kind) := by
  refine tracks_expectName.bind fun {first first'} named => ?_
  refine .get fun {count start start'} within near => ?_
  have grouped
      : (start'.isAt .backslash && start'.kind? 1 == some .leftBrace)
        = (start.isAt .backslash && start.kind? 1 == some .leftBrace) := by
    rw [near.isAt_eq]
    cases here : start.isAt .backslash with
    | false => rfl
    | true =>
        have one := near.lt_of_kind? (Nat.zero_le _) (eq_of_beq here) (by decide)
        rw [near.kind?_eq_of_le one]
  rw [grouped]
  split
  · refine Tracks.skip.bind (fun _ => Tracks.skip.bind fun _ => ?_) within near
    refine (Tracks.collect strides_importGroupTurn tracks_importGroupTurn).bind
      fun items => .pure ?_
    rw [flatMap_itemOnly, flatMap_itemOnly] at items
    simp only [Import.unplaced, items, named]
  · refine (tracks_importItem named).bind (fun item => ?_) within near
    refine tracks_otherItems.bind fun items => .pure ?_
    rw [flatMap_itemOnly, flatMap_itemOnly] at items
    simp only [Import.unplaced, List.map_cons, items, item]

theorem tracks_importing : Tracks bound Import.unplaced importing importing := by
  refine Tracks.skip.bind fun _ => tracks_importKind?.bind fun {kind? kind?'} same => ?_
  obtain rfl : kind?' = kind? := same
  exact tracks_importNames.bind fun same => Tracks.expect.bind fun _ => .pure same

theorem tracks_stmtKind : Tracks bound StmtKind.essence stmtKind stmtKind := by
  refine .get fun within near => ?_
  rw [near.atKeyword_eq, near.atKeyword_and_kind?_eq (by decide)]
  split
  · refine tracks_importing.bind (fun same => .pure ?_) within near
    simp only [StmtKind.essence, same]
  split
  · refine (tracks_statement moves_scan tracks_scan).bind (fun same => .pure ?_) within near
    simp only [StmtKind.essence, same]
  refine ((tracks_attributes moves_scan tracks_scan).mono (Nat.le_succ _)).bind
    (fun attributed => .get fun within near => ?_) within near
  rw [near.atClass_eq, near.atFunction_eq]
  split
  · refine ((tracks_namedClass moves_scan tracks_scan attributed).mono (Nat.le_succ _)).bind
      (fun same => .pure ?_) within near
    simp only [StmtKind.essence, same]
  split
  · refine (tracks_function moves_scan tracks_scan attributed).bind (fun same => .pure ?_)
      within near
    simp only [StmtKind.essence, same]
  · refine (tracks_statement moves_scan tracks_scan).bind (fun same => .pure ?_) within near
    simp only [StmtKind.essence, exprFacts_append, attributed, same]

end Parser

end ImportHeader
