import ImportHeader.Proofs.Parser.ClassNaming
import ImportHeader.Proofs.Parser.Reading

/-! What imports, statements, namespaces and whole files pass. Imports show where their items start.
From statements on, a view of a statement by its kind is followed through the file, whatever it
shows.
-/

namespace ImportHeader

/-- Where the items of an import start. -/
def itemStarts (items : List ImportItem) : List (Option Nat) :=
  items.map fun item => item.span?.map Span.start

theorem itemStarts_append (left right : List ImportItem)
    : itemStarts (left ++ right) = itemStarts left ++ itemStarts right :=
  List.map_append

/-- Where the items of a statement start that is an import. -/
def Stmt.itemStarts (stmt : Stmt) : List (Option Nat) :=
  stmt.declaration?.elim [] fun declaration => ImportHeader.itemStarts declaration.items

/-- The statements of an item: itself, or those in the namespace. -/
def Item.stmts : Item → List Stmt
  | .plain stmt => [stmt]
  | .scope space => space.stmts

/-- The statements of a file in order. -/
def SourceFile.stmts (file : SourceFile) : List Stmt :=
  file.items.flatMap Item.stmts

namespace Parser

/-- The offsets of the tokens ahead of a cursor. -/
abbrev offsetsIn (root : Cursor) (mark : EndMark) : Ledger (Option Nat) where
  root
  mark
  spell token := some (some token.offset)
  calm := True

variable {root : Cursor} {mark : EndMark} {bound : Nat} {stack : List TokenKind} {start : Cursor}

-----------------------------------------------------------------------------------------
-- Imports
-----------------------------------------------------------------------------------------

theorem keeps_importedName {what : Expectation}
    : Keeps (offsetsIn root mark) bound stack (fun located => [some located.span.start]) []
        (expectName what) (expectName what) start := by
  refine keeps_expectName fun {token located} _ read => ?_
  rw [LocatedName.span_of_read? read]
  rfl

theorem skips_importKind?
    : Skips (offsetsIn root mark) bound stack importKind? importKind? start := by
  refine .get ?_
  split
  · exact .pure rfl (List.nil_sublist _)
  split
  · rename_i here
    exact (spends_skip (kind?_of_isKeyword here) (.quiet rfl)).after fun _ =>
      .pure rfl (List.nil_sublist _)
  split
  · rename_i here
    exact (spends_skip (kind?_of_isKeyword here) (.quiet rfl)).after fun _ =>
      .pure rfl (List.nil_sublist _)
  · exact .pure rfl (List.nil_sublist _)

theorem skips_alias? : Skips (offsetsIn root mark) bound stack alias? alias? start := by
  refine skips_eatKeyword.after fun {renamed _} _ => ?_
  cases renamed with
  | true => exact skips_name?.after fun _ => .pure rfl (List.nil_sublist _)
  | false => exact .pure rfl (List.nil_sublist _)

theorem keeps_importItem {located : LocatedName} {kind? : Option ImportKind}
    : Keeps (offsetsIn root mark) bound stack (fun item => itemStarts [item])
        [some located.span.start] (importItem located kind?) (importItem located kind?) start :=
  skips_alias?.after fun _ => .get (.pure rfl (List.Sublist.refl _))

theorem keeps_importList
    : Keeps (offsetsIn root mark) bound stack itemStarts [] (collect importListTurn)
        (collect importListTurn) start := by
  refine Keeps.collect strides_importListTurn itemStarts_append fun start =>
    keeps_importedName.bind fun _ => keeps_importItem.next fun _ =>
      (skips_eat rfl).after fun {more _} _ => ?_
  cases more with
  | true => exact .pure rfl (List.Sublist.refl _)
  | false => exact .pure rfl (List.Sublist.refl _)

theorem keeps_otherItems
    : Keeps (offsetsIn root mark) bound stack itemStarts [] otherItems otherItems start := by
  refine (skips_eat rfl).after fun {more _} _ => ?_
  cases more with
  | false => exact .pure rfl (List.nil_sublist _)
  | true => exact keeps_importList

/-- The brace that ends a group stands behind a comma or behind an item. -/
theorem spends_importGroup
    : Spends (offsetsIn root mark) bound (.rightBrace :: stack) (fun _ => stack) itemStarts []
        (collect importGroupTurn) (collect importGroupTurn) start := by
  refine Spends.collect strides_importGroupTurn itemStarts_append fun start =>
    (spends_eat fun _ => .pop rfl).after fun {closed _} _ => ?_
  cases closed with
  | true => exact .pure rfl (List.nil_sublist _)
  | false =>
      refine skips_importKind?.after fun _ => keeps_importedName.bind fun _ =>
        keeps_importItem.next fun _ => (skips_eat rfl).after fun {more _} _ => ?_
      cases more with
      | true => exact .pure rfl (List.Sublist.refl _)
      | false =>
          exact (spends_expect (.pop rfl)).after fun _ => .pure rfl (List.Sublist.refl _)

theorem keeps_importNames {kind : ImportKind}
    : Keeps (offsetsIn root mark) bound stack (fun declaration => itemStarts declaration.items) []
        (importNames kind) (importNames kind) start := by
  refine keeps_importedName.bind fun {_ middle} _ => .get ?_
  split
  · rename_i grouped
    obtain ⟨slash, brace⟩ := Bool.and_eq_true_iff.mp grouped
    refine (spends_skip (eq_of_beq slash) (.quiet rfl)).after fun {_ behind} skipped => ?_
    obtain rfl := skip_eq_ok.mp skipped
    have here : middle.advance.kind? 0 = some .leftBrace := by
      rw [← kind?_succ]
      exact eq_of_beq brace
    exact (spends_skip here (.push rfl)).after fun _ => spends_importGroup.bind fun _ =>
      .pure rfl (List.sublist_append_right _ _)
  · exact keeps_importItem.next fun _ => keeps_otherItems.bind fun _ =>
      .pure rfl (List.Sublist.refl _)

theorem keeps_importing (here : start.kind? 0 = some .name) (free : stack = [] → mark = .closeTag)
    : Keeps (offsetsIn root mark) bound stack (fun declaration => itemStarts declaration.items) []
        importing importing start :=
  (spends_skip here (.quiet rfl)).after fun _ => skips_importKind?.after fun _ =>
    keeps_importNames.bind fun _ => (spends_expect (.semicolon free)).after fun _ =>
      .pure rfl (List.Sublist.refl _)

-----------------------------------------------------------------------------------------
-- Statements
-----------------------------------------------------------------------------------------

/-- The class names of a statement by its kind. An import names no class that is used. -/
theorem keeps_stmtKind {bottom : TokenKind}
    : Keeps (namesIn root mark) bound (bottom :: stack)
        (fun kind => Place.names (Place.ofStmt { kind })) [] stmtKind stmtKind start := by
  refine .get ?_
  split
  · rename_i here
    exact .after (.quiet (keeps_importing (kind?_of_isKeyword here) (by nofun)) rfl rfl) fun _ =>
      .pure rfl (List.nil_sublist _)
  split
  · exact (keeps_statement scans_scan (by nofun)).bind fun _ => .pure rfl (List.Sublist.refl _)
  refine (keeps_attributes scans_scan).narrow.bind fun _ => .get ?_
  split
  · exact (keeps_namedClass scans_scan).narrow.next fun _ => .pure rfl (List.Sublist.refl _)
  split
  · rename_i here
    have named := kind?_of_isKeyword (Bool.and_eq_true_iff.mp here).1
    exact (keeps_function scans_scan named (by nofun)).next fun _ =>
      .pure rfl (List.Sublist.refl _)
  · exact (keeps_statement scans_scan (by nofun)).bind fun _ =>
      .pure rfl (by simp [Place.ofStmt])

/-- Only an import has items. -/
theorem keeps_stmtKind_itemStarts {bottom : TokenKind}
    : Keeps (offsetsIn root mark) bound (bottom :: stack) (fun kind => Stmt.itemStarts { kind }) []
        stmtKind stmtKind start := by
  refine .get ?_
  split
  · rename_i here
    exact (keeps_importing (kind?_of_isKeyword here) (by nofun)).next fun _ =>
      .pure rfl (List.Sublist.refl _)
  split
  · exact .after (.quiet (keeps_statement scans_scan (by nofun)) rfl rfl) fun _ =>
      .pure rfl (List.nil_sublist _)
  refine .after (.quiet (keeps_attributes scans_scan).narrow rfl rfl) fun _ => .get ?_
  split
  · exact .after (.quiet (keeps_namedClass scans_scan).narrow rfl rfl) fun _ =>
      .pure rfl (List.nil_sublist _)
  split
  · rename_i here
    have named := kind?_of_isKeyword (Bool.and_eq_true_iff.mp here).1
    exact .after (.quiet (keeps_function scans_scan named (by nofun)) rfl rfl) fun _ =>
      .pure rfl (List.nil_sublist _)
  · exact .after (.quiet (keeps_statement scans_scan (by nofun)) rfl rfl) fun _ =>
      .pure rfl (List.nil_sublist _)

/-- A view of statements by their kind, which shows what the tokens of a statement spell. -/
structure Shows {σ : Type} (ledger : Ledger σ) (view : Stmt → List σ) : Prop where
  kinds
    : ∀ {bound bottom stack start},
        Keeps ledger bound (bottom :: stack) (fun kind => view { kind }) [] stmtKind stmtKind start
  only : ∀ stmt, view stmt = view { kind := stmt.kind }

theorem shows_names
    : Shows (namesIn root mark) fun stmt => Place.names (Place.ofStmt stmt) :=
  ⟨keeps_stmtKind, fun _ => rfl⟩

theorem shows_itemStarts : Shows (offsetsIn root mark) Stmt.itemStarts :=
  ⟨keeps_stmtKind_itemStarts, fun _ => rfl⟩

-----------------------------------------------------------------------------------------
-- Namespaces and files
-----------------------------------------------------------------------------------------

section

variable {σ : Type} {ledger : Ledger σ}

theorem skips_spanFrom {offset : Nat}
    : Skips ledger bound stack (spanFrom offset) (spanFrom offset) start :=
  .get (.pure rfl (List.nil_sublist _))

/-- A step that passes trivia only. -/
theorem Skips.of_ahead {α : Type} {step : Parser α}
    (ends : ∀ span, step.run start ≠ .error ⟨.stalled, span⟩)
    (stays : ∀ {found stop}, step.run start = .ok (found, stop) → stop.ahead = start.ahead)
    : Skips ledger bound stack step step start := by
  refine fun _ _ => ⟨⟨rfl, ends⟩, fun found stop ran => ⟨[], ?_, .nil, .of_sublist ?_⟩⟩
  · exact (Cursor.tokens_congr (stays ran)).symm
  · exact List.nil_sublist _

theorem skips_trailing? : Skips ledger bound stack trailing? trailing? start := by
  refine .of_ahead (fun span ran => ?_) ahead_of_run_trailing?
  unfold run trailing? at ran
  split at ran
  · rename_i error failed
    split at failed <;> cases failed
  · cases ran

theorem skips_trailingOf {kind : StmtKind}
    : Skips ledger bound stack (trailingOf kind) (trailingOf kind) start := by
  unfold trailingOf
  split
  · exact skips_trailing?
  · exact .pure rfl (List.nil_sublist _)

theorem spends_namespaceOpening {named : Bool} (free : stack = [] → ledger.mark = .closeTag)
    : Spends ledger bound stack (fun braced => cond braced (.rightBrace :: stack) stack)
        (fun _ => []) [] (namespaceOpening named) (namespaceOpening named) start := by
  refine (spends_eat fun _ => .push rfl).after fun {braced _} _ => ?_
  cases braced with
  | true => exact .pure rfl (List.nil_sublist _)
  | false =>
      rw [if_neg Bool.false_ne_true]
      split
      · exact (spends_expect (.semicolon free)).after fun _ => .pure rfl (List.nil_sublist _)
      · exact .fail nofun

theorem spends_namespaceClosing {braced : Bool}
    : Spends ledger bound (cond braced (.rightBrace :: stack) stack) (fun _ => stack) (fun _ => [])
        [] (namespaceClosing braced) (namespaceClosing braced) start := by
  unfold namespaceClosing
  cases braced with
  | true => exact (spends_expect (.pop rfl)).after fun _ => .pure rfl (List.nil_sublist _)
  | false => exact .pure rfl (List.nil_sublist _)

variable {view : Stmt → List σ} (shows : Shows ledger view) {bottom : TokenKind}

include shows

theorem keeps_stmt : Keeps ledger bound (bottom :: stack) view [] stmt stmt start :=
  .get <| shows.kinds.bind fun _ => skips_spanFrom.after fun _ => skips_trailingOf.after fun _ =>
    .pure rfl (by rw [shows.only]; exact List.Sublist.refl _)

theorem keeps_namespaceStmts {braced : Bool}
    : Keeps ledger bound (bottom :: stack) (List.flatMap view) [] (collect (namespaceTurn braced))
        (collect (namespaceTurn braced)) start := by
  refine Keeps.collect strides_namespaceTurn (fun _ _ => List.flatMap_append) fun start => .get ?_
  split
  · split
    · exact .fail nofun
    · exact .pure rfl (List.nil_sublist _)
  · split
    · split
      · exact .pure rfl (List.nil_sublist _)
      · exact .fail nofun
    split
    · split
      · exact .fail nofun
      · exact .pure rfl (List.nil_sublist _)
    · exact (keeps_stmt shows).bind fun _ => .pure rfl (by simp [Turn.found])

theorem keeps_namespaceScope
    : Keeps ledger bound (bottom :: stack) (fun space => space.stmts.flatMap view) [] namespaceScope
        namespaceScope start := by
  have stmts {braced : Bool} {start : Cursor}
      : Keeps ledger bound (cond braced (.rightBrace :: bottom :: stack) (bottom :: stack))
          (List.flatMap view) [] (collect (namespaceTurn braced)) (collect (namespaceTurn braced))
          start := by
    cases braced with
    | true => exact keeps_namespaceStmts shows
    | false => exact keeps_namespaceStmts shows
  exact .get <| (spends_expect (.quiet rfl)).after fun _ => skips_name?.after fun _ =>
    (spends_namespaceOpening (by nofun)).after fun _ => .get <| skips_trailing?.after fun _ =>
      stmts.bind fun _ => spends_namespaceClosing.after fun _ => skips_spanFrom.after fun _ =>
        .pure rfl (List.Sublist.refl _)

theorem keeps_items
    : Keeps ledger bound (bottom :: stack) (fun items => (items.flatMap Item.stmts).flatMap view) []
        (collect itemTurn) (collect itemTurn) start := by
  refine Keeps.collect strides_itemTurn (fun _ _ => ?_) fun start => .get ?_
  · rw [List.flatMap_append, List.flatMap_append]
  split
  · exact .pure rfl (List.nil_sublist _)
  · split
    · exact .fail nofun
    split
    · exact (keeps_namespaceScope shows).bind fun _ =>
        .pure rfl (by simp [Turn.found, Item.stmts])
    · exact (keeps_stmt shows).bind fun _ => .pure rfl (by simp [Turn.found, Item.stmts])

theorem keeps_code
    : Keeps ledger bound (bottom :: stack) (fun found => (found.2.flatMap Item.stmts).flatMap view)
        [] Parser.code Parser.code start :=
  skips_trailing?.after fun _ => (keeps_items shows).bind fun _ =>
    .pure rfl (List.Sublist.refl _)

end

end Parser

end ImportHeader

