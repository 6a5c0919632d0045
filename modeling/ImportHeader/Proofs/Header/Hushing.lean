import ImportHeader.Proofs.Header.Recast
import ImportHeader.Proofs.Parser.Spelling
import ImportHeader.Proofs.Parser.Succession

/-! Comments that a source leaves open. Such a comment lasts over all that stands behind it, so none
ends there. An edit keeps that, and so do the rows that are printed of the edited file.
-/

namespace ImportHeader

open ImportHeader.Lexer ImportHeader.Parser

/-- A statement besides the imports in which a comment is left open. -/
def Stmt.Opens (stmt : Stmt) : Prop :=
  stmt.isImport = false ∧ OpensComment (cut stmt.text)

/-- If a statement leaves a comment open, none ends in the comments of an item. -/
def Stmt.Hushes (stmt : Stmt) (item : Item) : Prop :=
  stmt.Opens → item.IsNoted EndsNoComment

/-- If a statement leaves a comment open, none ends in the comment behind it. -/
def Stmt.IsHushed (stmt : Stmt) : Prop :=
  stmt.Opens → ∀ comment ∈ stmt.trailing?, EndsNoComment comment

/-- Behind a comment that a statement leaves open no comment ends, in statements in order. -/
structure Stmt.AreHushed (stmts : List Stmt) : Prop where
  own : ∀ stmt ∈ stmts, stmt.IsHushed
  later : stmts.Pairwise fun first second => first.Hushes (.plain second)

/-- Behind a comment that an item leaves open no comment ends, in items in order. -/
structure Item.AreHushed (items : List Item) : Prop where
  inside : ∀ item ∈ items, Stmt.AreHushed item.stmts
  later : items.Pairwise fun first second => ∀ stmt ∈ first.stmts, stmt.Hushes second

theorem not_opens_of_isImport {stmt : Stmt} (imports : stmt.isImport = true) : ¬stmt.Opens := by
  rintro ⟨plain, _⟩
  rw [imports] at plain
  cases plain

theorem areHushed_append {front back : List Stmt}
    : Stmt.AreHushed (front ++ back)
      ↔ Stmt.AreHushed front ∧ Stmt.AreHushed back
        ∧ ∀ stmt ∈ front, ∀ other ∈ back, stmt.Hushes (.plain other) := by
  constructor
  · rintro ⟨own, later⟩
    obtain ⟨first, second, across⟩ := List.pairwise_append.mp later
    exact ⟨⟨fun stmt listed => own stmt (List.mem_append_left _ listed), first⟩,
      ⟨fun stmt listed => own stmt (List.mem_append_right _ listed), second⟩, across⟩
  · rintro ⟨⟨own, first⟩, ⟨own', second⟩, across⟩
    refine ⟨fun stmt listed => ?_, List.pairwise_append.mpr ⟨first, second, across⟩⟩
    exact (List.mem_append.mp listed).elim (own stmt) (own' stmt)

/-- Imports leave no comment open. -/
theorem areHushed_of_imports {block : List Stmt} (imports : ∀ stmt ∈ block, stmt.isImport = true)
    : Stmt.AreHushed block :=
  ⟨fun stmt listed opens => absurd opens (not_opens_of_isImport (imports stmt listed)),
    List.pairwise_of_forall_mem_list fun stmt listed _ _ opens =>
      absurd opens (not_opens_of_isImport (imports stmt listed))⟩

theorem hushed_plain {stmts : List Stmt}
    : Item.AreHushed (stmts.map .plain) ↔ Stmt.AreHushed stmts := by
  constructor
  · rintro ⟨inside, later⟩
    refine ⟨fun stmt listed => ?_, (List.pairwise_map.mp later).imp fun all => ?_⟩
    · exact (inside _ (List.mem_map_of_mem listed)).own stmt List.mem_cons_self
    · exact all _ List.mem_cons_self
  · rintro ⟨own, later⟩
    refine ⟨fun item listed => ?_, List.pairwise_map.mpr (later.imp fun hushes other listed => ?_)⟩
    · obtain ⟨stmt, here, rfl⟩ := List.mem_map.mp listed
      refine ⟨fun other listed => ?_, List.pairwise_singleton _ _⟩
      exact List.mem_singleton.mp listed ▸ own stmt here
    · exact List.mem_singleton.mp listed ▸ hushes

/-- Items with a namespace among them. -/
theorem hushed_framed {before after : List Stmt} {space : Namespace}
    : Item.AreHushed (before.map .plain ++ .scope space :: after.map .plain)
      ↔ Stmt.AreHushed before ∧ Stmt.AreHushed space.stmts ∧ Stmt.AreHushed after
        ∧ (∀ stmt ∈ before, stmt.Hushes (.scope space) ∧ ∀ other ∈ after, stmt.Hushes (.plain other))
        ∧ ∀ stmt ∈ space.stmts, ∀ other ∈ after, stmt.Hushes (.plain other) := by
  rw [← @hushed_plain before, ← @hushed_plain after]
  constructor
  · rintro ⟨inside, later⟩
    obtain ⟨first, rest, across⟩ := List.pairwise_append.mp later
    obtain ⟨within, second⟩ := List.pairwise_cons.mp rest
    refine ⟨⟨fun item listed => inside item (by simp [listed]), first⟩,
      inside (.scope space) (by simp), ⟨fun item listed => inside item (by simp [listed]), second⟩,
      fun stmt listed => ⟨?_, fun other listed' => ?_⟩, fun stmt listed other listed' => ?_⟩
    · exact across _ (List.mem_map_of_mem listed) _ List.mem_cons_self stmt List.mem_cons_self
    · exact across _ (List.mem_map_of_mem listed) _ (.tail _ (List.mem_map_of_mem listed')) stmt
        List.mem_cons_self
    · exact within _ (List.mem_map_of_mem listed') stmt listed
  · rintro ⟨⟨inside, first⟩, within, ⟨inside', second⟩, across, beyond⟩
    refine ⟨fun item listed => ?_, List.pairwise_append.mpr ⟨first, List.pairwise_cons.mpr
      ⟨fun item listed stmt here => ?_, second⟩, fun item listed item' listed' stmt here => ?_⟩⟩
    · rcases List.mem_append.mp listed with here | here
      · exact inside item here
      rcases List.mem_cons.mp here with rfl | here
      · exact within
      · exact inside' item here
    · obtain ⟨other, among, rfl⟩ := List.mem_map.mp listed
      exact beyond stmt here other among
    · obtain ⟨other, among, rfl⟩ := List.mem_map.mp listed
      obtain rfl := List.mem_singleton.mp here
      rcases List.mem_cons.mp listed' with rfl | later
      · exact (across stmt among).1
      · obtain ⟨last, among', rfl⟩ := List.mem_map.mp later
        exact (across stmt among).2 last among'

-----------------------------------------------------------------------------------------
-- Edits
-----------------------------------------------------------------------------------------

namespace Edit

variable {source : Text} {file : SourceFile} {edit : Edit}

/-- What hushes all statements in the import scope hushes those after an edit. -/
theorem hushes_scope_apply (started : Edit.start file source = .ok edit) {stmt : Stmt}
    (hushes : ∀ other ∈ file.importScope, stmt.Hushes (.plain other)) (names : List Name)
    (aliases : List Text)
    : ∀ other ∈ (edit.apply names aliases).scope, stmt.Hushes (.plain other) :=
  forall_scope_apply started hushes (fun name _ _ => Stmt.isNoted_ofImport name) aliases

/-- The statements in the import scope after an edit stand in an order in which comments stay open.
-/
theorem areHushed_scope_apply (started : Edit.start file source = .ok edit)
    (hushed : Stmt.AreHushed file.importScope) (names : List Name) (aliases : List Text)
    : Stmt.AreHushed (edit.apply names aliases).scope := by
  obtain ⟨old, framed⟩ := Edit.framed_of_start started
  obtain ⟨block, framed'⟩ := Edit.framed_apply started names aliases
  have scope : file.importScope = edit.before ++ (old ++ edit.behind) := by
    rw [← List.append_assoc, ← framed.scope_eq, Edit.scope, (Edit.start_eq_ok started).2.1]
  have kept := hushed
  rw [scope, areHushed_append, areHushed_append] at kept
  obtain ⟨front, ⟨_, back, _⟩, across⟩ := kept
  -- The imports stand behind what stood before them, also the new ones.
  have imports (stmt : Stmt) (listed : stmt ∈ edit.before)
      : ∀ other ∈ (edit.apply names aliases).scope,
          other.isImport = true → stmt.Hushes (.plain other) := by
    refine forall_scope_apply started (fun other among isImport => ?_)
      (fun name _ _ _ => Stmt.isNoted_ofImport name) aliases
    rw [scope] at among
    rcases List.mem_append.mp among with here | here
    · rw [framed.front_plain other here] at isImport
      cases isImport
    · exact across stmt listed other here
  have scope' := framed'.scope_eq
  rw [List.append_assoc] at scope'
  rw [scope', areHushed_append, areHushed_append]
  refine ⟨front, ⟨areHushed_of_imports framed'.imports, back, fun stmt listed _ _ opens => ?_⟩,
    fun stmt listed other listed' => ?_⟩
  · exact absurd opens (not_opens_of_isImport (framed'.imports stmt listed))
  · rcases List.mem_append.mp listed' with here | here
    · exact imports stmt listed other (by simp [scope', here]) (framed'.imports other here)
    · exact across stmt listed other (List.mem_append_right _ here)

/-- Comments stay open in an edited file. -/
theorem hushed_apply (started : Edit.start file source = .ok edit)
    (hushed : Item.AreHushed file.items) (names : List Name) (aliases : List Text)
    : Item.AreHushed (edit.apply names aliases).file.items := by
  rw [(isOn_apply started names aliases).items]
  have shape := SourceFile.shape_of_checkStructure (start_eq_ok started).1
  have scope (within : Stmt.AreHushed file.importScope) :=
    areHushed_scope_apply started within names aliases
  have inner {stmt : Stmt} (hushes : ∀ other ∈ file.importScope, stmt.Hushes (.plain other)) :=
    hushes_scope_apply started hushes names aliases
  have outer {item : Item} (all : ∀ stmt ∈ file.importScope, stmt.Hushes item)
      : ∀ stmt ∈ (edit.apply names aliases).scope, stmt.Hushes item := by
    refine forall_scope_apply started all (fun name _ opens => ?_) aliases
    exact absurd opens (not_opens_of_isImport rfl)
  generalize items : file.items = found at shape hushed
  cases shape with
  | flat found =>
      rw [SourceFile.withImportScope_flat items, hushed_plain]
      rw [hushed_plain] at hushed
      rw [(SourceFile.importScope_flat items).2] at scope
      exact scope hushed
  | framed before space after =>
      rw [(SourceFile.importScope_framed items).2] at scope inner outer
      rw [SourceFile.withImportScope_framed items, hushed_framed]
      rw [hushed_framed] at hushed
      obtain ⟨first, within, second, across, beyond⟩ := hushed
      refine ⟨first, scope within, second, fun stmt listed => ⟨fun opens => ?_, ?_⟩,
        fun stmt listed other listed' => ?_⟩
      · obtain ⟨comments, header, stmts⟩ := (across stmt listed).1 opens
        exact ⟨comments, header, fun other among =>
          inner (fun other here _ => stmts other here) other among opens⟩
      · exact (across stmt listed).2
      · exact outer (fun stmt here => beyond stmt here other listed') stmt listed

/-- The names in a file under edit can be written if those of the source can, and those of the
imports.
-/
theorem IsOn.isSpelled {edited : Edit} (isOn : edited.IsOn file) (shape : Shape file.items)
    (spelled : ∀ item ∈ file.items, item.IsSpelled) (scope : ∀ stmt ∈ edited.scope, stmt.IsSpelled)
    : ∀ item ∈ edited.file.items, item.IsSpelled := by
  rw [isOn.items]
  generalize items : file.items = found at shape spelled
  cases shape with
  | flat found =>
      rw [SourceFile.withImportScope_flat items]
      exact List.forall_mem_map.mpr scope
  | framed before space after =>
      rw [SourceFile.withImportScope_framed items]
      intro item listed
      rcases List.mem_append.mp listed with here | here
      · exact spelled item (List.mem_append_left _ here)
      rcases List.mem_cons.mp here with rfl | here
      · have name : space.IsSpelled := spelled (.scope space) (by simp)
        exact ⟨name.name, scope⟩
      · exact spelled item (List.mem_append_right _ (.tail _ here))

end Edit

-----------------------------------------------------------------------------------------
-- Rows
-----------------------------------------------------------------------------------------

/-- Pieces without a slash leave no comment open. -/
theorem not_opensComment {pieces : List Piece} (absent : '/' ∉ joined pieces)
    : ¬OpensComment pieces := by
  rintro ⟨⟨kind, text⟩, listed, _, starts⟩
  refine absent (List.mem_flatMap.mpr ⟨_, listed, ?_⟩)
  cases text with
  | nil => cases starts
  | cons c rest =>
      obtain rfl : c = '/' := by simpa using starts
      exact List.mem_cons_self

namespace Row

variable {item : Item} {items : List Item} {stmt : Stmt} {space : Namespace} {row : Row}
  {rows : List Row} {all : List (List Piece)} {text : Text}

/-- A row in which a comment is left open. -/
def Opens (row : Row) : Prop :=
  OpensComment (cut row.text)

/-- A row in whose comments no other comment ends. -/
structure IsQuiet (row : Row) : Prop where
  comments : ∀ comment ∈ row.comments, EndsNoComment comment
  trailing : ∀ comment ∈ row.trailing?, EndsNoComment comment

/-- Behind a comment that a row leaves open no comment ends, in rows in order. -/
structure AreHushed (rows : List Row) : Prop where
  own : ∀ row ∈ rows, row.Opens → ∀ comment ∈ row.trailing?, EndsNoComment comment
  later : rows.Pairwise fun row other => row.Opens → other.IsQuiet

theorem AreHushed.suffix {front back : List Row} (hushed : AreHushed (front ++ back))
    : AreHushed back :=
  ⟨fun row listed => hushed.own row (List.mem_append_right _ listed),
    (List.pairwise_append.mp hushed.later).2.1⟩

theorem not_opens (absent : '/' ∉ row.text) : ¬row.Opens :=
  not_opensComment (by rwa [joined_cut])

theorem opens_of_isOf (isOf : IsOf stmt row) (spelled : stmt.IsSpelled) (opens : row.Opens)
    : stmt.Opens := by
  cases found : stmt.declaration? with
  | some declaration =>
      refine absurd opens (not_opens ?_)
      rw [isOf.text_eq, Stmt.code_of_declaration? found, ← joined_importPieces]
      exact not_mem_importPieces rfl (spelled declaration found)
  | none =>
      refine ⟨by rw [Stmt.isImport, found]; rfl, ?_⟩
      have same : stmt.code = stmt.text := by
        unfold Stmt.code
        split
        · rename_i declaration kind
          rw [Stmt.declaration?, kind] at found
          cases found
        · rfl
      rwa [Opens, isOf.text_eq, same] at opens

theorem not_opens_of_isOpening (isOpening : IsOpening space row)
    (spelled : ∀ located ∈ space.name?, located.name.isSpelled = true)
    : ¬row.Opens := by
  refine not_opens ?_
  rw [isOpening.text_eq, Namespace.openingCode_eq]
  refine not_mem_openingPieces rfl space.braced fun name given => ?_
  obtain ⟨located, here, rfl⟩ := Option.map_eq_some_iff.mp given
  exact spelled located here

theorem not_opens_of_isClosing (isClosing : IsClosing row) : ¬row.Opens :=
  not_opens (by rw [isClosing.text_eq]; decide)

theorem isQuiet_of_isOf (isOf : IsOf stmt row) (noted : stmt.IsNoted EndsNoComment)
    : row.IsQuiet :=
  ⟨isOf.comments_eq ▸ noted.comments,
    isOf.trailing_eq ▸ fun comment given => (noted.trailing comment given).1⟩

/-- In the rows of an item no comment ends if none does in its comments. -/
theorem isQuiet_of_areOf (areOf : AreOf item rows) (noted : item.IsNoted EndsNoComment)
    : ∀ row ∈ rows, row.IsQuiet := by
  intro row listed
  cases areOf with
  | plain isOf =>
      obtain rfl := List.mem_singleton.mp listed
      exact isQuiet_of_isOf isOf noted
  | @scope space opening inner closing opens inside closes =>
      rcases List.mem_cons.mp listed with rfl | listed
      · exact ⟨opens.comments_eq ▸ noted.comments,
          opens.trailing_eq ▸ fun comment given => (noted.header comment given).1⟩
      rcases List.mem_append.mp listed with here | here
      · obtain ⟨stmt, among, isOf⟩ := Pairing.exists_left inside here
        exact isQuiet_of_isOf isOf (noted.stmts stmt among)
      · obtain ⟨last, rfl, isClosing⟩ : ∃ last, closing = [last] ∧ IsClosing last := by
          split at closes
          · exact closes
          · rw [closes] at here
            cases here
        obtain rfl := List.mem_singleton.mp here
        exact ⟨by simp [isClosing.comments_eq], by simp [isClosing.trailing_eq]⟩

/-- A row of an item that leaves a comment open is the row of a statement that does. -/
theorem exists_opens (areOf : AreOf item rows) (spelled : item.IsSpelled) {row : Row}
    (listed : row ∈ rows) (opens : row.Opens)
    : ∃ stmt ∈ item.stmts, IsOf stmt row ∧ stmt.Opens := by
  cases areOf with
  | @plain stmt _ isOf =>
      obtain rfl := List.mem_singleton.mp listed
      exact ⟨stmt, List.mem_cons_self, isOf, opens_of_isOf isOf spelled opens⟩
  | @scope space opening inner closing isOpening inside closes =>
      rcases List.mem_cons.mp listed with rfl | listed
      · exact absurd opens (not_opens_of_isOpening isOpening spelled.name)
      rcases List.mem_append.mp listed with here | here
      · obtain ⟨stmt, among, isOf⟩ := Pairing.exists_left inside here
        exact ⟨stmt, among, isOf, opens_of_isOf isOf (spelled.stmts stmt among) opens⟩
      · refine absurd opens (not_opens_of_isClosing ?_)
        split at closes
        · obtain ⟨last, rfl, isClosing⟩ := closes
          exact List.mem_singleton.mp here ▸ isClosing
        · rw [closes] at here
          cases here

/-- The rows of statements in which comments stay open. -/
theorem areHushed_of_stmts {stmts : List Stmt} (each : List.Forall₂ IsOf stmts rows)
    (hushed : Stmt.AreHushed stmts) (spelled : ∀ stmt ∈ stmts, stmt.IsSpelled)
    : rows.Pairwise fun row other => row.Opens → other.IsQuiet := by
  refine Pairing.pairwise ((List.forall₂_and_left _ _).mpr ⟨spelled, each⟩) ?_ hushed.later
  rintro stmt other row row' ⟨written, isOf⟩ ⟨_, isOf'⟩ hushes opens
  exact isQuiet_of_isOf isOf' (hushes (opens_of_isOf isOf written opens))

/-- The rows of one item in which comments stay open. -/
theorem areHushed_of_areOf (areOf : AreOf item rows) (hushed : Stmt.AreHushed item.stmts)
    (spelled : item.IsSpelled)
    : rows.Pairwise fun row other => row.Opens → other.IsQuiet := by
  cases areOf with
  | plain => exact List.pairwise_singleton _ _
  | @scope space opening inner closing isOpening inside closes =>
      refine .cons (fun row _ opens => ?_) (List.pairwise_append.mpr
        ⟨areHushed_of_stmts inside hushed spelled.stmts, ?_, fun row _ last listed _ => ?_⟩)
      · exact absurd opens (not_opens_of_isOpening isOpening spelled.name)
      · split at closes
        · obtain ⟨last, rfl, _⟩ := closes
          exact List.pairwise_singleton _ _
        · rw [closes]
          exact .nil
      · split at closes
        · obtain ⟨last, rfl, isClosing⟩ := closes
          obtain rfl := List.mem_singleton.mp listed
          exact ⟨by simp [isClosing.comments_eq], by simp [isClosing.trailing_eq]⟩
        · rw [closes] at listed
          cases listed

/-- The rows of a file in which comments stay open. -/
theorem areHushed_of_items {rows : List (List Row)} (each : List.Forall₂ AreOf items rows)
    (hushed : Item.AreHushed items) (spelled : ∀ item ∈ items, item.IsSpelled)
    : AreHushed rows.flatten := by
  have both : List.Forall₂ (fun item rows => item.IsSpelled ∧ AreOf item rows) items rows :=
    (List.forall₂_and_left _ _).mpr ⟨spelled, each⟩
  constructor
  · intro row listed opens
    obtain ⟨inner, among, here⟩ := List.mem_flatten.mp listed
    obtain ⟨item, inside, written, areOf⟩ := Pairing.exists_left both among
    obtain ⟨stmt, found, isOf, opens'⟩ := exists_opens areOf written here opens
    exact isOf.trailing_eq ▸ (hushed.inside item inside).own stmt found opens'
  · refine List.pairwise_flatten.mpr ⟨fun inner among => ?_, Pairing.pairwise both ?_ hushed.later⟩
    · obtain ⟨item, inside, written, areOf⟩ := Pairing.exists_left both among
      exact areHushed_of_areOf areOf (hushed.inside item inside) written
    · rintro item other inner inner' ⟨written, areOf⟩ ⟨_, areOf'⟩ hushes row listed row' listed'
        opens
      obtain ⟨stmt, found, _, opens'⟩ := exists_opens areOf written listed opens
      exact isQuiet_of_areOf areOf' (hushes stmt found opens') row' listed'

-----------------------------------------------------------------------------------------
-- Printed rows
-----------------------------------------------------------------------------------------

theorem endsNoComment_spaces {spaces : Text} (blank : ∀ c ∈ spaces, isSpace c = true)
    (none : EndsNoComment text)
    : EndsNoComment (spaces ++ text) := by
  induction spaces with
  | nil => exact none
  | cons c spaces ih =>
      exact endsNoComment_space (blank c List.mem_cons_self)
        (ih fun d listed => blank d (.tail _ listed))

/-- Before a line ending no comment goes on. -/
theorem BreaksLine.endsNoComment {front : Text} (breaks : BreaksLine text)
    (none : EndsNoComment front) (none' : EndsNoComment text)
    : EndsNoComment (front ++ text) := by
  obtain ⟨c, rest, space, rfl⟩ := breaks.cons
  exact none.append_space space (endsNoComment_cons_iff.mp none').2

theorem endsNoComment_trailing {comment? : Option Text}
    (none : ∀ comment ∈ comment?, EndsNoComment comment) (breaks : BreaksLine text)
    (none' : EndsNoComment text)
    : EndsNoComment (printTrailing (comment?.map id) ++ text) := by
  cases comment? with
  | none => exact none'
  | some comment =>
      exact endsNoComment_space rfl (breaks.endsNoComment (none comment rfl) none')

theorem endsNoComment_comments {comments : List Text}
    (none : ∀ comment ∈ comments, EndsNoComment comment) (row : Row) (none' : EndsNoComment text)
    : EndsNoComment
        ((comments.flatMap fun comment => row.margin ++ id comment ++ ['\n']) ++ text) := by
  induction comments with
  | nil => exact none'
  | cons comment comments ih =>
      have later := ih fun other listed => none other (.tail _ listed)
      rw [List.flatMap_cons, List.append_assoc, List.append_assoc, List.append_assoc]
      refine endsNoComment_spaces row.isSpace_of_mem_margin ?_
      exact (none comment List.mem_cons_self).append_space rfl later

/-- In a printed row no comment ends if none does in its comments and in its code. -/
theorem IsQuiet.endsNoComment_print (quiet : row.IsQuiet) (code : EndsNoComment row.text)
    (breaks : BreaksLine text) (none : EndsNoComment text)
    : EndsNoComment (row.print id ['\n'] ++ text) := by
  have newlines : ∀ c ∈ (List.replicate (row.gap + 1) ['\n']).flatten, isSpace c = true :=
    isSpace_of_mem_breaks (.inl rfl)
  rw [print, List.append_assoc, List.append_assoc]
  refine endsNoComment_spaces newlines (endsNoComment_comments quiet.comments row ?_)
  rw [List.append_assoc, List.append_assoc]
  refine endsNoComment_spaces row.isSpace_of_mem_margin ?_
  obtain ⟨c, rest, space, same⟩
      : ∃ c rest, isSpace c = true ∧ printTrailing (row.trailing?.map id) ++ text = c :: rest := by
    cases row.trailing? with
    | none => exact breaks.cons
    | some comment => exact ⟨' ', _, rfl, rfl⟩
  have behind := endsNoComment_trailing quiet.trailing breaks none
  rw [same] at behind ⊢
  exact code.append_space space (endsNoComment_cons_iff.mp behind).2

/-- In rows behind an open comment no comment ends. -/
theorem endsNoComment_printAll (quiet : ∀ row ∈ rows, row.IsQuiet ∧ EndsNoComment row.text)
    : EndsNoComment (printAll id ['\n'] rows ++ ['\n']) := by
  induction rows with
  | nil => exact endsNoComment_space rfl endsNoComment_nil
  | cons row rows ih =>
      obtain ⟨here, code⟩ := quiet row List.mem_cons_self
      rw [printAll, List.flatMap_cons, List.append_assoc]
      exact here.endsNoComment_print code (breaksLine_printAll (.inl rfl) breaksLine_newline)
        (ih fun other listed => quiet other (.tail _ listed))

/-- The blocks of rows in which comments stay open. -/
theorem isHushed_blocks (holds : List.Forall₂ Holds rows all)
    (alone : ∀ pieces ∈ all, Stands pieces []) (hushed : AreHushed rows)
    (texts
      : all.Pairwise fun pieces other => OpensComment pieces → EndsNoComment (joined other))
    : ∀ block ∈ blocks id ['\n'] ['\n'] rows all, block.IsHushed := by
  induction holds with
  | nil => nofun
  | @cons row pieces rows all here later ih =>
      obtain ⟨first, texts'⟩ := List.pairwise_cons.mp texts
      obtain ⟨quiet, hushed'⟩ := List.pairwise_cons.mp hushed.later
      intro block listed
      rcases List.mem_cons.mp listed with rfl | further
      · intro opensPieces
        have opens : row.Opens := by
          have cuts : cut (joined pieces) = pieces := by
            simpa [Stands] using alone pieces List.mem_cons_self
          rwa [Opens, here.text_eq, cuts]
        refine endsNoComment_trailing (hushed.own row List.mem_cons_self opens)
          (breaksLine_printAll (.inl rfl) breaksLine_newline)
          (endsNoComment_printAll fun other listed => ⟨quiet other listed opens, ?_⟩)
        obtain ⟨pieces', inside, holds⟩ := Pairing.exists_right later listed
        rw [holds.text_eq]
        exact first pieces' inside opensPieces
      · exact ih (fun pieces listed => alone pieces (.tail _ listed))
          ⟨fun other listed => hushed.own other (.tail _ listed), hushed'⟩ texts' block further

end Row

end ImportHeader
