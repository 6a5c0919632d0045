import ImportHeader.Proofs.Parser.Notes
import ImportHeader.Proofs.Parser.Passing

/-! The order of the comments in a parsed file. All comments of a statement or namespace stand behind
the statements that were read before it.
-/

namespace ImportHeader

open ImportHeader.Lexer

/-- All comments of an item stand behind a statement of the source. -/
def Stmt.Leads (source : Text) (stmt : Stmt) (item : Item) : Prop :=
  ∀ span ∈ stmt.span?, item.IsNoted fun comment => comment <:+: source.dropBytes span.stop

namespace Cursor

variable {source : Text} {start stop : Cursor}

/-- A cursor that stands before what is left of a source. -/
def IsIn (source : Text) (start : Cursor) : Prop :=
  start.source = source ∧ ∃ front pieces, start.Before front pieces

theorem IsIn.reaches (isIn : start.IsIn source) (reached : start.Reaches stop) : stop.IsIn source := by
  obtain ⟨same, front, pieces, before⟩ := isIn
  obtain ⟨passed, rest, _, before', _⟩ := reached.before before
  exact ⟨(Parser.source_of_reaches reached).trans same, _, rest, before'⟩

/-- All comments before which a cursor comes stand behind a statement. -/
def IsBehind (source : Text) (start : Cursor) (stmt : Stmt) : Prop :=
  ∀ span ∈ stmt.span?, start.Notes fun comment => comment <:+: source.dropBytes span.stop

theorem IsBehind.reaches {stmt : Stmt} (isBehind : start.IsBehind source stmt)
    (reached : start.Reaches stop)
    : stop.IsBehind source stmt :=
  fun span given => (isBehind span given).reaches reached

/-- All comments before which a cursor comes stand behind the statements of an item. -/
def IsBehindAll (source : Text) (start : Cursor) (item : Item) : Prop :=
  ∀ stmt ∈ item.stmts, start.IsBehind source stmt

theorem IsBehindAll.reaches {item : Item} (isBehind : start.IsBehindAll source item)
    (reached : start.Reaches stop)
    : stop.IsBehindAll source item :=
  fun stmt listed => (isBehind stmt listed).reaches reached

end Cursor

namespace Parser

variable {α : Type} {source : Text} {start stop : Cursor}

/-- Where each turn leaves a cursor behind what it finds, and from there on all that is found is
related to it, the findings of the turns are related one by one.
-/
theorem Turns.pairwise {turn : Parser (Turn α)} {found : List α} {related : α → α → Prop}
    {kept : Cursor → Prop} {behind : Cursor → α → Prop}
    (keeps : ∀ {start stop : Cursor}, kept start → start.Reaches stop → kept stop)
    (lasts : ∀ {start stop : Cursor} {x}, behind start x → start.Reaches stop → behind stop x)
    (single : ∀ {start stop result}, turn.run start = .ok (result, stop) → result.found.length ≤ 1)
    (each
      : ∀ {start stop result}, kept start
          → turn.run start = .ok (result, stop) → ∀ x ∈ result.found, behind stop x)
    (meets
      : ∀ {start stop found x}, behind start x
          → Turns turn start found stop → ∀ y ∈ found, related x y)
    (held : kept start) (turns : Turns turn start found stop)
    : found.Pairwise related ∧ ∀ x ∈ found, behind stop x := by
  have alone {found : List α} (few : found.length ≤ 1) : found.Pairwise related := by
    match found, few with
    | [], _ => exact .nil
    | [x], _ => exact List.pairwise_singleton related x
  induction turns with
  | last ran => exact ⟨alone (single ran), each held ran⟩
  | more ran rest ih =>
      obtain ⟨later, ends⟩ := ih (keeps held (reaches_of_run ran))
      have here := each held ran
      refine ⟨List.pairwise_append.mpr ⟨alone (single ran), later,
        fun x listed => meets (here x listed) rest⟩, fun x listed => ?_⟩
      rcases List.mem_append.mp listed with first | other
      · exact lasts (here x first) rest.reaches
      · exact ends x other

/-- A statement leaves the cursor behind itself. -/
theorem isBehind_of_stmt {found : Stmt} (isIn : start.IsIn source) (guard : AtStmt start)
    (ran : stmt.run start = .ok (found, stop))
    : stop.IsBehind source found := by
  obtain ⟨rfl, front, pieces, before⟩ := isIn
  obtain ⟨gap, block, rest, passed, others, rfl, _, _, rfl, _, before', _, isPart⟩ :=
    exists_block before guard ran
  obtain ⟨front', whole, placed⟩ := isPart.placed
  rintro span given
  obtain rfl := Option.some.inj (placed.symm.trans given)
  have behind : start.source.dropBytes (front'.size + (joined block).size)
      = joined (passed ++ others) := by
    rw [whole, ← Text.size_append, Text.dropBytes_append]
  refine before'.notes fun piece listed _ => ?_
  rw [behind, joined_append]
  exact (isInfix_joined listed).trans (List.suffix_append _ _).isInfix

theorem wraps_single {turn : Parser (Turn α)} {wrap : Stmt → α} (wraps : Wraps turn wrap)
    (last : ∀ {start stop results}, turn.run start = .ok (.last results, stop) → results = [])
    {result : Turn α} (ran : turn.run start = .ok (result, stop))
    : result.found.length ≤ 1 := by
  cases result with
  | last results =>
      rw [last ran]
      exact Nat.zero_le 1
  | more results =>
      obtain ⟨found, rfl, _⟩ := wraps.more ran
      exact Nat.le_refl 1

/-- Statements of a namespace lead those behind them, and the cursor leaves them all behind. -/
theorem leads_of_namespaceTurns {braced : Bool} {found : List Stmt} (isIn : start.IsIn source)
    (turns : Turns (namespaceTurn braced) start found stop)
    : (found.Pairwise fun first second => first.Leads source (.plain second))
      ∧ ∀ stmt ∈ found, stop.IsBehind source stmt := by
  refine turns.pairwise Cursor.IsIn.reaches Cursor.IsBehind.reaches
    (wraps_single (wraps_namespaceTurn braced) fun ran => (namespaceTurn_last ran).1)
    (fun {start stop result} isIn ran => ?_) (fun behind turns stmt listed span given => ?_) isIn
  · cases result with
    | last results =>
        rw [(namespaceTurn_last ran).1]
        nofun
    | more results =>
        obtain ⟨found, rfl, reads⟩ := (wraps_namespaceTurn braced).more ran
        intro stmt listed
        obtain rfl : stmt = found := by simpa [Turn.found] using listed
        obtain ⟨guard, read⟩ := reads rfl
        exact isBehind_of_stmt isIn guard read
  · exact turns.forall_of_kept Cursor.Notes.reaches isNoted_of_namespaceTurn (behind span given) stmt
      listed

/-- Statements of a namespace lead those behind them, and those behind the namespace. -/
theorem leads_of_namespaceScope {space : Namespace} (isIn : start.IsIn source)
    (ran : namespaceScope.run start = .ok (space, stop))
    : (space.stmts.Pairwise fun first second => first.Leads source (.plain second))
      ∧ ∀ stmt ∈ space.stmts, stop.IsBehind source stmt := by
  obtain ⟨keyword, named, middle, opened, entered, closed, expected, read, marked, commented,
    collected, leaves, _⟩ := namespaceScope_eq_ok.mp ran
  have reached := (reaches_of_run expected).trans ((reaches_of_run read).trans
    ((reaches_of_run marked).trans (reaches_of_run commented)))
  obtain ⟨inner, behind⟩ :=
    leads_of_namespaceTurns (isIn.reaches reached) (turns_of_collect collected)
  exact ⟨inner, fun stmt listed => (behind stmt listed).reaches (reaches_of_run leaves)⟩

/-- An item leaves the cursor behind its statements, which lead each other. -/
theorem leads_of_itemTurn {result : Turn Item} (isIn : start.IsIn source)
    (ran : itemTurn.run start = .ok (result, stop))
    : ∀ item ∈ result.found,
        (item.stmts.Pairwise fun first second => first.Leads source (.plain second))
        ∧ stop.IsBehindAll source item := by
  cases result with
  | last results =>
      rw [(itemTurn_last ran).1]
      nofun
  | more results =>
      obtain ⟨found, rfl, reads⟩ := wraps_itemTurn.more ran
      intro item listed
      obtain rfl : item = found := by simpa [Turn.found] using listed
      cases item with
      | plain stmt =>
          obtain ⟨guard, read⟩ := reads rfl
          refine ⟨List.pairwise_singleton _ _, fun other listed => ?_⟩
          rw [List.mem_singleton.mp listed]
          exact isBehind_of_stmt isIn guard read
      | scope space => exact leads_of_namespaceScope isIn (namespaceScope_of_itemTurn ran).2

end Parser

open ImportHeader.Parser

/-- In a source that was parsed, all comments of an item stand behind the statements before it. -/
theorem leads_of_parse {source : Text} {file : SourceFile} {tag : OpenTag}
    (parsed : parse source = .ok file) (tagged : file.openTag? = some tag)
    : (file.items.Pairwise fun first second => ∀ stmt ∈ first.stmts, stmt.Leads source second)
      ∧ ∀ item ∈ file.items,
          item.stmts.Pairwise fun first second => first.Leads source (.plain second) := by
  obtain ⟨markup, code, entered, stop, coded, _, _, commented, turns⟩ :=
    exists_run_of_parse parsed tagged
  have isIn : entered.IsIn source :=
    Cursor.IsIn.reaches ⟨rfl, _, _, coded.before⟩ (reaches_of_run commented)
  constructor
  · refine (turns.pairwise Cursor.IsIn.reaches (@Cursor.IsBehindAll.reaches source)
      (wraps_single wraps_itemTurn fun ran => (itemTurn_last ran).1)
      (fun isIn ran item listed => (leads_of_itemTurn isIn ran item listed).2)
      (fun behind turns item listed stmt inside span given => ?_) isIn).1
    exact isNoted_of_turns (behind stmt inside span given) turns item listed
  · exact turns.forall_of_kept Cursor.IsIn.reaches
      (fun isIn ran item listed => (leads_of_itemTurn isIn ran item listed).1) isIn

end ImportHeader
