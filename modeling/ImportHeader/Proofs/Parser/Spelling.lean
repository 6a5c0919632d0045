import ImportHeader.Proofs.Parser.Notes

/-! The names that a parsed file declares and imports. Each of them was read from a name token, so
its segments are identifiers.
-/

namespace ImportHeader

open ImportHeader.Lexer

/-- All names of the import that a statement is, if it is one, can be written. -/
def Stmt.IsSpelled (stmt : Stmt) : Prop :=
  ∀ declaration ∈ stmt.declaration?, declaration.isSpelled = true

/-- The name of a namespace and the names that it imports can be written. -/
structure Namespace.IsSpelled (space : Namespace) : Prop where
  name : ∀ located ∈ space.name?, located.name.isSpelled = true
  stmts : ∀ stmt ∈ space.stmts, stmt.IsSpelled

/-- All names that a statement imports, or a namespace, can be written. -/
def Item.IsSpelled : Item → Prop
  | .plain stmt => stmt.IsSpelled
  | .scope space => space.IsSpelled

/-- What a name token reads as can be written. -/
def Token.IsSpelled (token : Token) : Prop :=
  token.kind = .name → ∀ name ∈ Name.ofText? token.text, name.isSpelled = true

theorem isSpelled_of_mem_cut {text : Text} {piece : Piece} (listed : piece ∈ cut text)
    : piece.1 = .name → ∀ name ∈ Name.ofText? piece.2, name.isSpelled = true := by
  suffices each : ∀ piece ∈ cut text,
      piece.1 = .name → ∀ name ∈ Name.ofText? piece.2, name.isSpelled = true from each piece listed
  refine forall_mem_cut (fun c rest named name read => ?_) text
  rcases isWritten_of_munch named with written | ⟨text, same, written⟩
  · obtain ⟨⟨name', read', spelled⟩, _⟩ := Name.exists_ofText? written
    exact Option.some.inj (read'.symm.trans read) ▸ spelled
  · obtain ⟨_, name', read', spelled⟩ := Name.exists_ofText? written
    rw [same] at read
    exact Option.some.inj (read'.symm.trans read) ▸ spelled

theorem Name.isSpelled_imported (name : Name) : name.imported.isSpelled = name.isSpelled := by
  rw [isSpelled, segments_imported, isSpelled]

/-- The last segment of a name that can be written is an identifier. -/
theorem Name.isIdentifier_last {name : Name} (spelled : name.isSpelled = true)
    : name.last.isIdentifier = true := by
  obtain ⟨some, identifiers⟩ := isSpelled_iff.mp spelled
  rw [last, List.getLastD_eq_getLast?, List.getLast?_eq_some_getLast some]
  exact identifiers _ (List.getLast_mem some)

/-- A cursor before tokens that read as names that can be written. -/
def Cursor.IsSpelled (cursor : Cursor) : Prop :=
  ∀ lexeme ∈ cursor.ahead, lexeme.token.IsSpelled

theorem Cursor.IsSpelled.reaches {start stop : Cursor} (spelled : start.IsSpelled)
    (reached : start.Reaches stop)
    : stop.IsSpelled :=
  fun lexeme listed => spelled lexeme (reached.ahead_suffix.subset listed)

theorem Cursor.isSpelled_ofTokens {source : Text} {tokens : List Token} {lastEnd : Nat}
    (all : ∀ token ∈ tokens, token.IsSpelled)
    : (ofTokens source tokens lastEnd).IsSpelled := by
  change ∀ lexeme ∈ (lexemes tokens).2, lexeme.token.IsSpelled
  induction tokens with
  | nil => nofun
  | cons token rest ih =>
      have later := ih fun other listed => all other (List.mem_cons_of_mem _ listed)
      rw [lexemes]
      dsimp only
      split
      · exact later
      · exact List.forall_mem_cons.mpr ⟨all token List.mem_cons_self, later⟩

namespace Parser

variable {start stop : Cursor}

theorem isSpelled_of_read? {token : Token} {found : LocatedName} (spelled : start.IsSpelled)
    (here : start.token? 0 = some token) (kind : token.kind = .name)
    (read : LocatedName.read? token.text token.span = some found)
    : found.name.isSpelled = true := by
  obtain ⟨lexeme, listed, rfl⟩ := Option.map_eq_some_iff.mp here
  refine spelled lexeme (List.mem_of_getElem? listed) kind found.name ?_
  rw [← LocatedName.map_name_read? lexeme.token.text lexeme.token.span, read]
  rfl

theorem isSpelled_of_name? {found : Option LocatedName} (spelled : start.IsSpelled)
    (ran : name?.run start = .ok (found, stop))
    : ∀ located ∈ found, located.name.isSpelled = true := by
  rcases name?_eq_ok.mp ran with ⟨token, here, kind, rfl, _⟩ | ⟨_, rfl, _⟩
  · exact fun located read => isSpelled_of_read? spelled here kind read
  · nofun

theorem isSpelled_of_expectName {what : Expectation} {found : LocatedName}
    (spelled : start.IsSpelled) (ran : (expectName what).run start = .ok (found, stop))
    : found.name.isSpelled = true := by
  obtain ⟨token, here, kind, read, _⟩ := expectName_eq_ok.mp ran
  exact isSpelled_of_read? spelled here kind read

theorem isIdentifier_of_alias? {found : Option Text} (spelled : start.IsSpelled)
    (ran : alias?.run start = .ok (found, stop))
    : found.all Text.isIdentifier = true := by
  obtain ⟨eaten, middle, ate, later⟩ := bind_eq_ok.mp ran
  split at later
  · obtain ⟨name?, _, read, done⟩ := bind_eq_ok.mp later
    obtain ⟨rfl, _⟩ := pure_eq_ok.mp done
    have names := isSpelled_of_name? (spelled.reaches (reaches_of_run ate)) read
    cases name? with
    | none => rfl
    | some located => exact Name.isIdentifier_last (names located rfl)
  · obtain ⟨rfl, _⟩ := pure_eq_ok.mp later
    rfl

theorem isSpelled_of_importItem {located : LocatedName} {kind? : Option ImportKind}
    {found : ImportItem} (spelled : start.IsSpelled) (named : located.name.isSpelled = true)
    (ran : (importItem located kind?).run start = .ok (found, stop))
    : found.isSpelled = true := by
  obtain ⟨alias?, middle, renamed, later⟩ := bind_eq_ok.mp ran
  rw [get_bind_eq_ok] at later
  obtain ⟨rfl, _⟩ := pure_eq_ok.mp later
  refine Bool.and_eq_true_iff.mpr ⟨?_, isIdentifier_of_alias? spelled renamed⟩
  rw [Name.isSpelled_imported, named]

theorem isSpelled_of_importListTurn {result : Turn ImportItem} (spelled : start.IsSpelled)
    (ran : importListTurn.run start = .ok (result, stop))
    : ∀ item ∈ result.found, item.isSpelled = true := by
  obtain ⟨located, middle, named, later⟩ := bind_eq_ok.mp ran
  obtain ⟨found, _, read, last⟩ := bind_eq_ok.mp later
  obtain ⟨more, _, _, done⟩ := bind_eq_ok.mp last
  have item : found.isSpelled = true :=
    isSpelled_of_importItem (spelled.reaches (reaches_of_run named))
      (isSpelled_of_expectName spelled named) read
  split at done
  · obtain ⟨rfl, _⟩ := pure_eq_ok.mp done
    simpa [Turn.found] using item
  · obtain ⟨rfl, _⟩ := pure_eq_ok.mp done
    simpa [Turn.found] using item

theorem isSpelled_of_importGroupTurn {result : Turn ImportItem} (spelled : start.IsSpelled)
    (ran : importGroupTurn.run start = .ok (result, stop))
    : ∀ item ∈ result.found, item.isSpelled = true := by
  unfold importGroupTurn at ran
  obtain ⟨closed, _, ate, later⟩ := bind_eq_ok.mp ran
  split at later
  · obtain ⟨rfl, _⟩ := pure_eq_ok.mp later
    nofun
  obtain ⟨kind?, _, kinded, later1⟩ := bind_eq_ok.mp later
  obtain ⟨located, _, named, later2⟩ := bind_eq_ok.mp later1
  obtain ⟨found, _, read, later3⟩ := bind_eq_ok.mp later2
  obtain ⟨more, _, _, done⟩ := bind_eq_ok.mp later3
  have naming := (spelled.reaches (reaches_of_run ate)).reaches (reaches_of_run kinded)
  have item : found.isSpelled = true :=
    isSpelled_of_importItem (naming.reaches (reaches_of_run named))
      (isSpelled_of_expectName naming named) read
  split at done
  · obtain ⟨rfl, _⟩ := pure_eq_ok.mp done
    simpa [Turn.found] using item
  · obtain ⟨_, _, _, done⟩ := bind_eq_ok.mp done
    obtain ⟨rfl, _⟩ := pure_eq_ok.mp done
    simpa [Turn.found] using item

theorem isSpelled_of_otherItems {found : List ImportItem} (spelled : start.IsSpelled)
    (ran : otherItems.run start = .ok (found, stop))
    : ∀ item ∈ found, item.isSpelled = true := by
  unfold otherItems at ran
  obtain ⟨more, _, ate, later⟩ := bind_eq_ok.mp ran
  split at later
  · exact (turns_of_collect later).forall_of_kept Cursor.IsSpelled.reaches
      isSpelled_of_importListTurn (spelled.reaches (reaches_of_run ate))
  · obtain ⟨rfl, _⟩ := pure_eq_ok.mp later
    nofun

theorem isSpelled_of_importNames {kind : ImportKind} {found : Import} (spelled : start.IsSpelled)
    (ran : (importNames kind).run start = .ok (found, stop))
    : found.isSpelled = true := by
  unfold importNames at ran
  obtain ⟨first, middle, named, later⟩ := bind_eq_ok.mp ran
  have naming := isSpelled_of_expectName spelled named
  have behind := spelled.reaches (reaches_of_run named)
  rw [get_bind_eq_ok] at later
  split at later
  · rw [skip_bind_eq_ok, skip_bind_eq_ok] at later
    obtain ⟨items, _, collected, done⟩ := bind_eq_ok.mp later
    obtain ⟨rfl, _⟩ := pure_eq_ok.mp done
    refine Bool.and_eq_true_iff.mpr ⟨List.all_eq_true.mpr ?_, ?_⟩
    · exact (turns_of_collect collected).forall_of_kept Cursor.IsSpelled.reaches
        isSpelled_of_importGroupTurn (behind.reaches Cursor.Reaches.refl.advance.advance)
    · exact (Name.isSpelled_imported first.name).trans naming
  · obtain ⟨item, _, read, later1⟩ := bind_eq_ok.mp later
    obtain ⟨others, _, listed, done⟩ := bind_eq_ok.mp later1
    obtain ⟨rfl, _⟩ := pure_eq_ok.mp done
    refine Bool.and_eq_true_iff.mpr ⟨List.all_eq_true.mpr ?_, rfl⟩
    exact List.forall_mem_cons.mpr ⟨isSpelled_of_importItem behind naming read,
      isSpelled_of_otherItems (behind.reaches (reaches_of_run read)) listed⟩

theorem isSpelled_of_importing {found : Import} (spelled : start.IsSpelled)
    (ran : importing.run start = .ok (found, stop))
    : found.isSpelled = true := by
  unfold importing at ran
  rw [skip_bind_eq_ok] at ran
  obtain ⟨kind?, _, kinded, later⟩ := bind_eq_ok.mp ran
  obtain ⟨result, _, named, later1⟩ := bind_eq_ok.mp later
  obtain ⟨_, _, _, done⟩ := bind_eq_ok.mp later1
  obtain ⟨rfl, _⟩ := pure_eq_ok.mp done
  have behind := spelled.reaches Cursor.Reaches.refl.advance
  exact isSpelled_of_importNames (behind.reaches (reaches_of_run kinded)) named

theorem isSpelled_of_stmt {found : Stmt} (spelled : start.IsSpelled)
    (ran : stmt.run start = .ok (found, stop))
    : found.IsSpelled := by
  obtain ⟨middle, read, _⟩ := stmt_eq_ok.mp ran
  intro declaration here
  rw [Stmt.kind_of_declaration? here] at read
  exact isSpelled_of_importing spelled (importing_of_stmtKind read)

theorem isSpelled_of_namespaceTurn {braced : Bool} {result : Turn Stmt} (spelled : start.IsSpelled)
    (ran : (namespaceTurn braced).run start = .ok (result, stop))
    : ∀ stmt ∈ result.found, stmt.IsSpelled := by
  cases result with
  | last results =>
      rw [(namespaceTurn_last ran).1]
      nofun
  | more results =>
      obtain ⟨found, rfl, reads⟩ := (wraps_namespaceTurn braced).more ran
      intro stmt listed
      obtain rfl : stmt = found := by simpa [Turn.found] using listed
      exact isSpelled_of_stmt spelled (reads rfl).2

theorem isSpelled_of_namespaceScope {space : Namespace} (spelled : start.IsSpelled)
    (ran : namespaceScope.run start = .ok (space, stop))
    : space.IsSpelled := by
  obtain ⟨keyword, named, middle, opened, entered, closed, expected, read, marked, commented,
    collected, _⟩ := namespaceScope_eq_ok.mp ran
  have naming := spelled.reaches (reaches_of_run expected)
  have entering := (naming.reaches (reaches_of_run read)).reaches (reaches_of_run marked)
  exact ⟨isSpelled_of_name? naming read,
    (turns_of_collect collected).forall_of_kept Cursor.IsSpelled.reaches isSpelled_of_namespaceTurn
      (entering.reaches (reaches_of_run commented))⟩

theorem isSpelled_of_itemTurn {result : Turn Item} (spelled : start.IsSpelled)
    (ran : itemTurn.run start = .ok (result, stop))
    : ∀ item ∈ result.found, item.IsSpelled := by
  cases result with
  | last results =>
      rw [(itemTurn_last ran).1]
      nofun
  | more results =>
      obtain ⟨found, rfl, reads⟩ := wraps_itemTurn.more ran
      intro item listed
      obtain rfl : item = found := by simpa [Turn.found] using listed
      cases item with
      | plain stmt => exact isSpelled_of_stmt spelled (reads rfl).2
      | scope space =>
          exact isSpelled_of_namespaceScope spelled (namespaceScope_of_itemTurn ran).2

end Parser

open ImportHeader.Parser

/-- All names that a source declares or imports can be written. -/
theorem isSpelled_of_parse {source : Text} {file : SourceFile} {tag : OpenTag}
    (parsed : parse source = .ok file) (tagged : file.openTag? = some tag)
    : ∀ item ∈ file.items, item.IsSpelled := by
  obtain ⟨markup, code, entered, stop, _, _, _, commented, turns⟩ :=
    exists_run_of_parse parsed tagged
  have spelled : (codeStart source markup tag.text code).IsSpelled :=
    Cursor.isSpelled_ofTokens fun token listed => isSpelled_of_mem_cut (piece_mem_cut listed)
  exact turns.forall_of_kept Cursor.IsSpelled.reaches isSpelled_of_itemTurn
    (spelled.reaches (reaches_of_run commented))

end ImportHeader
