import ImportHeader.Proofs.Parser.Namespace
import ImportHeader.Proofs.Token.Imports

/-! Printed items are read back: from the tokens of a printed list or group of items the parser reads
one that prints the same.
-/

namespace ImportHeader

open Lexer

/-- An item as it is read back. -/
def ImportItem.reread (item : ImportItem) : ImportItem :=
  ⟨item.name.imported, item.alias?, item.kind?, none⟩

/-- A name of an import as it is read back from its text. -/
def Name.respelled (name : Name) : Name :=
  ((ofText? name.joined).getD name).imported

/-- An item whose name can be written, as it is read back. -/
def ImportItem.respelled (item : ImportItem) : ImportItem :=
  ⟨item.name.respelled, item.alias?, item.kind?, none⟩

/-- An import whose names can be written, as it is read back. -/
def Import.respelled (declaration : Import) : Import :=
  ⟨declaration.kind, declaration.group?.map Name.respelled,
    declaration.items.map ImportItem.respelled⟩

/-- An import as it is read back. -/
def Import.reread (declaration : Import) : Import :=
  ⟨declaration.kind, declaration.group?.map Name.imported,
    declaration.items.map ImportItem.reread⟩

theorem Name.imported_imported (name : Name) : name.imported.imported = name.imported := by
  unfold imported ofSegments?
  split
  · rename_i empty
    simp [empty]
  · rename_i full
    simp [full]

theorem Name.respelled_eq {name : Name} (printable : name.isPrintable = true)
    : name.respelled = name.imported := by
  rw [respelled, ofText?_joined printable, Option.getD_some, imported_imported]

/-- What can be printed is read back as it is. -/
theorem Import.respelled_eq {declaration : Import} (printable : declaration.isPrintable = true)
    : declaration.respelled = declaration.reread := by
  obtain ⟨both, _⟩ := Bool.and_eq_true_iff.mp printable
  obtain ⟨items, grouped⟩ := Bool.and_eq_true_iff.mp both
  rw [respelled, reread, Import.mk.injEq]
  refine ⟨rfl, ?_, List.map_congr_left fun item listed => ?_⟩
  · cases group : declaration.group? with
    | none => rfl
    | some name =>
        rw [group] at grouped
        rw [Option.map_some, Option.map_some, Name.respelled_eq grouped]
  · have named := (Bool.and_eq_true_iff.mp (List.all_eq_true.mp items item listed)).1
    rw [ImportItem.respelled, ImportItem.reread, Name.respelled_eq named]

theorem Import.print_unplaced (declaration : Import)
    : declaration.unplaced.print = declaration.print := by
  have items : declaration.unplaced.items.map ImportItem.print
      = declaration.items.map ImportItem.print := by
    rw [Import.unplaced, List.map_map]
    rfl
  unfold Import.print
  rw [items]
  rfl

theorem ImportItem.print_reread (item : ImportItem) : item.reread.print = item.print := by
  unfold ImportItem.print reread
  rw [Name.joined_imported]

theorem Import.print_reread (declaration : Import)
    : declaration.reread.print = declaration.print := by
  have items : (declaration.items.map ImportItem.reread).map ImportItem.print
      = declaration.items.map ImportItem.print := by
    rw [List.map_map]
    exact List.map_congr_left fun item _ => ImportItem.print_reread item
  unfold Import.print reread
  rw [items]
  cases declaration.group? with
  | none => rfl
  | some group => simp only [Option.map_some, Name.joined_imported]

/-- The shapes of imports that the parser reads: only the items of a group have a kind of their
own, and only a group can be empty.
-/
structure Import.IsShaped (declaration : Import) : Prop where
  kinds : ∀ item ∈ declaration.items, item.kind? ≠ some .classLike
  listed
    : declaration.group? = none
      → declaration.items ≠ [] ∧ ∀ item ∈ declaration.items, item.kind? = none

/-- The tokens ahead of a cursor. -/
def Cursor.Sees (cursor : Cursor) (pieces : List Piece) : Prop :=
  cursor.ahead.map Lexeme.piece = pieces

namespace Parser

variable {start stop : Cursor} {piece : Piece} {rest : List Piece}

theorem sees_advance (sees : start.Sees (piece :: rest)) : start.advance.Sees rest := by
  obtain ⟨_, _, _, _, behind⟩ := token?_of_piece sees
  exact behind

theorem kind?_of_sees (sees : start.Sees (piece :: rest)) : start.kind? 0 = some piece.1 := by
  obtain ⟨token, here, kind, _, _⟩ := token?_of_piece sees
  rw [kind?_of_token? here, kind]

theorem kind?_one_of_sees {next : Piece} (sees : start.Sees (piece :: next :: rest))
    : start.kind? 1 = some next.1 := by
  rw [kind?_succ]
  exact kind?_of_sees (sees_advance sees)

theorem isAt_of_sees (sees : start.Sees (piece :: rest)) (kind : TokenKind)
    : start.isAt kind = (piece.1 == kind) := by
  rw [Cursor.isAt, kind?_of_sees sees]
  rfl

theorem atKeyword_of_sees (sees : start.Sees (piece :: rest)) (keyword : Text)
    : start.atKeyword keyword = (piece.1 == .name && Text.sameFolded piece.2 keyword) := by
  obtain ⟨token, here, kind, text, _⟩ := token?_of_piece sees
  rw [Cursor.atKeyword, Cursor.isKeyword, here]
  simp [Token.isKeyword, kind, text]

theorem run_eat (sees : start.Sees (piece :: rest))
    : (eat piece.1).run start = .ok (true, start.advance) := by
  have here := isAt_of_sees sees piece.1
  rw [beq_self_eq_true] at here
  exact eat_eq_ok.mpr ⟨here.symm, by rw [if_pos here]⟩

theorem run_eat_other {kind : TokenKind} (sees : start.Sees (piece :: rest))
    (other : piece.1 ≠ kind)
    : (eat kind).run start = .ok (false, start) := by
  have here := isAt_of_sees sees kind
  rw [beq_false_of_ne other] at here
  exact eat_eq_ok.mpr ⟨here.symm, by rw [here]; rfl⟩

theorem run_name? {text : Text} {name : Name} (sees : start.Sees ((.name, text) :: rest))
    (read : Name.ofText? text = some name)
    : ∃ located, name?.run start = .ok (some located, start.advance) ∧ located.name = name := by
  obtain ⟨token, here, kind, same, _⟩ := token?_of_piece sees
  obtain ⟨located, found, named⟩ : ∃ located,
      LocatedName.read? token.text token.span = some located ∧ located.name = name :=
    Option.map_eq_some_iff.mp (by rw [LocatedName.map_name_read?, same, read])
  exact ⟨located, name?_eq_ok.mpr (.inl ⟨token, here, kind, found.symm, rfl⟩), named⟩

theorem run_expectName {what : Expectation} {text : Text} {name : Name}
    (sees : start.Sees ((.name, text) :: rest)) (read : Name.ofText? text = some name)
    : ∃ located, (expectName what).run start = .ok (located, start.advance)
        ∧ located.name = name := by
  obtain ⟨located, ran, named⟩ := run_name? sees read
  exact ⟨located, bind_eq_ok.mpr ⟨_, _, ran, pure_eq_ok.mpr ⟨rfl, rfl⟩⟩, named⟩

-----------------------------------------------------------------------------------------
-- Items
-----------------------------------------------------------------------------------------

def aliasTokens : Option Text → List Piece
  | some text => [word "as", word text]
  | none => []

/-- The tokens of an item behind its keyword. -/
def itemTokens (item : ImportItem) : List Piece :=
  word item.name.joined :: aliasTokens item.alias?

theorem ofText?_of_isIdentifier {text : Text} (identifier : text.isIdentifier = true)
    : Name.ofText? text = some ⟨[text], .unqualified⟩ := by
  let name : Name := ⟨[text], .unqualified⟩
  have printable : name.isPrintable = true :=
    Name.isPrintable_iff.mpr ⟨List.cons_ne_nil _ _, by simpa [name] using identifier, .inl rfl⟩
  have same : name.joined = text := List.intercalate_singleton
  have read := Name.ofText?_joined printable
  rwa [same, Name.imported_eq printable] at read

theorem run_alias? {alias? : Option Text}
    (identifier : ∀ text ∈ alias?, Text.isIdentifier text = true)
    (sees : start.Sees (aliasTokens alias? ++ piece :: rest)) (other : piece.1 ≠ .name)
    : ∃ stop, Parser.alias?.run start = .ok (alias?, stop) ∧ stop.Sees (piece :: rest) := by
  unfold Parser.alias?
  cases alias? with
  | none =>
      have keyword := atKeyword_of_sees sees "as"
      rw [beq_false_of_ne other, Bool.false_and] at keyword
      have missed : (eatKeyword "as").run start = .ok (false, start) :=
        eatKeyword_eq_ok.mpr ⟨keyword.symm, by rw [keyword]; rfl⟩
      exact ⟨start, bind_eq_ok.mpr ⟨false, start, missed, pure_eq_ok.mpr ⟨rfl, rfl⟩⟩, sees⟩
  | some text =>
      have keyword : start.atKeyword "as" = true := atKeyword_of_sees sees "as"
      have ate : (eatKeyword "as").run start = .ok (true, start.advance) :=
        eatKeyword_eq_ok.mpr ⟨keyword.symm, by rw [if_pos keyword]⟩
      obtain ⟨located, ran, named⟩ :=
        run_name? (sees_advance sees) (ofText?_of_isIdentifier (identifier text rfl))
      have last : (some located).map (·.name.last) = some text := by
        rw [Option.map_some, named]
        rfl
      exact ⟨_, bind_eq_ok.mpr ⟨true, _, ate, bind_eq_ok.mpr ⟨_, _, ran,
        pure_eq_ok.mpr ⟨last, rfl⟩⟩⟩, sees_advance (sees_advance sees)⟩

theorem run_importItem {located : LocatedName} {kind? : Option ImportKind}
    {alias? : Option Text} (identifier : ∀ text ∈ alias?, Text.isIdentifier text = true)
    (sees : start.Sees (aliasTokens alias? ++ piece :: rest)) (other : piece.1 ≠ .name)
    : ∃ item stop, (importItem located kind?).run start = .ok (item, stop)
        ∧ item.unplaced = ⟨located.name.imported, alias?, kind?, none⟩
        ∧ stop.Sees (piece :: rest) := by
  obtain ⟨stop, renamed, sees'⟩ := run_alias? identifier sees other
  refine ⟨_, stop, bind_eq_ok.mpr ⟨_, _, renamed, get_bind_eq_ok.mpr (pure_eq_ok.mpr ⟨rfl, rfl⟩)⟩,
    rfl, sees'⟩

theorem run_importKind?_some {kind : ImportKind} {keyword text : Text}
    (spelled : kind.keyword? = some keyword)
    (sees : start.Sees (word keyword :: (.name, text) :: rest))
    : importKind?.run start = .ok (some kind, start.advance) := by
  have named := kind?_one_of_sees sees
  have function := atKeyword_of_sees sees "function"
  have const := atKeyword_of_sees sees "const"
  rw [importKind?, get_bind_eq_ok]
  rw [if_neg (by simp [named]), function, const]
  cases kind with
  | classLike => cases spelled
  | function =>
      obtain rfl := Option.some.inj spelled
      exact skip_bind_eq_ok.mpr (pure_eq_ok.mpr ⟨rfl, rfl⟩)
  | const =>
      obtain rfl := Option.some.inj spelled
      exact skip_bind_eq_ok.mpr (pure_eq_ok.mpr ⟨rfl, rfl⟩)

theorem run_importKind?_none {text : Text} {next : Piece}
    (sees : start.Sees (word text :: next :: rest))
    (plain : next.1 ≠ .name
      ∨ Text.sameFolded text "function" = false ∧ Text.sameFolded text "const" = false)
    : importKind?.run start = .ok (none, start) := by
  have next' := kind?_one_of_sees sees
  have function := atKeyword_of_sees sees "function"
  have const := atKeyword_of_sees sees "const"
  rw [importKind?, get_bind_eq_ok]
  rcases plain with other | ⟨first, second⟩
  · rw [if_pos (by simpa [next'] using other)]
    exact pure_eq_ok.mpr ⟨rfl, rfl⟩
  · simp only [word, first, second, Bool.and_false] at function const
    rw [function, const]
    simp

theorem sameFolded_joined {name : Name} {keyword : Text}
    (several : 1 < name.length) (solid : '\\' ∉ Text.lower keyword)
    : Text.sameFolded name.joined keyword = false := by
  obtain ⟨first, second, others, segments⟩ : ∃ first second others,
      name.segments = first :: second :: others := by
    unfold Name.length at several
    match name.segments, several with
    | first :: second :: others, _ => exact ⟨first, second, others, rfl⟩
  rw [Bool.eq_false_iff]
  intro same
  have slash : Char.toLower '\\' ∈ Text.lower name.joined := by
    refine List.mem_map_of_mem ?_
    rw [Name.joined, segments, List.intercalate_cons_cons]
    simp
  rw [eq_of_beq same] at slash
  exact solid slash

/-- The name of an item that is not ambiguous is not taken for a keyword. -/
theorem not_keyword_of_plain {item : ImportItem} (spelled : item.isSpelled = true)
    (plain : item.isAmbiguous = false) (renamed : item.alias?.isSome = true)
    : Text.sameFolded item.name.joined "function" = false
      ∧ Text.sameFolded item.name.joined "const" = false := by
  obtain ⟨named, _⟩ := spelled_item spelled
  by_cases single : item.name.length = 1
  · have joined : item.name.joined = item.name.first := by
      unfold Name.length at single
      obtain ⟨segment, segments⟩ := List.length_eq_one_iff.mp single
      rw [Name.joined, Name.first, segments, List.intercalate_singleton]
      rfl
    rw [joined]
    simpa [ImportItem.isAmbiguous, renamed, single] using plain
  · have several : 1 < item.name.length := by
      have some := (Name.isSpelled_iff.mp named).1
      have pos := List.length_pos_iff.mpr some
      unfold Name.length at single ⊢
      omega
    exact ⟨sameFolded_joined several (by decide), sameFolded_joined several (by decide)⟩

-----------------------------------------------------------------------------------------
-- Lists and groups
-----------------------------------------------------------------------------------------

/-- The tokens of an item with its keyword. -/
def entryTokens (item : ImportItem) : List Piece :=
  item.keyword?.toList.map word ++ itemTokens item

def listTokens : List ImportItem → List Piece
  | [] => []
  | [item] => entryTokens item
  | item :: next :: rest => entryTokens item ++ (.comma, [',']) :: listTokens (next :: rest)

theorem solids_keywordPieces (keyword? : Option Text)
    : solids (keywordPieces keyword?) = keyword?.toList.map word := by
  cases keyword? <;> rfl

theorem solids_itemPieces (item : ImportItem) : solids (itemPieces item) = entryTokens item := by
  rw [itemPieces, solids_append, solids_keywordPieces, entryTokens, itemTokens]
  cases item.alias? <;> rfl

theorem solids_listPieces (items : List ImportItem)
    : solids (listPieces items) = listTokens items := by
  fun_induction listPieces items with
  | case1 => rfl
  | case2 item => exact solids_itemPieces item
  | case3 item next others ih =>
      rw [solids_append, solids_itemPieces, listTokens, ← ih]
      rfl

variable {item : ImportItem} {items : List ImportItem}

/-- A written name of an import is read back. -/
theorem run_expectName_spelled {what : Expectation} {name : Name} (spelled : name.isSpelled = true)
    (sees : start.Sees (word name.joined :: rest))
    : ∃ located, (expectName what).run start = .ok (located, start.advance)
        ∧ located.name.imported = name.respelled := by
  obtain ⟨read, same⟩ := Name.exists_ofText?_joined spelled
  obtain ⟨located, ran, rfl⟩ := run_expectName sees same
  refine ⟨located, ran, ?_⟩
  rw [Name.respelled, same, Option.getD_some]

theorem run_entry {kind? : Option ImportKind} {what : Expectation}
    (spelled : item.isSpelled = true)
    (sees : start.Sees (itemTokens item ++ piece :: rest)) (other : piece.1 ≠ .name)
    : ∃ located middle found stop,
        (expectName what).run start = .ok (located, middle)
        ∧ (importItem located kind?).run middle = .ok (found, stop)
        ∧ found.unplaced = ⟨item.name.respelled, item.alias?, kind?, none⟩
        ∧ stop.Sees (piece :: rest) := by
  obtain ⟨named, renamed⟩ := spelled_item spelled
  obtain ⟨located, read, name_eq⟩ := run_expectName_spelled named sees
  obtain ⟨found, stop, ran, same, sees'⟩ := run_importItem renamed (sees_advance sees) other
  exact ⟨located, _, found, stop, read, ran, by rw [same, name_eq], sees'⟩

theorem run_importListTurn_more (spelled : item.isSpelled = true)
    (sees : start.Sees (itemTokens item ++ (.comma, [',']) :: rest))
    : ∃ found stop, importListTurn.run start = .ok (.more [found], stop)
        ∧ found.unplaced = ⟨item.name.respelled, item.alias?, none, none⟩ ∧ stop.Sees rest := by
  obtain ⟨located, middle, found, stop, named, read, same, sees'⟩ :=
    run_entry spelled sees (by decide)
  exact ⟨found, stop.advance, bind_eq_ok.mpr ⟨_, _, named, bind_eq_ok.mpr ⟨_, _, read,
    bind_eq_ok.mpr ⟨_, _, run_eat sees', pure_eq_ok.mpr ⟨rfl, rfl⟩⟩⟩⟩, same, sees_advance sees'⟩

theorem run_importListTurn_last (spelled : item.isSpelled = true)
    (sees : start.Sees (itemTokens item ++ (.semicolon, [';']) :: rest))
    : ∃ found stop, importListTurn.run start = .ok (.last [found], stop)
        ∧ found.unplaced = ⟨item.name.respelled, item.alias?, none, none⟩
        ∧ stop.Sees ((.semicolon, [';']) :: rest) := by
  obtain ⟨located, middle, found, stop, named, read, same, sees'⟩ :=
    run_entry spelled sees (by decide)
  exact ⟨found, stop, bind_eq_ok.mpr ⟨_, _, named, bind_eq_ok.mpr ⟨_, _, read,
    bind_eq_ok.mpr ⟨_, _, run_eat_other sees' (by decide), pure_eq_ok.mpr ⟨rfl, rfl⟩⟩⟩⟩, same,
    sees'⟩

theorem entryTokens_of_none (plain : item.kind? = none) : entryTokens item = itemTokens item := by
  rw [entryTokens, ImportItem.keyword?, plain]
  rfl

theorem respelled_of_none (plain : item.kind? = none)
    : item.respelled = ⟨item.name.respelled, item.alias?, none, none⟩ := by
  rw [ImportItem.respelled, plain]

/-- The items of a list are read back. -/
theorem exists_listTurns (some : items ≠ []) (spelled : ∀ item ∈ items, item.isSpelled = true)
    (plain : ∀ item ∈ items, item.kind? = none)
    (sees : start.Sees (listTokens items ++ (.semicolon, [';']) :: rest))
    : ∃ found stop, Turns importListTurn start found stop
        ∧ found.map ImportItem.unplaced = items.map ImportItem.respelled
        ∧ stop.Sees ((.semicolon, [';']) :: rest) := by
  fun_induction listTokens items generalizing start with
  | case1 => exact absurd rfl some
  | case2 item =>
      rw [entryTokens_of_none (plain item List.mem_cons_self)] at sees
      obtain ⟨found, stop, ran, same, sees'⟩ :=
        run_importListTurn_last (spelled item List.mem_cons_self) sees
      refine ⟨[found], stop, .last ran, ?_, sees'⟩
      rw [List.map_singleton, List.map_singleton, same,
        respelled_of_none (plain item List.mem_cons_self)]
  | case3 item next others ih =>
      rw [entryTokens_of_none (plain item List.mem_cons_self), List.append_assoc,
        List.cons_append] at sees
      obtain ⟨found, middle, ran, same, sees'⟩ :=
        run_importListTurn_more (spelled item List.mem_cons_self) sees
      obtain ⟨later, stop, turns, same', final⟩ := ih (List.cons_ne_nil _ _)
        (fun other listed => spelled other (List.mem_cons_of_mem _ listed))
        (fun other listed => plain other (List.mem_cons_of_mem _ listed)) sees'
      refine ⟨[found] ++ later, stop, .more ran turns, ?_, final⟩
      rw [List.map_append, same', List.map_singleton, same,
        ← respelled_of_none (plain item List.mem_cons_self)]
      rfl

/-- The keyword of an item in a group is read back. -/
theorem run_importKind?_entry (spelled : item.isSpelled = true)
    (kinds : item.kind? ≠ some .classLike)
    (plain : item.keyword?.isSome = true ∨ item.isAmbiguous = false)
    (sees : start.Sees (entryTokens item ++ piece :: rest)) (other : piece.1 ≠ .name)
    : ∃ stop, importKind?.run start = .ok (item.kind?, stop)
        ∧ stop.Sees (itemTokens item ++ piece :: rest) := by
  unfold entryTokens at sees
  cases kind : item.kind? with
  | none =>
      have none : item.keyword? = none := by rw [ImportItem.keyword?, kind]; rfl
      rw [none] at plain sees
      refine ⟨start, ?_, sees⟩
      have apart := not_keyword_of_plain spelled (plain.resolve_left (by simp))
      unfold itemTokens at sees
      cases renamed : item.alias? with
      | none =>
          rw [renamed] at sees
          exact run_importKind?_none sees (.inl other)
      | some text =>
          rw [renamed] at sees
          exact run_importKind?_none sees (.inr (apart (by rw [renamed]; rfl)))
  | some itemKind =>
      obtain ⟨keyword, spelled⟩ : ∃ keyword, itemKind.keyword? = some keyword := by
        cases itemKind with
        | classLike => exact absurd kind kinds
        | function => exact ⟨_, rfl⟩
        | const => exact ⟨_, rfl⟩
      have keyed : item.keyword? = some keyword := by
        rw [ImportItem.keyword?, kind]
        exact spelled
      rw [keyed] at sees
      exact ⟨start.advance, run_importKind?_some spelled sees, sees_advance sees⟩

theorem entryTokens_head (item : ImportItem)
    : ∃ text others, entryTokens item = word text :: others := by
  unfold entryTokens itemTokens
  cases item.keyword? with
  | none => exact ⟨_, _, rfl⟩
  | some keyword => exact ⟨_, _, rfl⟩

theorem run_eat_rightBrace_entry (sees : start.Sees (entryTokens item ++ rest))
    : (eat .rightBrace).run start = .ok (false, start) := by
  obtain ⟨text, others, same⟩ := entryTokens_head item
  rw [same] at sees
  exact run_eat_other sees (show TokenKind.name ≠ .rightBrace by decide)

theorem run_importGroupTurn_more (spelled : item.isSpelled = true)
    (kinds : item.kind? ≠ some .classLike)
    (plain : item.keyword?.isSome = true ∨ item.isAmbiguous = false)
    (sees : start.Sees (entryTokens item ++ (.comma, [',']) :: rest))
    : ∃ found stop, importGroupTurn.run start = .ok (.more [found], stop)
        ∧ found.unplaced = item.respelled ∧ stop.Sees rest := by
  obtain ⟨keyed, kinded, sees'⟩ := run_importKind?_entry spelled kinds plain sees (by decide)
  obtain ⟨located, middle, found, stop, named, read, same, sees''⟩ :=
    run_entry spelled sees' (by decide)
  refine ⟨found, stop.advance, ?_, same, sees_advance sees''⟩
  unfold importGroupTurn
  exact bind_eq_ok.mpr ⟨_, _, run_eat_rightBrace_entry sees, bind_eq_ok.mpr ⟨_, _, kinded,
    bind_eq_ok.mpr ⟨_, _, named, bind_eq_ok.mpr ⟨_, _, read, bind_eq_ok.mpr ⟨_, _, run_eat sees'',
      pure_eq_ok.mpr ⟨rfl, rfl⟩⟩⟩⟩⟩⟩

theorem run_importGroupTurn_last (spelled : item.isSpelled = true)
    (kinds : item.kind? ≠ some .classLike)
    (plain : item.keyword?.isSome = true ∨ item.isAmbiguous = false)
    (sees : start.Sees (entryTokens item ++ (.rightBrace, ['}']) :: rest))
    : ∃ found stop, importGroupTurn.run start = .ok (.last [found], stop)
        ∧ found.unplaced = item.respelled ∧ stop.Sees rest := by
  obtain ⟨keyed, kinded, sees'⟩ := run_importKind?_entry spelled kinds plain sees (by decide)
  obtain ⟨located, middle, found, stop, named, read, same, sees''⟩ :=
    run_entry spelled sees' (by decide)
  obtain ⟨token, here, kind, _, _⟩ := token?_of_piece sees''
  refine ⟨found, stop.advance, ?_, same, sees_advance sees''⟩
  unfold importGroupTurn
  exact bind_eq_ok.mpr ⟨_, _, run_eat_rightBrace_entry sees, bind_eq_ok.mpr ⟨_, _, kinded,
    bind_eq_ok.mpr ⟨_, _, named, bind_eq_ok.mpr ⟨_, _, read, bind_eq_ok.mpr ⟨_, _,
      run_eat_other sees'' (by decide), bind_eq_ok.mpr ⟨_, _,
        expect_eq_ok.mpr ⟨here, kind, rfl⟩, pure_eq_ok.mpr ⟨rfl, rfl⟩⟩⟩⟩⟩⟩⟩

/-- The items of a group are read back, through the brace that closes it. -/
theorem exists_groupTurns (spelled : ∀ item ∈ items, item.isSpelled = true)
    (kinds : ∀ item ∈ items, item.kind? ≠ some .classLike)
    (plain : ∀ item ∈ items, item.keyword?.isSome = true ∨ item.isAmbiguous = false)
    (sees : start.Sees (listTokens items ++ (.rightBrace, ['}']) :: rest))
    : ∃ found stop, Turns importGroupTurn start found stop
        ∧ found.map ImportItem.unplaced = items.map ImportItem.respelled ∧ stop.Sees rest := by
  fun_induction listTokens items generalizing start with
  | case1 =>
      have ran : importGroupTurn.run start = .ok (.last [], start.advance) :=
        bind_eq_ok.mpr ⟨_, _, run_eat sees, pure_eq_ok.mpr ⟨rfl, rfl⟩⟩
      exact ⟨[], _, .last ran, rfl, sees_advance sees⟩
  | case2 item =>
      obtain ⟨found, stop, ran, same, sees'⟩ := run_importGroupTurn_last
        (spelled item List.mem_cons_self) (kinds item List.mem_cons_self)
        (plain item List.mem_cons_self) sees
      exact ⟨[found], stop, .last ran, by rw [List.map_singleton, same, List.map_singleton], sees'⟩
  | case3 item next others ih =>
      rw [List.append_assoc, List.cons_append] at sees
      obtain ⟨found, middle, ran, same, sees'⟩ := run_importGroupTurn_more
        (spelled item List.mem_cons_self) (kinds item List.mem_cons_self)
        (plain item List.mem_cons_self) sees
      obtain ⟨later, stop, turns, same', final⟩ := ih
        (fun other listed => spelled other (List.mem_cons_of_mem _ listed))
        (fun other listed => kinds other (List.mem_cons_of_mem _ listed))
        (fun other listed => plain other (List.mem_cons_of_mem _ listed)) sees'
      refine ⟨[found] ++ later, stop, .more ran turns, ?_, final⟩
      rw [List.map_append, same', List.map_singleton, same, List.map_cons]
      rfl

end Parser

end ImportHeader
