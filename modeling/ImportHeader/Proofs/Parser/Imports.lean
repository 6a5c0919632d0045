import ImportHeader.Proofs.Parser.ImportItems

/-! Printed imports are read back: from the tokens of a printed import the parser reads one that
prints the same.
-/

namespace ImportHeader

open Lexer

namespace Parser

variable {start stop : Cursor} {rest : List Piece} {item : ImportItem} {items : List ImportItem}
  {declaration : Import}

-----------------------------------------------------------------------------------------
-- Imports
-----------------------------------------------------------------------------------------

def nameTokens (declaration : Import) : List Piece :=
  match declaration.group? with
  | some group =>
      word group.joined :: (.backslash, ['\\']) :: (.leftBrace, ['{'])
        :: (listTokens declaration.items ++ [(.rightBrace, ['}'])])
  | none => listTokens declaration.items

theorem solids_importPieces (declaration : Import)
    : solids (importPieces declaration)
      = word "use"
        :: (declaration.kind.keyword?.toList.map word
          ++ (nameTokens declaration ++ [(.semicolon, [';'])])) := by
  have names : solids (namePieces declaration) = nameTokens declaration := by
    unfold namePieces nameTokens
    cases declaration.group? with
    | none => exact solids_listPieces declaration.items
    | some group =>
        rw [← solids_listPieces]
        simp [solids, word, Piece.isTrivia, TokenKind.isTrivia, TokenKind.isComment]
  rw [← names, ← solids_keywordPieces]
  simp [importPieces, solids, word, blank, Piece.isTrivia, TokenKind.isTrivia,
    TokenKind.isComment]

theorem run_importNames_group {kind : ImportKind} {name : Name}
    (named : name.isSpelled = true) (spelled : ∀ item ∈ items, item.isSpelled = true)
    (kinds : ∀ item ∈ items, item.kind? ≠ some .classLike)
    (plain : ∀ item ∈ items, item.keyword?.isSome = true ∨ item.isAmbiguous = false)
    (sees : start.Sees (word name.joined :: (.backslash, ['\\']) :: (.leftBrace, ['{'])
      :: (listTokens items ++ (.rightBrace, ['}']) :: rest)))
    : ∃ found stop, (importNames kind).run start = .ok (found, stop)
        ∧ found.unplaced = ⟨kind, some name.respelled, items.map ImportItem.respelled⟩
        ∧ stop.Sees rest := by
  obtain ⟨located, read, name_eq⟩ := run_expectName_spelled named sees
  have sees1 := sees_advance sees
  obtain ⟨found, stop, turns, same, final⟩ :=
    exists_groupTurns spelled kinds plain (sees_advance (sees_advance sees1))
  let result : Import := ⟨kind, some located.name.imported, found⟩
  refine ⟨result, stop, bind_eq_ok.mpr ⟨_, _, read, get_bind_eq_ok.mpr ?_⟩, ?_, final⟩
  · have opens : start.advance.isAt .backslash = true
        ∧ start.advance.kind? 1 = some .leftBrace :=
      ⟨isAt_of_sees sees1 .backslash, kind?_one_of_sees sees1⟩
    rw [if_pos (by simp [opens])]
    exact skip_bind_eq_ok.mpr (skip_bind_eq_ok.mpr (bind_eq_ok.mpr ⟨_, _,
      collect_of_turns strides_importGroupTurn turns, pure_eq_ok.mpr ⟨rfl, rfl⟩⟩))
  · simp [Import.unplaced, result, same, name_eq]

theorem run_otherItems (spelled : ∀ item ∈ items, item.isSpelled = true)
    (plain : ∀ item ∈ items, item.kind? = none)
    (sees : start.Sees ((if items.isEmpty then [] else (.comma, [',']) :: listTokens items)
      ++ (.semicolon, [';']) :: rest))
    : ∃ found stop, otherItems.run start = .ok (found, stop)
        ∧ found.map ImportItem.unplaced = items.map ImportItem.respelled
        ∧ stop.Sees ((.semicolon, [';']) :: rest) := by
  cases items with
  | nil =>
      exact ⟨[], start, bind_eq_ok.mpr ⟨_, _, run_eat_other sees (by decide),
        pure_eq_ok.mpr ⟨rfl, rfl⟩⟩, rfl, sees⟩
  | cons item items =>
      obtain ⟨found, stop, turns, same, final⟩ :=
        exists_listTurns (List.cons_ne_nil _ _) spelled plain (sees_advance sees)
      exact ⟨found, stop, bind_eq_ok.mpr ⟨_, _, run_eat sees,
        collect_of_turns strides_importListTurn turns⟩, same, final⟩

theorem listTokens_cons (item : ImportItem) (items : List ImportItem)
    : listTokens (item :: items)
      = entryTokens item ++ if items.isEmpty then [] else (.comma, [',']) :: listTokens items := by
  cases items with
  | nil => simp [listTokens]
  | cons next items => rfl

theorem run_importNames_list {kind : ImportKind} (some : items ≠ [])
    (spelled : ∀ item ∈ items, item.isSpelled = true)
    (plain : ∀ item ∈ items, item.kind? = none)
    (sees : start.Sees (listTokens items ++ (.semicolon, [';']) :: rest))
    : ∃ found stop, (importNames kind).run start = .ok (found, stop)
        ∧ found.unplaced = ⟨kind, none, items.map ImportItem.respelled⟩
        ∧ stop.Sees ((.semicolon, [';']) :: rest) := by
  obtain ⟨first, others, rfl⟩ := List.exists_cons_of_ne_nil some
  rw [listTokens_cons, entryTokens_of_none (plain first List.mem_cons_self),
    List.append_assoc] at sees
  obtain ⟨next, behind, same, other⟩ : ∃ next behind,
      (if others.isEmpty then [] else (.comma, [',']) :: listTokens others)
        ++ (.semicolon, [';']) :: rest = next :: behind
      ∧ next.1 ≠ .name ∧ (next.1 == .backslash) = false := by
    cases others with
    | nil => exact ⟨_, _, rfl, by decide⟩
    | cons item items => exact ⟨_, _, rfl, by decide⟩
  obtain ⟨located, middle, found, stop, named, read, found_eq, sees'⟩ :=
    run_entry (spelled first List.mem_cons_self) (same ▸ sees) other.1
  rw [← same] at sees'
  obtain ⟨later, stop', ran, later_eq, final⟩ := run_otherItems
    (fun item listed => spelled item (List.mem_cons_of_mem _ listed))
    (fun item listed => plain item (List.mem_cons_of_mem _ listed)) sees'
  let result : Import := ⟨kind, none, found :: later⟩
  refine ⟨result, stop', bind_eq_ok.mpr ⟨_, _, named, get_bind_eq_ok.mpr ?_⟩, ?_, final⟩
  · have apart : middle.isAt .backslash = false := by
      obtain ⟨_, _, _, _, rfl⟩ := expectName_eq_ok.mp named
      have behindName := sees_advance sees
      cases renamed : first.alias? with
      | none =>
          rw [renamed, same] at behindName
          exact (isAt_of_sees behindName .backslash).trans other.2
      | some text =>
          rw [renamed] at behindName
          exact isAt_of_sees behindName .backslash
    rw [if_neg (by simp [apart])]
    exact bind_eq_ok.mpr ⟨_, _, read, bind_eq_ok.mpr ⟨_, _, ran, pure_eq_ok.mpr ⟨rfl, rfl⟩⟩⟩
  · simp [Import.unplaced, result, found_eq, later_eq,
      respelled_of_none (plain first List.mem_cons_self)]

theorem nameTokens_head (shaped : declaration.IsShaped)
    : ∃ text others, nameTokens declaration = word text :: others := by
  unfold nameTokens
  cases group : declaration.group? with
  | some name => exact ⟨_, _, rfl⟩
  | none =>
      obtain ⟨first, others, items⟩ := List.exists_cons_of_ne_nil (shaped.listed group).1
      obtain ⟨text, more, same⟩ := entryTokens_head first
      simp only [items, listTokens_cons, same]
      exact ⟨text, _, rfl⟩

/-- The keyword of an import is read back. -/
theorem run_importKind?_import (spelled : declaration.isSpelled = true)
    (plain : declaration.isAmbiguous = false) (shaped : declaration.IsShaped)
    (sees : start.Sees (declaration.kind.keyword?.toList.map word
      ++ (nameTokens declaration ++ (.semicolon, [';']) :: rest)))
    : ∃ kind? stop, importKind?.run start = .ok (kind?, stop)
        ∧ kind?.getD .classLike = declaration.kind
        ∧ stop.Sees (nameTokens declaration ++ (.semicolon, [';']) :: rest) := by
  cases keyed : declaration.kind.keyword? with
  | some keyword =>
      obtain ⟨text, others, names⟩ := nameTokens_head shaped
      rw [keyed, names] at sees
      exact ⟨some declaration.kind, _, run_importKind?_some keyed sees, rfl,
        names ▸ sees_advance sees⟩
  | none =>
      have classLike : declaration.kind = .classLike := by
        cases kind : declaration.kind with
        | classLike => rfl
        | function => rw [kind] at keyed; cases keyed
        | const => rw [kind] at keyed; cases keyed
      rw [keyed] at sees
      refine ⟨none, start, ?_, classLike.symm, sees⟩
      unfold nameTokens at sees
      cases group : declaration.group? with
      | some name =>
          rw [group] at sees
          exact run_importKind?_none sees (.inl (by decide))
      | none =>
          obtain ⟨some, kinds⟩ := shaped.listed group
          obtain ⟨first, others, items⟩ := List.exists_cons_of_ne_nil some
          have listed : first ∈ declaration.items := items ▸ List.mem_cons_self
          rw [group] at sees
          simp only [Import.isAmbiguous, group, keyed, items, Option.isNone_none, Bool.true_and,
            List.take_succ_cons, List.take_zero, List.any_cons, List.any_nil, Bool.or_false] at plain
          simp only [items, listTokens_cons, entryTokens_of_none (kinds first listed), itemTokens,
            List.append_assoc] at sees
          have apart := not_keyword_of_plain
            ((spelled_import spelled).1 first listed) plain
          cases renamed : first.alias? with
          | some text =>
              rw [renamed] at sees
              exact run_importKind?_none sees (.inr (apart (by rw [renamed]; rfl)))
          | none =>
              rw [renamed] at sees
              cases others with
              | nil => exact run_importKind?_none sees (.inl (by decide))
              | cons item others => exact run_importKind?_none sees (.inl (by decide))

/-- A printed import that is not ambiguous is read as an import, whatever stands behind it. -/
theorem reads_spelled (spelled : declaration.isSpelled = true)
    (plain : declaration.isAmbiguous = false) (shaped : declaration.IsShaped) (rest : List Piece)
    : Reads (solids (importPieces declaration)) rest (false, some declaration.respelled, []) := by
  intro start ahead
  have sees : start.Sees (word "use" :: (declaration.kind.keyword?.toList.map word
      ++ (nameTokens declaration ++ (.semicolon, [';']) :: rest))) := by
    rw [Cursor.Sees, ahead, solids_importPieces]
    simp
  have keyword : start.atKeyword "use" = true := atKeyword_of_sees sees "use"
  have other : start.atKeyword "namespace" = false := atKeyword_of_sees sees "namespace"
  obtain ⟨kind?, middle, kinded, kind_eq, sees1⟩ :=
    run_importKind?_import spelled plain shaped (sees_advance sees)
  obtain ⟨items, grouped⟩ := spelled_import spelled
  obtain ⟨found, behind, named, same, sees2⟩ : ∃ found stop,
      (importNames declaration.kind).run middle = .ok (found, stop)
      ∧ found.unplaced = declaration.respelled ∧ stop.Sees ((.semicolon, [';']) :: rest) := by
    unfold nameTokens at sees1
    unfold Import.respelled
    cases group : declaration.group? with
    | some name =>
        rw [group] at sees1
        refine run_importNames_group (grouped name group) items shaped.kinds
          (fun item listed => ?_) (by simpa using sees1)
        rw [Import.isAmbiguous, group] at plain
        have apart := List.any_eq_false.mp plain item listed
        cases keyed : item.keyword? with
        | some keyword => exact .inl rfl
        | none => exact .inr (by simpa [keyed] using apart)
    | none =>
        rw [group] at sees1
        obtain ⟨some, kinds⟩ := shaped.listed group
        exact run_importNames_list some items kinds sees1
  obtain ⟨token, here, kind, _, _⟩ := token?_of_piece sees2
  have expected : (expect .semicolon .importEnd).run behind = .ok (token, behind.advance) :=
    expect_eq_ok.mpr ⟨here, kind, rfl⟩
  have imported : importing.run start = .ok (found, behind.advance) :=
    skip_bind_eq_ok.mpr (bind_eq_ok.mpr ⟨_, _, kinded, bind_eq_ok.mpr ⟨_, _, kind_eq ▸ named,
      bind_eq_ok.mpr ⟨_, _, expected, pure_eq_ok.mpr ⟨rfl, rfl⟩⟩⟩⟩)
  have ran : stmtKind.run start = .ok (.importing found, behind.advance) := by
    rw [stmtKind, get_bind_eq_ok, if_pos keyword]
    exact bind_eq_ok.mpr ⟨_, _, imported, pure_eq_ok.mpr ⟨rfl, rfl⟩⟩
  refine ⟨⟨.name, kind?_of_sees sees, by decide, ?_⟩, .importing found, behind.advance, ran, ?_, ?_⟩
  · rw [Cursor.atNamespace, other, Bool.false_and]
  · have final := sees_advance sees2
    have suffix := (reaches_of_run ran).ahead_suffix
    rw [List.suffix_iff_eq_drop.mp suffix]
    congr 1
    have all := congrArg List.length ahead
    have less := congrArg List.length final
    simp only [List.length_map, List.length_append] at all less
    omega
  · rw [StmtKind.essence, same]

/-- A printed import is read as one that prints the same, whatever stands behind it. -/
theorem reads_importPieces (printable : declaration.isPrintable = true)
    (shaped : declaration.IsShaped) (rest : List Piece)
    : Reads (solids (importPieces declaration)) rest (false, some declaration.reread, []) := by
  obtain ⟨spelled, plain⟩ := printable_import printable
  rw [← Import.respelled_eq printable]
  exact reads_spelled spelled plain shaped rest

-----------------------------------------------------------------------------------------
-- The shapes of imports that were read
-----------------------------------------------------------------------------------------

theorem kind?_of_importItem {located : LocatedName} {kind? : Option ImportKind} {found : ImportItem}
    (ran : (importItem located kind?).run start = .ok (found, stop))
    : found.kind? = kind? ∧ ∃ name : Name, found.name = name.imported := by
  obtain ⟨alias?, middle, _, later⟩ := bind_eq_ok.mp ran
  rw [get_bind_eq_ok] at later
  obtain ⟨rfl, _⟩ := pure_eq_ok.mp later
  exact ⟨rfl, located.name, rfl⟩

theorem importKind?_ne {kind? : Option ImportKind}
    (ran : importKind?.run start = .ok (kind?, stop))
    : kind? ≠ some .classLike := by
  rw [importKind?, get_bind_eq_ok] at ran
  split at ran
  · rw [← (pure_eq_ok.mp ran).1]
    simp
  split at ran
  · rw [skip_bind_eq_ok] at ran
    rw [← (pure_eq_ok.mp ran).1]
    simp
  split at ran
  · rw [skip_bind_eq_ok] at ran
    rw [← (pure_eq_ok.mp ran).1]
    simp
  · rw [← (pure_eq_ok.mp ran).1]
    simp

theorem kind?_of_importListTurn {result : Turn ImportItem}
    (ran : importListTurn.run start = .ok (result, stop))
    : ∀ item ∈ result.found, item.kind? = none := by
  obtain ⟨located, middle, _, later⟩ := bind_eq_ok.mp ran
  obtain ⟨found, middle', read, last⟩ := bind_eq_ok.mp later
  obtain ⟨more, middle'', _, done⟩ := bind_eq_ok.mp last
  have plain := (kind?_of_importItem read).1
  split at done
  · obtain ⟨rfl, _⟩ := pure_eq_ok.mp done
    simpa [Turn.found] using plain
  · obtain ⟨rfl, _⟩ := pure_eq_ok.mp done
    simpa [Turn.found] using plain

theorem kind?_of_importGroupTurn {result : Turn ImportItem}
    (ran : importGroupTurn.run start = .ok (result, stop))
    : ∀ item ∈ result.found, item.kind? ≠ some .classLike := by
  unfold importGroupTurn at ran
  obtain ⟨closed, middle, _, later⟩ := bind_eq_ok.mp ran
  split at later
  · obtain ⟨rfl, _⟩ := pure_eq_ok.mp later
    simp [Turn.found]
  obtain ⟨kind?, _, kinded, later1⟩ := bind_eq_ok.mp later
  obtain ⟨located, _, _, later2⟩ := bind_eq_ok.mp later1
  obtain ⟨found, _, read, later3⟩ := bind_eq_ok.mp later2
  obtain ⟨more, _, _, done⟩ := bind_eq_ok.mp later3
  have kinds : found.kind? ≠ some .classLike := by
    rw [(kind?_of_importItem read).1]
    exact importKind?_ne kinded
  split at done
  · obtain ⟨rfl, _⟩ := pure_eq_ok.mp done
    simpa [Turn.found] using kinds
  · obtain ⟨_, _, _, done⟩ := bind_eq_ok.mp done
    obtain ⟨rfl, _⟩ := pure_eq_ok.mp done
    simpa [Turn.found] using kinds

theorem isShaped_of_importing (ran : importing.run start = .ok (declaration, stop))
    : declaration.IsShaped := by
  unfold importing at ran
  rw [skip_bind_eq_ok] at ran
  obtain ⟨kind?, _, _, later⟩ := bind_eq_ok.mp ran
  obtain ⟨found, _, named, later1⟩ := bind_eq_ok.mp later
  obtain ⟨_, _, _, done⟩ := bind_eq_ok.mp later1
  obtain ⟨rfl, _⟩ := pure_eq_ok.mp done
  unfold importNames at named
  obtain ⟨first, _, _, later2⟩ := bind_eq_ok.mp named
  rw [get_bind_eq_ok] at later2
  split at later2
  · rw [skip_bind_eq_ok, skip_bind_eq_ok] at later2
    obtain ⟨items, _, collected, done⟩ := bind_eq_ok.mp later2
    obtain ⟨rfl, _⟩ := pure_eq_ok.mp done
    exact ⟨(turns_of_collect collected).forall kind?_of_importGroupTurn, nofun⟩
  · obtain ⟨item, _, read, later3⟩ := bind_eq_ok.mp later2
    obtain ⟨others, _, listed, done⟩ := bind_eq_ok.mp later3
    obtain ⟨rfl, _⟩ := pure_eq_ok.mp done
    have plain : ∀ other ∈ item :: others, other.kind? = none := by
      intro other member
      rcases List.mem_cons.mp member with rfl | inside
      · exact (kind?_of_importItem read).1
      · unfold otherItems at listed
        obtain ⟨more, _, _, rest⟩ := bind_eq_ok.mp listed
        split at rest
        · exact (turns_of_collect rest).forall kind?_of_importListTurn other inside
        · obtain ⟨rfl, _⟩ := pure_eq_ok.mp rest
          cases inside
    refine ⟨fun other member => ?_, fun _ => ⟨List.cons_ne_nil _ _, plain⟩⟩
    rw [plain other member]
    nofun

end Parser

end ImportHeader
