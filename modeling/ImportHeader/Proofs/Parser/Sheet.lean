import ImportHeader.Proofs.Parser.Namespace

/-! Whole files as blocks: the statements of the import scope, and around them, in a file with
a namespace, the blocks before it, those that open and close it, and those behind it.
-/

namespace ImportHeader

open Lexer

/-- What stands around the import scope in a file with a namespace. -/
structure Frame where
  before : List Part
  opening : Block
  name? : Option Name
  braced : Bool
  closing : List Block
  after : List Part

/-- A file as blocks. -/
structure Sheet where
  frame? : Option Frame
  inside : List Part

def Sheet.blocks (sheet : Sheet) : List Block :=
  match sheet.frame? with
  | none => sheet.inside.map Part.block
  | some frame =>
      frame.before.map Part.block
        ++ frame.opening
        :: (sheet.inside.map Part.block ++ (frame.closing ++ frame.after.map Part.block))

namespace Sheet

variable {frame? : Option Frame} {frame : Frame} {inside : List Part} {part : Part} {block : Block}

theorem mem_blocks_inside (listed : part ∈ inside)
    : part.block ∈ (⟨frame?, inside⟩ : Sheet).blocks := by
  have here := List.mem_map_of_mem (f := Part.block) listed
  cases frame? with
  | none => exact here
  | some frame => exact List.mem_append_right _ (.tail _ (List.mem_append_left _ here))

theorem mem_blocks_before (framed : frame ∈ frame?) (listed : part ∈ frame.before)
    : part.block ∈ (⟨frame?, inside⟩ : Sheet).blocks := by
  obtain rfl := Option.mem_def.mp framed
  exact List.mem_append_left _ (List.mem_map_of_mem listed)

theorem mem_blocks_closing (framed : frame ∈ frame?) (listed : block ∈ frame.closing)
    : block ∈ (⟨frame?, inside⟩ : Sheet).blocks := by
  obtain rfl := Option.mem_def.mp framed
  exact List.mem_append_right _ (.tail _ (List.mem_append_right _ (List.mem_append_left _ listed)))

theorem mem_blocks_after (framed : frame ∈ frame?) (listed : part ∈ frame.after)
    : part.block ∈ (⟨frame?, inside⟩ : Sheet).blocks := by
  obtain rfl := Option.mem_def.mp framed
  exact List.mem_append_right _ (.tail _ (List.mem_append_right _
    (List.mem_append_right _ (List.mem_map_of_mem listed))))

end Sheet

theorem tokens_map_block (parts : List Part) : tokens (parts.map Part.block) = tokensOf parts := by
  rw [tokens, List.flatMap_map]
  rfl

theorem tokens_append (left right : List Block)
    : tokens (left ++ right) = tokens left ++ tokens right :=
  List.flatMap_append

theorem tokens_cons (block : Block) (blocks : List Block)
    : tokens (block :: blocks) = solids block.pieces ++ tokens blocks :=
  rfl

namespace Parser

variable {start stop : Cursor}

/-- The blocks around an import scope can be read. -/
structure Encloses (frame : Frame) (inside : List Part) : Prop where
  before
    : ReadsAll
        (solids frame.opening.pieces
          ++ (tokensOf inside ++ (tokens frame.closing ++ tokensOf frame.after)))
        frame.before
  after : ReadsAll [] frame.after
  closes : Closes frame.closing frame.braced
  ended : frame.braced = false → frame.after = []

/-- All blocks of a file can be read. -/
structure Readable (sheet : Sheet) : Prop where
  inside
    : ReadsAll
        (sheet.frame?.elim [] fun frame => tokens frame.closing ++ tokensOf frame.after)
        sheet.inside
  around : ∀ frame ∈ sheet.frame?, Encloses frame sheet.inside

/-- Items that are read from the blocks of a source. -/
inductive Describes (source : Text) : Sheet → List Item → Prop
  | flat {inside found} (isParts : List.Forall₂ (IsPart source) inside found)
    : Describes source ⟨none, inside⟩ (found.map .plain)
  | framed {frame inside before space after}
    (earlier : List.Forall₂ (IsPart source) frame.before before)
    (spaced
      : SpaceAt source frame.opening frame.name? frame.braced inside space)
    (later : List.Forall₂ (IsPart source) frame.after after)
    : Describes source ⟨some frame, inside⟩
        (before.map .plain ++ .scope space :: after.map .plain)

theorem run_itemTurn_of_namespace {space : Namespace} {token : Token}
    (next : start.token? 0 = some token) (other : token.kind ≠ .rightBrace)
    (here : start.atNamespace = true) (ran : namespaceScope.run start = .ok (space, stop))
    : itemTurn.run start = .ok (.more [.scope space], stop) := by
  rw [itemTurn, get_bind_eq_ok]
  simp only [next]
  rw [if_neg other, if_pos here]
  exact bind_eq_ok.mpr ⟨space, stop, ran, pure_eq_ok.mpr ⟨rfl, rfl⟩⟩

theorem token?_of_atNamespace (here : start.atNamespace = true)
    : ∃ token, start.token? 0 = some token ∧ token.kind ≠ .rightBrace := by
  have keyword := (Bool.and_eq_true_iff.mp here).1
  rw [Cursor.atKeyword, Cursor.isKeyword] at keyword
  cases next : start.token? 0 with
  | none => simp [next] at keyword
  | some token =>
      refine ⟨token, rfl, fun brace => ?_⟩
      simp [next, Token.isKeyword, brace] at keyword

theorem run_itemTurn_of_nil (faces : Faces start []) : itemTurn.run start = .ok (.last [], start) := by
  have none : start.token? 0 = none := by
    rw [Cursor.token?, ahead_of_faces_nil faces]
    rfl
  rw [itemTurn, get_bind_eq_ok]
  simp only [none]
  exact pure_eq_ok.mpr ⟨rfl, rfl⟩

theorem exists_plain {parts : List Part} (faces : Faces start (parts.map Part.block))
    (reads : ReadsAll [] parts)
    : ∃ found stop, Turns itemTurn start (found.map Item.plain) stop
        ∧ List.Forall₂ (IsPart start.source) parts found := by
  have faces' : Faces start (parts.map Part.block ++ []) := by rwa [List.append_nil]
  obtain ⟨found, stop, turns, faces'', _, all⟩ := wraps_itemTurn.exists_turns faces' reads
  refine ⟨found, stop, ?_, all⟩
  have whole := turns (.last (run_itemTurn_of_nil faces''))
  rwa [List.append_nil] at whole

/-- The blocks of a file are read as its items. -/
theorem exists_items {sheet : Sheet} (faces : Faces start sheet.blocks)
    (readable : Readable sheet)
    (opens : ∀ frame ∈ sheet.frame?, Opens frame.opening.pieces frame.name? frame.braced)
    : ∃ items stop, (collect itemTurn).run start = .ok (items, stop)
        ∧ Describes start.source sheet items := by
  obtain ⟨frame?, inside⟩ := sheet
  cases frame? with
  | none =>
      obtain ⟨found, stop, turns, all⟩ := exists_plain faces readable.inside
      exact ⟨_, stop, collect_of_turns strides_itemTurn turns, .flat all⟩
  | some frame =>
      have around := readable.around frame rfl
      have earlier : ReadsAll (tokens (frame.opening
          :: (inside.map Part.block ++ (frame.closing ++ frame.after.map Part.block))))
            frame.before := by
        simpa only [tokens_cons, tokens_append, tokens_map_block] using around.before
      obtain ⟨before, middle, turns, faces', source, all⟩ :=
        wraps_itemTurn.exists_turns faces earlier
      have within : ReadsAll (tokens (frame.closing ++ frame.after.map Part.block)) inside := by
        rw [tokens_append, tokens_map_block]
        exact readable.inside
      obtain ⟨here, space, behind, ran, spaced, source', faces''⟩ :=
        exists_namespaceScope faces' (opens frame rfl) within around.closes
          fun unbraced => by rw [around.ended unbraced]; rfl
      obtain ⟨token, next, other⟩ := token?_of_atNamespace here
      obtain ⟨after, stop, turns', all'⟩ := exists_plain faces'' around.after
      have whole := turns (.more (run_itemTurn_of_namespace next other here ran) turns')
      refine ⟨_, stop, collect_of_turns strides_itemTurn whole, .framed all ?_ ?_⟩
      · rwa [source] at spaced
      · rwa [source', source] at all'

theorem itemTurn_last {results : List Item}
    (ran : itemTurn.run start = .ok (.last results, stop))
    : results = [] ∧ start.token? 0 = none := by
  rw [itemTurn, get_bind_eq_ok] at ran
  cases next : start.token? 0 with
  | none =>
      simp only [next] at ran
      obtain ⟨same, rfl⟩ := pure_eq_ok.mp ran
      cases same
      exact ⟨rfl, rfl⟩
  | some token =>
      simp only [next] at ran
      split at ran
      · simp at ran
      · split at ran
        · exact absurd ran (bind_pure_ne_ok (by simp))
        · exact absurd ran (bind_pure_ne_ok (by simp))

theorem namespaceScope_of_itemTurn {space : Namespace}
    (ran : itemTurn.run start = .ok (.more [.scope space], stop))
    : start.atNamespace = true ∧ namespaceScope.run start = .ok (space, stop) := by
  rw [itemTurn, get_bind_eq_ok] at ran
  cases next : start.token? 0 with
  | none => simp [next] at ran
  | some token =>
      simp only [next] at ran
      split at ran
      · simp at ran
      · split at ran
        · rename_i here
          obtain ⟨found, middle, read, done⟩ := bind_eq_ok.mp ran
          obtain ⟨same, rfl⟩ := pure_eq_ok.mp done
          cases same
          exact ⟨here, read⟩
        · exact absurd ran (bind_pure_ne_ok (by simp))

theorem isGap_of_token? {front : Text} {pieces : List Piece} (before : start.Before front pieces)
    (ended : start.token? 0 = none)
    : IsGap pieces := by
  have none : start.ahead = [] := by
    cases ahead : start.ahead with
    | nil => rfl
    | cons lexeme rest => simp [Cursor.token?, ahead] at ended
  have empty : solids pieces = [] := by
    rw [← before.map_piece, none]
    rfl
  intro piece listed
  have absent := List.filter_eq_nil_iff.mp empty piece listed
  simpa using absent

theorem exists_plain_parts {front : Text} {pieces : List Piece} {found : List Stmt}
    (before : start.Before front pieces)
    (turns : Turns itemTurn start (found.map Item.plain) stop)
    : ∃ parts, Spells pieces (parts.map Part.block) ∧ ReadsAll [] parts
        ∧ tokensOf parts = solids pieces ∧ List.Forall₂ (IsPart start.source) parts found := by
  rw [← List.append_nil (found.map Item.plain)] at turns
  obtain ⟨parts, middle, front', pieces', before', spells, final, reads, all, isParts, _⟩ :=
    wraps_itemTurn.exists_parts before turns fun ran => (itemTurn_last ran).1
  have last := Turns.eq_last (fun ran => wraps_itemTurn.ne_nil ran) final
  have isGap := isGap_of_token? before' (itemTurn_last last).2
  have whole := spells (.gap isGap)
  rw [List.append_nil] at whole
  rw [isGap.solids_eq] at reads all
  rw [List.append_nil] at all
  exact ⟨parts, whole, reads, all, isParts⟩

theorem eq_nil_of_not_atStmt {found : List Stmt}
    (turns : Turns itemTurn start (found.map Item.plain) stop) (ended : ¬AtStmt start)
    : found = [] := by
  cases found with
  | nil => rfl
  | cons first found =>
      generalize whole : (first :: found).map Item.plain = items at turns
      cases turns with
      | last ran =>
          rw [(itemTurn_last ran).1] at whole
          cases whole
      | more ran rest =>
          obtain ⟨result, rfl, reads⟩ := wraps_itemTurn.more ran
          obtain ⟨rfl, _⟩ := List.cons.inj whole
          exact absurd (reads rfl).1 ended

/-- Items that can be edited: statements, and one namespace at most. -/
inductive Shape : List Item → Prop
  | flat (found : List Stmt) : Shape (found.map .plain)
  | framed (before : List Stmt) (space : Namespace) (after : List Stmt)
    : Shape (before.map .plain ++ .scope space :: after.map .plain)

/-- The blocks of a file that was read. -/
theorem exists_sheet {front : Text} {pieces : List Piece} {items : List Item}
    (before : start.Before front pieces) (turns : Turns itemTurn start items stop)
    (shape : Shape items)
    : ∃ sheet : Sheet,
        Spells pieces sheet.blocks ∧ Readable sheet ∧ Describes start.source sheet items
        ∧ ∀ frame ∈ sheet.frame?,
            StartsSpace frame.opening.pieces
            ∧ (frame.braced = true ∨ frame.name?.isSome = true) := by
  cases shape with
  | flat found =>
      obtain ⟨parts, spells, reads, _, isParts⟩ := exists_plain_parts before turns
      exact ⟨⟨none, parts⟩, spells, ⟨reads, nofun⟩, .flat isParts, nofun⟩
  | framed earlier space later =>
      obtain ⟨parts, middle, front1, pieces1, before1, spells1, rest, reads1, tokens1, isParts1,
        source⟩ := wraps_itemTurn.exists_parts before turns fun ran => (itemTurn_last ran).1
      generalize whole : Item.scope space :: later.map Item.plain = others at rest
      cases rest with
      | last ran =>
          rw [(itemTurn_last ran).1] at whole
          cases whole
      | more ran rest =>
          obtain ⟨result, rfl, _⟩ := wraps_itemTurn.more ran
          obtain ⟨rfl, rfl⟩ := List.cons.inj whole
          obtain ⟨here, read⟩ := namespaceScope_of_itemTurn ran
          obtain ⟨opening, inside, closing, front2, pieces2, before2, spells2, reads2, keyword,
            closes, named, ended, tokens2, spaced⟩ := exists_space before1 here read
          obtain ⟨after, spells3, reads3, tokens3, isParts3⟩ := exists_plain_parts before2 rest
          let frame : Frame := {
            before := parts
            opening
            name? := space.name?.map LocatedName.name
            braced := space.braced
            closing
            after }
          rw [source_of_reaches (reaches_of_run read), source] at isParts3
          rw [source] at spaced
          refine ⟨⟨some frame, inside⟩, spells1 (spells2 spells3), ⟨?_, ?_⟩,
            .framed isParts1 spaced isParts3, ?_⟩
          · rw [Option.elim_some, tokens3]
            exact reads2
          · rintro _ ⟨rfl⟩
            refine ⟨?_, reads3, closes, fun unbraced => ?_⟩
            · rw [tokens3, tokens2]
              exact reads1
            · rw [eq_nil_of_not_atStmt rest (ended unbraced)] at isParts3
              cases isParts3
              rfl
          · rintro _ ⟨rfl⟩
            refine ⟨keyword, named.imp_right fun some => ?_⟩
            rw [Option.isSome_map]
            exact some

end Parser

end ImportHeader
