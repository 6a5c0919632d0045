import ImportHeader.Proofs.Parser.Reading

/-! Blocks read one after the other. The statements of a scope are read from its blocks, and a
scope that was read gives its blocks back.
-/

namespace ImportHeader

open Lexer

/-- A block and the statement that is read from it. -/
structure Part where
  block : Block
  essence : Essence

/-- The tokens of parts in order. -/
def tokensOf (parts : List Part) : List Piece :=
  parts.flatMap fun part => solids part.block.pieces

@[simp] theorem tokensOf_nil : tokensOf [] = [] :=
  rfl

@[simp] theorem tokensOf_cons (part : Part) (parts : List Part)
    : tokensOf (part :: parts) = solids part.block.pieces ++ tokensOf parts :=
  rfl

@[simp] theorem tokensOf_append (left right : List Part)
    : tokensOf (left ++ right) = tokensOf left ++ tokensOf right :=
  List.flatMap_append

namespace Parser

variable {α : Type} {start stop middle : Cursor}

/-- Parts are read one after the other, before other tokens. -/
def ReadsAll (rest : List Piece) : List Part → Prop
  | [] => True
  | part :: parts =>
      Reads (solids part.block.pieces) (tokensOf parts ++ rest) part.essence ∧ ReadsAll rest parts

/-- A statement is read from a part of a source. -/
def IsPart (source : Text) (part : Part) (found : Stmt) : Prop :=
  StmtAt source part.block part.essence found

/-- A turn that reads statements and puts them into something else. -/
structure Wraps (turn : Parser (Turn α)) (wrap : Stmt → α) : Prop where
  turns
    : ∀ {start middle : Cursor} {found : Stmt},
        AtStmt start
        → stmt.run start = .ok (found, middle)
        → turn.run start = .ok (.more [wrap found], middle)
  more
    : ∀ {start middle : Cursor} {results : List α},
        turn.run start = .ok (.more results, middle)
        → ∃ result, results = [result]
            ∧ ∀ {found}, result = wrap found → AtStmt start ∧ stmt.run start = .ok (found, middle)

/-- A repetition of turns that stride takes them all. -/
theorem collect_of_turns {turn : Parser (Turn α)} {found : List α} (strides : Strides turn)
    (turns : Turns turn start found stop)
    : (collect turn).run start = .ok (found, stop) := by
  have within : ∀ budget : List Lexeme, start.ahead.length ≤ budget.length
      → (collectWithin turn budget).run start = .ok (found, stop) := by
    induction turns with
    | last ran => exact fun budget _ => collectWithin_of_last budget ran
    | more ran _ ih =>
        intro budget enough
        have passed := strides ran
        unfold Cursor.Passes at passed
        cases budget with
        | nil =>
            rw [List.length_nil] at enough
            omega
        | cons lexeme budget =>
            rw [List.length_cons] at enough
            exact collectWithin_of_more ran (ih budget (by omega))
  exact get_bind_eq_ok.mpr (within _ (Nat.le_refl _))

theorem AtStmt.token? (guard : AtStmt start)
    : ∃ token, start.token? 0 = some token ∧ token.kind ≠ .rightBrace
        ∧ start.atNamespace = false := by
  obtain ⟨kind, here, other, free⟩ := guard
  obtain ⟨token, next, rfl⟩ := Option.map_eq_some_iff.mp here
  exact ⟨token, next, other, free⟩

theorem atStmt_of_token? {token : Token} (next : start.token? 0 = some token)
    (other : token.kind ≠ .rightBrace) (free : start.atNamespace = false)
    : AtStmt start :=
  ⟨token.kind, Option.map_eq_some_iff.mpr ⟨token, next, rfl⟩, other, free⟩

theorem wraps_itemTurn : Wraps itemTurn Item.plain where
  turns := by
    intro start middle found guard ran
    obtain ⟨token, next, other, free⟩ := guard.token?
    rw [itemTurn, get_bind_eq_ok]
    simp only [next]
    rw [if_neg other, if_neg (by simp [free])]
    exact bind_eq_ok.mpr ⟨found, middle, ran, pure_eq_ok.mpr ⟨rfl, rfl⟩⟩
  more := by
    intro start middle results ran
    rw [itemTurn, get_bind_eq_ok] at ran
    cases next : start.token? 0 with
    | none => simp [next] at ran
    | some token =>
        simp only [next] at ran
        split at ran
        · simp at ran
        · rename_i other
          split at ran
          · obtain ⟨space, middle', read, done⟩ := bind_eq_ok.mp ran
            obtain ⟨same, rfl⟩ := pure_eq_ok.mp done
            cases same
            exact ⟨.scope space, rfl, fun same => by cases same⟩
          · rename_i free
            obtain ⟨stmt, middle', read, done⟩ := bind_eq_ok.mp ran
            obtain ⟨same, rfl⟩ := pure_eq_ok.mp done
            cases same
            refine ⟨.plain stmt, rfl, fun same => ?_⟩
            obtain rfl := Item.plain.inj same
            exact ⟨atStmt_of_token? next other (by simpa using free), read⟩

theorem wraps_namespaceTurn (braced : Bool) : Wraps (namespaceTurn braced) id where
  turns := by
    intro start middle found guard ran
    obtain ⟨token, next, other, free⟩ := guard.token?
    rw [namespaceTurn, get_bind_eq_ok]
    simp only [next]
    rw [if_neg other, if_neg (by simp [free])]
    exact bind_eq_ok.mpr ⟨found, middle, ran, pure_eq_ok.mpr ⟨rfl, rfl⟩⟩
  more := by
    intro start middle results ran
    rw [namespaceTurn, get_bind_eq_ok] at ran
    cases next : start.token? 0 with
    | none =>
        simp only [next] at ran
        split at ran
        · simp at ran
        · simp at ran
    | some token =>
        simp only [next] at ran
        split at ran
        · split at ran
          · simp at ran
          · simp at ran
        · rename_i other
          split at ran
          · split at ran
            · simp at ran
            · simp at ran
          · rename_i free
            obtain ⟨stmt, middle', read, done⟩ := bind_eq_ok.mp ran
            obtain ⟨same, rfl⟩ := pure_eq_ok.mp done
            cases same
            refine ⟨stmt, rfl, fun same => ?_⟩
            obtain rfl : stmt = _ := same
            exact ⟨atStmt_of_token? next other (by simpa using free), read⟩

/-- Parts that are read stand for turns, which lead to the blocks behind them. -/
theorem Wraps.exists_turns {turn : Parser (Turn α)} {wrap : Stmt → α} (wraps : Wraps turn wrap)
    {parts : List Part} {blocks : List Block}
    (faces : Faces start (parts.map Part.block ++ blocks))
    (reads : ReadsAll (blocks.flatMap fun block => solids block.pieces) parts)
    : ∃ found middle,
        (∀ {others stop}, Turns turn middle others stop
          → Turns turn start (found.map wrap ++ others) stop)
        ∧ Faces middle blocks ∧ middle.source = start.source
        ∧ List.Forall₂ (IsPart start.source) parts found := by
  induction parts generalizing start with
  | nil => exact ⟨[], start, fun turns => turns, faces, rfl, .nil⟩
  | cons part parts ih =>
      have same : (parts.map Part.block ++ blocks).flatMap (fun block => solids block.pieces)
          = tokensOf parts ++ blocks.flatMap fun block => solids block.pieces := by
        rw [List.flatMap_append, List.flatMap_map]
        rfl
      obtain ⟨here, later⟩ := reads
      rw [List.map_cons, List.cons_append] at faces
      obtain ⟨first, next, ran, isPart, source, faces'⟩ := exists_stmt faces (same ▸ here)
      have ahead := faces.map_piece
      rw [List.flatMap_cons, same] at ahead
      obtain ⟨found, middle, turns, faces'', source', all⟩ := ih faces' later
      refine ⟨first :: found, middle, fun {others stop} rest => ?_, faces'',
        source'.trans source, .cons isPart (source ▸ all)⟩
      have whole : Turns turn start ([wrap first] ++ (found.map wrap ++ others)) stop :=
        .more (wraps.turns (here ahead).1 ran) (turns rest)
      exact whole

/-- Statements that were read at the start of some turns are parts. -/
theorem Wraps.exists_parts {turn : Parser (Turn α)} {wrap : Stmt → α} (wraps : Wraps turn wrap)
    {front : Text} {pieces : List Piece} {found : List Stmt} {others : List α}
    (before : start.Before front pieces)
    (turns : Turns turn start (found.map wrap ++ others) stop)
    (last : ∀ {start stop results}, turn.run start = .ok (.last results, stop) → results = [])
    : ∃ parts middle front' pieces',
        middle.Before front' pieces'
        ∧ (∀ {more}, Spells pieces' more → Spells pieces (parts.map Part.block ++ more))
        ∧ Turns turn middle others stop
        ∧ ReadsAll (solids pieces') parts
        ∧ tokensOf parts ++ solids pieces' = solids pieces
        ∧ List.Forall₂ (IsPart start.source) parts found
        ∧ middle.source = start.source := by
  induction found generalizing start front pieces with
  | nil =>
      exact ⟨[], start, front, pieces, before, fun spells => spells, turns, trivial, rfl, .nil, rfl⟩
  | cons first found ih =>
      generalize whole : (first :: found).map wrap ++ others = all at turns
      cases turns with
      | last ran =>
          rw [last ran] at whole
          cases whole
      | more ran rest =>
          obtain ⟨result, rfl, reads⟩ := wraps.more ran
          obtain ⟨rfl, rfl⟩ := List.cons.inj whole
          obtain ⟨guard, read⟩ := reads rfl
          obtain ⟨gap, block, behind, passed, pieces', rfl, isGap, isBlock, rfl, isGap', before',
            here, isPart⟩ := exists_block before guard read
          obtain ⟨parts, middle, front'', pieces'', before'', spells, turns, later, tokens, all,
            source⟩ := ih before' rest
          have same : solids (passed ++ pieces') = tokensOf parts ++ solids pieces'' := by
            rw [solids_append, isGap'.solids_eq, tokens, List.nil_append]
          refine ⟨⟨⟨block, joined (passed ++ pieces')⟩, first.kind.essence⟩ :: parts, middle,
            front'', pieces'', before'', fun more => ?_, turns, ⟨same ▸ here, later⟩, ?_,
            .cons isPart ?_, ?_⟩
          · exact .block isGap isBlock ((spells_append_iff isGap').mpr (spells more))
          · rw [tokensOf_cons, List.append_assoc, ← same, List.append_assoc, solids_append gap,
              solids_append block, isGap.solids_eq, List.nil_append]
          · rwa [source_of_reaches (reaches_of_run read)] at all
          · rw [source, source_of_reaches (reaches_of_run read)]

end Parser

end ImportHeader
