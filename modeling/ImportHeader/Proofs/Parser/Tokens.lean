import ImportHeader.Proofs.Pairing
import ImportHeader.Proofs.Parser.Redraft
import ImportHeader.Proofs.Parser.Whole

/-! Whether a source parses hangs on its tokens only. Where the tokens of a source are those of
blocks that can be read, they can be put together to such blocks, and the source parses.
-/

namespace ImportHeader

open ImportHeader.Lexer ImportHeader.Parser

-----------------------------------------------------------------------------------------
-- Tokens put together to blocks
-----------------------------------------------------------------------------------------

namespace Lexer

theorem isGap_of_solids_eq_nil {pieces : List Piece} (none : solids pieces = []) : IsGap pieces := by
  intro piece listed
  simpa using List.filter_eq_nil_iff.mp none piece listed

/-- Pieces that end with one that carries syntax are a block behind a gap. -/
theorem exists_isBlock (front : List Piece) {last : Piece} (solid : last.isTrivia = false)
    : ∃ gap block, front ++ [last] = gap ++ block ∧ IsGap gap ∧ IsBlock block := by
  obtain ⟨gap, rest, whole, isGap, starts⟩ := exists_gap (front ++ [last])
  rcases List.eq_nil_or_concat rest with rfl | ⟨init, final, rfl⟩
  · rw [List.append_nil] at whole
    have trivia := isGap last (whole ▸ List.mem_concat_self)
    rw [solid] at trivia
    cases trivia
  · rw [List.concat_eq_append] at whole starts
    rw [← List.append_assoc] at whole
    obtain rfl : last = final := by simpa using (List.append_inj' whole rfl).2
    refine ⟨gap, init ++ [last], by rw [whole, List.append_assoc], isGap, ?_, init, last, rfl, solid⟩
    obtain ⟨first, others, same⟩ := List.exists_cons_of_ne_nil
      (List.append_ne_nil_of_right_ne_nil init (List.cons_ne_nil last []))
    exact ⟨first, others, same, starts first (by rw [same]; rfl)⟩

theorem Spells.areBlocks {pieces : List Piece} {blocks : List Block} (spells : Spells pieces blocks)
    : ∀ block ∈ blocks, IsBlock block.pieces := by
  induction spells with
  | gap => nofun
  | block _ isBlock _ ih => exact List.forall_mem_cons.mpr ⟨isBlock, ih⟩

/-- Pieces are cut into blocks wherever their tokens are cut, by induction on the groups of
tokens.
-/
theorem exists_spells {pieces : List Piece} {groups : List (List Piece)}
    (whole : solids pieces = groups.flatten) (some : ∀ group ∈ groups, group ≠ [])
    : ∃ blocks, Spells pieces blocks ∧ (blocks.map fun block => solids block.pieces) = groups := by
  induction groups generalizing pieces with
  | nil => exact ⟨[], .gap (isGap_of_solids_eq_nil whole), rfl⟩
  | cons group groups ih =>
      obtain ⟨init, last, same⟩ := (List.eq_nil_or_concat group).resolve_left
        (some group List.mem_cons_self)
      rw [List.concat_eq_append] at same
      rw [List.flatten_cons, same, List.append_assoc, List.singleton_append] at whole
      obtain ⟨front, rest, rfl, isInit, isRest⟩ := List.filter_eq_append_iff.mp whole
      obtain ⟨gap, behind, rfl, isGap, solid, others⟩ := List.filter_eq_cons_iff.mp isRest
      have trivia : last.isTrivia = false := by simpa using solid
      have isGap' : IsGap gap := fun piece listed => by simpa using isGap piece listed
      obtain ⟨gap', block, cut, isGap'', isBlock⟩ := exists_isBlock (front ++ gap) trivia
      obtain ⟨blocks, spells, groups_eq⟩ :=
        ih others fun group listed => some group (List.mem_cons_of_mem _ listed)
      have tokens : solids block = init ++ [last] := by
        have both := congrArg solids cut
        rw [solids_append, solids_append, solids_append, isGap''.solids_eq, isGap'.solids_eq,
          List.append_nil, List.nil_append] at both
        rw [← both, solids, isInit]
        simp [solids, trivia]
      refine ⟨⟨block, joined behind⟩ :: blocks, ?_, ?_⟩
      · have spelled : Spells (gap' ++ block ++ behind) _ := .block isGap'' isBlock spells
        rw [← cut] at spelled
        simpa using spelled
      · rw [List.map_cons, groups_eq, tokens, same]

end Lexer

-----------------------------------------------------------------------------------------
-- Blocks with alike tokens
-----------------------------------------------------------------------------------------

/-- Blocks with tokens that the parser does not tell apart. -/
def Lexer.Block.Alike (left right : Block) : Prop :=
  List.Forall₂ Piece.Alike (solids left.pieces) (solids right.pieces)

/-- Parts with alike tokens that are read as the same statement. -/
structure Part.Alike (left right : Part) : Prop where
  block : left.block.Alike right.block
  essence_eq : right.essence = left.essence

theorem Part.exists_alike {parts : List Part} {blocks : List Block}
    (alike : List.Forall₂ Block.Alike (parts.map Part.block) blocks)
    : ∃ parts' : List Part, parts'.map Part.block = blocks ∧ List.Forall₂ Part.Alike parts parts' := by
  induction parts generalizing blocks with
  | nil =>
      cases alike
      exact ⟨[], rfl, .nil⟩
  | cons part parts ih =>
      cases alike with
      | @cons _ block _ blocks here later =>
          obtain ⟨parts', rfl, alike⟩ := ih later
          exact ⟨⟨block, part.essence⟩ :: parts', rfl, .cons ⟨here, rfl⟩ alike⟩

theorem Part.map_essence_of_alike {parts parts' : List Part}
    (alike : List.Forall₂ Part.Alike parts parts')
    : parts'.map Part.essence = parts.map Part.essence := by
  induction alike with
  | nil => rfl
  | cons here _ ih => rw [List.map_cons, List.map_cons, here.essence_eq, ih]

theorem alike_tokensOf {parts parts' : List Part} (alike : List.Forall₂ Part.Alike parts parts')
    : List.Forall₂ Piece.Alike (tokensOf parts) (tokensOf parts') := by
  induction alike with
  | nil => exact .nil
  | cons here _ ih => exact List.rel_append here.block ih

theorem alike_tokens {blocks blocks' : List Block} (alike : List.Forall₂ Block.Alike blocks blocks')
    : List.Forall₂ Piece.Alike (tokens blocks) (tokens blocks') := by
  induction alike with
  | nil => exact .nil
  | cons here _ ih => exact List.rel_append here ih

namespace Parser

/-- Blocks with alike tokens are read the same before alike tokens. -/
theorem ReadsAll.alike {rest rest' : List Piece} {parts parts' : List Part}
    (reads : ReadsAll rest parts) (alike : List.Forall₂ Part.Alike parts parts')
    (behind : List.Forall₂ Piece.Alike rest rest')
    : ReadsAll rest' parts' := by
  induction alike with
  | nil => exact trivial
  | @cons part part' parts parts' here later ih =>
      obtain ⟨first, others⟩ := reads
      have near := nearPieces_of_alike
        (List.rel_append here.block (List.rel_append (alike_tokensOf later) behind))
      refine ⟨here.essence_eq ▸ first.near near ?_ here.block.length_eq.symm, ih others⟩
      rw [List.length_append]
      omega

end Parser

/-- An opening with alike tokens opens the same namespace. -/
theorem Opens.alike {pieces pieces' : List Piece} {name? : Option Name} {braced : Bool}
    (opens : Opens pieces name? braced)
    (alike : List.Forall₂ Piece.Alike (solids pieces) (solids pieces'))
    : Opens pieces' name? braced := by
  obtain ⟨keyword, mark, folded, shape⟩ := opens
  have name {text : Text} {piece : Piece} (here : Piece.Alike (.name, text) piece)
      : piece = (.name, text) :=
    Prod.ext here.1 (here.2 rfl)
  have marked {kind : TokenKind} {piece : Piece} (here : Piece.Alike (kind, mark) piece)
      : piece = (kind, piece.2) :=
    Prod.ext here.1 rfl
  cases name? with
  | some named =>
      obtain ⟨written, read, same⟩ := shape
      rw [same] at alike
      generalize tokens : solids pieces' = others at alike
      cases alike with
      | cons first alike =>
          cases alike with
          | cons second alike =>
              cases alike with
              | @cons _ third _ _ last none =>
                  cases none
                  refine ⟨keyword, third.2, folded, written, read, ?_⟩
                  rw [tokens, name first, name second, ← marked last]
  | none =>
      obtain ⟨braces, same⟩ := shape
      rw [same] at alike
      generalize tokens : solids pieces' = others at alike
      cases alike with
      | cons first alike =>
          cases alike with
          | @cons _ second _ _ last none =>
              cases none
              refine ⟨keyword, second.2, folded, braces, ?_⟩
              rw [tokens, name first, ← marked last]

/-- A block with one token is this token. -/
theorem Lexer.IsBlock.eq_singleton {pieces : List Piece} {piece : Piece} (isBlock : IsBlock pieces)
    (single : solids pieces = [piece])
    : pieces = [piece] := by
  obtain ⟨⟨first, rest, rfl, solid⟩, init, last, same, solid'⟩ := isBlock
  have others : solids rest = [] := by
    rw [solids, List.filter_cons, solid] at single
    exact (List.cons.inj single).2
  cases init with
  | nil =>
      obtain ⟨rfl, rfl⟩ := List.cons.inj same
      rw [← single]
      simp [solids, solid]
  | cons other init =>
      obtain ⟨_, rfl⟩ := List.cons.inj same
      simp [solids, solid'] at others

theorem Closes.alike {blocks blocks' : List Block} {braced : Bool} (closes : Closes blocks braced)
    (alike : List.Forall₂ Block.Alike blocks blocks')
    (areBlocks : ∀ block ∈ blocks', IsBlock block.pieces)
    : Closes blocks' braced := by
  cases braced with
  | false =>
      obtain rfl : blocks = [] := closes
      cases alike
      rfl
  | true =>
      obtain ⟨block, mark, rfl, marked⟩ := closes
      cases alike with
      | @cons _ block' _ _ here none =>
          cases none
          have tokens : List.Forall₂ Piece.Alike [(.rightBrace, mark)] (solids block'.pieces) := by
            have one : solids block.pieces = [(.rightBrace, mark)] := by
              rw [marked]
              rfl
            exact one ▸ here
          generalize others : solids block'.pieces = pieces at tokens
          cases tokens with
          | @cons _ piece _ _ brace none =>
              cases none
              refine ⟨block', piece.2, rfl, ?_⟩
              rw [(areBlocks block' List.mem_cons_self).eq_singleton others,
                ← show piece.1 = .rightBrace from brace.1]

-----------------------------------------------------------------------------------------
-- Sources
-----------------------------------------------------------------------------------------

/-- How many statements stand before the namespace of a file, and how those in its import scope are
read.
-/
def Sheet.outline (sheet : Sheet) : Option Nat × List Essence :=
  (sheet.frame?.map fun frame => frame.before.length, sheet.inside.map Part.essence)

/-- Blocks with the tokens of a file that can be read are such a file. -/
theorem Sheet.exists_alike {sheet : Sheet} {blocks : List Block}
    (alike : List.Forall₂ Block.Alike sheet.blocks blocks)
    (areBlocks : ∀ block ∈ blocks, IsBlock block.pieces) (readable : Readable sheet)
    (opens : ∀ frame ∈ sheet.frame?, Opens frame.opening.pieces frame.name? frame.braced)
    : ∃ sheet' : Sheet, sheet'.blocks = blocks ∧ sheet'.outline = sheet.outline ∧ Readable sheet'
        ∧ ∀ frame ∈ sheet'.frame?, Opens frame.opening.pieces frame.name? frame.braced := by
  obtain ⟨frame?, inside⟩ := sheet
  cases frame? with
  | none =>
      obtain ⟨inside', rfl, alike'⟩ := Part.exists_alike alike
      refine ⟨⟨none, inside'⟩, rfl, ?_, ⟨readable.inside.alike alike' .nil, nofun⟩, nofun⟩
      rw [Sheet.outline, Sheet.outline, Part.map_essence_of_alike alike']
  | some frame =>
      obtain ⟨first, rest, rfl, before, alike1⟩ := Pairing.split alike
      cases alike1 with
      | @cons _ opening _ rest opened alike2 =>
          obtain ⟨second, rest', rfl, within, alike3⟩ := Pairing.split alike2
          obtain ⟨closing, third, rfl, closes, after⟩ := Pairing.split alike3
          obtain ⟨before', rfl, alikeBefore⟩ := Part.exists_alike before
          obtain ⟨inside', rfl, alikeInside⟩ := Part.exists_alike within
          obtain ⟨after', rfl, alikeAfter⟩ := Part.exists_alike after
          have around := readable.around frame rfl
          have outer := List.rel_append (alike_tokens closes) (alike_tokensOf alikeAfter)
          let frame' : Frame := {
            frame with
            before := before'
            opening
            closing
            after := after' }
          refine ⟨⟨some frame', inside'⟩, rfl, ?_,
            ⟨readable.inside.alike alikeInside outer, ?_⟩, ?_⟩
          · rw [Sheet.outline, Sheet.outline, Part.map_essence_of_alike alikeInside,
              Option.map_some, Option.map_some, alikeBefore.length_eq]
          · rintro _ ⟨rfl⟩
            refine ⟨around.before.alike alikeBefore
              (List.rel_append opened (List.rel_append (alike_tokensOf alikeInside) outer)),
              around.after.alike alikeAfter .nil, around.closes.alike closes ?_, fun unbraced => ?_⟩
            · intro block listed
              exact areBlocks block (List.mem_append_right _ (List.mem_cons_of_mem _
                (List.mem_append_right _ (List.mem_append_left _ listed))))
            · have none := around.ended unbraced
              rw [none] at alikeAfter
              cases alikeAfter
              rfl
          · rintro _ ⟨rfl⟩
            exact (opens frame rfl).alike opened

theorem Parser.ReadsAll.ne_nil {rest : List Piece} {parts : List Part} (reads : ReadsAll rest parts)
    : ∀ part ∈ parts, solids part.block.pieces ≠ [] := by
  induction parts with
  | nil => nofun
  | cons part parts ih =>
      intro other listed
      rcases List.mem_cons.mp listed with rfl | later
      · exact List.length_pos_iff.mp reads.1.length_pos
      · exact ih reads.2 other later

/-- Each block of a file that can be read has a token. -/
theorem Parser.Readable.ne_nil {sheet : Sheet} (readable : Readable sheet)
    (opens : ∀ frame ∈ sheet.frame?, Opens frame.opening.pieces frame.name? frame.braced)
    : ∀ block ∈ sheet.blocks, solids block.pieces ≠ [] := by
  have ofParts {rest : List Piece} {parts : List Part} (reads : ReadsAll rest parts)
      : ∀ block ∈ parts.map Part.block, solids block.pieces ≠ [] := by
    intro block listed
    obtain ⟨part, inside, rfl⟩ := List.mem_map.mp listed
    exact reads.ne_nil part inside
  obtain ⟨frame?, inside⟩ := sheet
  intro block listed
  cases frame? with
  | none => exact ofParts readable.inside block listed
  | some frame =>
      obtain ⟨before, after, closes, _⟩ := readable.around frame rfl
      simp only [Sheet.blocks, List.mem_append, List.mem_cons] at listed
      rcases listed with here | rfl | here | here | here
      · exact ofParts before block here
      · obtain ⟨keyword, mark, _, shape⟩ := opens frame rfl
        cases named : frame.name? with
        | some name =>
            rw [named] at shape
            obtain ⟨written, _, same⟩ := shape
            rw [same]
            exact List.cons_ne_nil _ _
        | none =>
            rw [named] at shape
            rw [shape.2]
            exact List.cons_ne_nil _ _
      · exact ofParts readable.inside block here
      · unfold ImportHeader.Closes at closes
        split at closes
        · obtain ⟨only, mark, same, marked⟩ := closes
          rw [same, List.mem_singleton] at here
          rw [here, marked]
          exact List.cons_ne_nil _ _
        · rw [closes] at here
          cases here
      · exact ofParts after block here

/-- Where groups are alike to a list, that list is cut into groups. -/
theorem Pairing.exists_groups {α β : Type} {related : α → β → Prop} {groups : List (List α)}
    {all : List β} (pairs : List.Forall₂ related groups.flatten all)
    : ∃ groups', all = groups'.flatten ∧ List.Forall₂ (List.Forall₂ related) groups groups' := by
  induction groups generalizing all with
  | nil =>
      cases pairs
      exact ⟨[], rfl, .nil⟩
  | cons group groups ih =>
      obtain ⟨first, rest, rfl, here, later⟩ := Pairing.split pairs
      obtain ⟨groups', rfl, others⟩ := ih later
      exact ⟨first :: groups', rfl, .cons here others⟩

/-- A source with the tokens of blocks that can be read parses. -/
theorem exists_parse_of_tokens {source markup tag code : Text} {sheet : Sheet}
    (coded : Coded source markup tag code) (readable : Readable sheet)
    (opens : ∀ frame ∈ sheet.frame?, Opens frame.opening.pieces frame.name? frame.braced)
    (alike : List.Forall₂ Piece.Alike (tokens sheet.blocks) (solids (cut code)))
    : ∃ file, parse source = .ok file := by
  rw [tokens, List.flatMap_def] at alike
  obtain ⟨groups, whole, each⟩ := Pairing.exists_groups alike
  rw [List.forall₂_map_left_iff] at each
  have some : ∀ group ∈ groups, group ≠ [] := by
    rintro group listed rfl
    obtain ⟨block, inside, same⟩ := Pairing.exists_left each listed
    exact readable.ne_nil opens block inside (List.forall₂_nil_right_iff.mp same)
  obtain ⟨blocks, spells, rfl⟩ := exists_spells whole some
  rw [List.forall₂_map_right_iff] at each
  obtain ⟨sheet', rfl, _, readable', opens'⟩ := Sheet.exists_alike each spells.areBlocks readable opens
  obtain ⟨file, parsed, _⟩ := exists_parse coded spells readable' opens'
  exact ⟨file, parsed⟩

end ImportHeader
