import ImportHeader.Proofs.Header.Hushing
import ImportHeader.Proofs.Header.Reprinting
import ImportHeader.Proofs.Parser.Tokens

/-! Printed rows that are read back. They are cut into the blocks that they hold, each of which is
a block of the source or printed in a form of its own. Only the last of them can run on, over the
line feed at the end of the text.
-/

namespace ImportHeader

open ImportHeader.Lexer ImportHeader.Parser

-----------------------------------------------------------------------------------------
-- Blocks at the end of a text
-----------------------------------------------------------------------------------------

/-- A sound block that runs on, behind which there is nothing. -/
structure IsFinal (pieces : List Piece) : Prop where
  isBlock : IsBlock pieces
  sound : IsSound pieces
  stands : Stands pieces []
  runsOn : RunsOn pieces

theorem Lexer.Block.IsFixed.solid_or_final {block : Block} (fixed : block.IsFixed)
    : IsSolid block.pieces ∨ IsFinal block.pieces := by
  by_cases runsOn : RunsOn block.pieces
  · have stands := fixed.stands
    rw [fixed.last runsOn] at stands
    exact .inr ⟨fixed.isBlock, fixed.sound, stands, runsOn⟩
  · exact .inl (fixed.isSolid runsOn)

theorem Lexer.Block.IsFixed.alone {block : Block} (fixed : block.IsFixed)
    : Stands block.pieces [] := by
  rcases fixed.solid_or_final with solid | final
  · exact solid.alone
  · exact final.stands

/-- A block that starts with a close tag starts with a question mark. -/
theorem Lexer.Block.IsFixed.head?_of_closeTag {block : Block} {piece : Piece}
    (fixed : block.IsFixed) (first : piece ∈ (solids block.pieces).head?)
    (close : piece.1 = .closeTag)
    : (joined block.pieces).head? = some '?' := by
  obtain ⟨⟨⟨start, rest, same, solid⟩, _⟩, _, stands, _⟩ := fixed
  rw [same] at first stands ⊢
  obtain rfl : start = piece := by simpa [solids, solid] using first
  obtain ⟨kind, text⟩ := start
  obtain rfl : kind = .closeTag := close
  obtain ⟨c, body, rfl⟩ := List.exists_cons_of_ne_nil (stands.ne_nil _ List.mem_cons_self)
  obtain rfl : c = '?' := eq_of_beq (canStart_of_munch (stands_cons.mp stands).1)
  rfl

/-- Before a line feed the last block of a text takes it up, and its tokens stay alike. -/
theorem IsFinal.exists_longer {pieces : List Piece} (final : IsFinal pieces)
    : ∃ longer,
        joined longer = joined pieces ++ ['\n']
        ∧ IsBlock longer
        ∧ Stands longer []
        ∧ List.Forall₂ Piece.Alike (solids pieces) (solids longer) := by
  obtain ⟨⟨⟨first, rest, starts, solid⟩, init, last, rfl, solid'⟩, sound, stands, runsOn⟩ := final
  obtain ⟨kind, text⟩ := last
  rw [runsOn_concat] at runsOn
  obtain ⟨c, body, rfl⟩ := List.exists_cons_of_ne_nil (stands.ne_nil (kind, text) (by simp))
  have unnamed : kind ≠ .name := by
    rcases runsOn with rfl | ⟨rfl, _⟩ <;> decide
  refine ⟨init ++ [(kind, c :: (body ++ ['\n']))], by simp, ⟨?_, init, _, rfl, solid'⟩,
    stands.longer rfl runsOn sound, ?_⟩
  · cases init with
    | nil => exact ⟨_, [], rfl, solid'⟩
    | cons other init =>
        obtain ⟨rfl, _⟩ := List.cons.inj starts
        exact ⟨_, _, rfl, solid⟩
  · have longer : Piece.isTrivia (kind, c :: (body ++ ['\n'])) = false := solid'
    rw [Cursor.solids_concat solid', Cursor.solids_concat longer]
    exact List.rel_append (alike_refl _) (.cons ⟨rfl, fun named => absurd named unnamed⟩ .nil)

theorem alone_of_solid_or_final {all : List (List Piece)}
    (each : ∀ pieces ∈ all, IsSolid pieces ∨ IsFinal pieces)
    : ∀ pieces ∈ all, Stands pieces [] :=
  fun pieces listed => (each pieces listed).elim IsSolid.alone IsFinal.stands

/-- The last token of a block is its last piece. -/
theorem Lexer.IsBlock.getLast?_solids {pieces : List Piece} (isBlock : IsBlock pieces)
    : (solids pieces).getLast? = pieces.getLast? := by
  obtain ⟨init, last, rfl, solid⟩ := isBlock.2
  rw [Cursor.solids_concat solid, List.getLast?_concat, List.getLast?_concat]

theorem stays_of_solids {pieces : List Piece} (isBlock : IsBlock pieces)
    (stays : ∀ last ∈ (solids pieces).getLast?, ¬last.RunsOn)
    : ¬RunsOn pieces := by
  rintro ⟨last, isLast, runsOn⟩
  exact stays last (isBlock.getLast?_solids.symm ▸ isLast) runsOn

theorem getLast?_tokensOf {parts : List Part}
    (areBlocks : ∀ part ∈ parts, IsBlock part.block.pieces)
    : (tokensOf parts).getLast? = parts.getLast?.bind fun part => part.block.pieces.getLast? := by
  rcases List.eq_nil_or_concat parts with rfl | ⟨init, last, rfl⟩
  · rfl
  rw [List.concat_eq_append] at areBlocks ⊢
  have token := (areBlocks last (by simp)).getLast?_solids
  obtain ⟨_, final, same, _⟩ := (areBlocks last (by simp)).2
  have some : solids last.block.pieces ≠ [] := by
    intro empty
    rw [empty, same, List.getLast?_concat] at token
    cases token
  rw [tokensOf_append, tokensOf_cons, tokensOf_nil, List.append_nil,
    List.getLast?_append_of_ne_nil _ some, token, List.getLast?_concat, Option.bind_some]

/-- The tokens of blocks do not end with a close tag if the last block does not run on. -/
theorem stays_tokensOf {parts : List Part} (areBlocks : ∀ part ∈ parts, IsBlock part.block.pieces)
    (final : ∀ last ∈ parts.getLast?, ¬RunsOn last.block.pieces)
    : ∀ last ∈ (tokensOf parts).getLast?, last.1 ≠ .closeTag := by
  intro token isLast close
  rw [getLast?_tokensOf areBlocks] at isLast
  obtain ⟨last, here, isToken⟩ := Option.bind_eq_some_iff.mp isLast
  exact final last here ⟨token, isToken, .inl close⟩

-----------------------------------------------------------------------------------------
-- Rows that hold blocks
-----------------------------------------------------------------------------------------

/-- A block without its place. -/
def Lexer.bareBlock (pieces : List Piece) : Block :=
  ⟨pieces, []⟩

theorem Lexer.map_bare (blocks : List Block)
    : blocks.map Block.bare = (blocks.map Block.pieces).map bareBlock := by
  rw [List.map_map]
  rfl

namespace Row

variable {rows : List Row} {all : List (List Piece)}

theorem lays_final {row : Row} {pieces : List Piece} (holds : row.Holds pieces) (tidy : row.IsTidy)
    (final : IsFinal pieces)
    : ∃ block,
        Lays (row.print id ['\n'] ++ ['\n']) [block] ∧ (bareBlock pieces).Alike block := by
  obtain ⟨longer, text, isBlock, stands, alike⟩ := final.exists_longer
  have later : Lays [] [] := .gap isGap_nil
  have lays : Lays (joined longer ++ []) [⟨longer, []⟩] := .block isBlock stands later
  refine ⟨⟨longer, []⟩, lays_of_text (.inl rfl) tidy (fun _ isComment => isComment) ?_, alike⟩
  rw [holds.text_eq, holds.bare final.runsOn, Option.map_none, printTrailing, List.nil_append,
    ← text, ← List.append_nil (joined longer)]
  exact lays

/-- Rows are cut into blocks with the tokens of those that they hold, by induction on the rows. Only
the last of them can hold a block that runs on.
-/
theorem exists_lays (holds : List.Forall₂ Holds rows all) (tidy : ∀ row ∈ rows, row.IsTidy)
    (hushed : ∀ block ∈ blocks id ['\n'] ['\n'] rows all, block.IsHushed)
    (each : ∀ pieces ∈ all, IsSolid pieces ∨ IsFinal pieces)
    (stays : all.Pairwise fun pieces _ => ¬RunsOn pieces)
    : ∃ blocks,
        Lays (printAll id ['\n'] rows ++ ['\n']) blocks
        ∧ List.Forall₂ Block.Alike (all.map bareBlock) blocks := by
  induction holds with
  | nil => exact ⟨[], lays_newline, .nil⟩
  | @cons row pieces rows all here later ih =>
      obtain ⟨first, stays'⟩ := List.pairwise_cons.mp stays
      have tidyRow := tidy row List.mem_cons_self
      rw [printAll, List.flatMap_cons, List.map_cons, List.append_assoc]
      rcases each pieces List.mem_cons_self with solid | final
      · obtain ⟨blocks, lays, alike⟩ := ih (fun row listed => tidy row (.tail _ listed))
          (fun block listed => hushed block (.tail _ listed))
          (fun pieces listed => each pieces (.tail _ listed)) stays'
        exact ⟨_, lays_print (.inl rfl) (here.fits solid) tidyRow (fun _ isComment => isComment)
          (hushed _ List.mem_cons_self) (breaksLine_printAll (.inl rfl) breaksLine_newline) lays,
          .cons (alike_refl _) alike⟩
      · cases later with
        | nil =>
            obtain ⟨block, lays, alike⟩ := lays_final here tidyRow final
            exact ⟨[block], lays, .cons alike .nil⟩
        | cons => exact absurd final.runsOn (first _ List.mem_cons_self)

end Row

section

variable {source markup tag code ending : Text}

/-- A comment behind the open tag, or a line ending, starts with white space. -/
theorem exists_space {rest : Text} (breaks : Row.BreaksLine rest) (comment? : Option Text)
    : ∃ c more, isSpace c = true ∧ printTrailing comment? ++ rest = c :: more := by
  cases comment? with
  | none => exact breaks.cons
  | some comment => exact ⟨' ', _, rfl, rfl⟩

/-- Rows can follow the open tag of a source. -/
theorem Coded.recode_rows {fit : Text → Text} {rows : List Row} {tail : Text}
    (coded : Coded source markup tag code) (isEnding : Text.IsEnding ending)
    (breaks : Row.BreaksLine tail) (comment? : Option Text)
    : Coded (markup ++ tag ++ (printTrailing comment? ++ (Row.printAll fit ending rows ++ tail)))
        markup tag (printTrailing comment? ++ (Row.printAll fit ending rows ++ tail)) := by
  have broken : Row.BreaksLine (Row.printAll fit ending rows ++ tail) :=
    Row.breaksLine_printAll isEnding breaks
  obtain ⟨c, more, space, first⟩ := exists_space broken comment?
  rw [first]
  exact coded.recode space more

end

/-- A text of rows parses if the tokens of the blocks that they hold are those of a file that can be
read.
-/
theorem exists_parse_of_rows {source markup tag code : Text} {comment? : Option Text}
    {rows : List Row} {all : List (List Piece)} {sheet : Sheet}
    (coded : Coded source markup tag code) (noted : ∀ comment ∈ comment?, IsComment comment)
    (holds : List.Forall₂ Row.Holds rows all) (tidy : ∀ row ∈ rows, row.IsTidy)
    (hushed : Row.AreHushed rows)
    (texts : all.Pairwise fun pieces other => OpensComment pieces → EndsNoComment (joined other))
    (each : ∀ pieces ∈ all, IsSolid pieces ∨ IsFinal pieces)
    (stays : all.Pairwise fun pieces _ => ¬RunsOn pieces) (readable : Readable sheet)
    (opens : ∀ frame ∈ sheet.frame?, Opens frame.opening.pieces frame.name? frame.braced)
    (same : tokens sheet.blocks = all.flatMap solids)
    : ∃ again,
        parse (markup ++ tag
          ++ (printTrailing comment? ++ (Row.printAll id ['\n'] rows ++ ['\n'])))
        = .ok again := by
  obtain ⟨blocks, lays, alike⟩ := Row.exists_lays holds tidy
    (Row.isHushed_blocks holds (alone_of_solid_or_final each) hushed texts) each stays
  have newline : Text.IsEnding ['\n'] := .inl rfl
  have laid : Lays (printTrailing (comment?.map id)
      ++ (Row.printAll id ['\n'] rows ++ ['\n'])) blocks :=
    Row.lays_trailing noted (Row.breaksLine_printAll newline Row.breaksLine_newline) lays
  rw [Option.map_id_fun, id] at laid
  refine exists_parse_of_tokens (coded.recode_rows newline Row.breaksLine_newline comment?) readable
    opens ?_
  have held : tokens (all.map bareBlock) = all.flatMap solids := by
    rw [tokens, List.flatMap_map]
    rfl
  rw [same, laid.solids_eq, ← held]
  exact alike_tokens alike

-----------------------------------------------------------------------------------------
-- Blocks as they are printed
-----------------------------------------------------------------------------------------

/-- A solid block in which no comment starts and none ends. -/
structure IsPlain (pieces : List Piece) : Prop where
  solid : IsSolid pieces
  starts : ¬OpensComment pieces
  ends : EndsNoComment (joined pieces)

theorem isPlain_importPieces {declaration : Import} (prints : Prints declaration)
    : IsPlain (importPieces declaration) :=
  ⟨isSolid_importPieces prints, not_opensComment (not_mem_importPieces rfl prints.1),
    endsNoComment_of_not_mem (not_mem_importPieces rfl prints.1)⟩

theorem isPlain_openingPieces {name? : Option Name} (braced : Bool)
    (spelled : ∀ name ∈ name?, name.isSpelled = true)
    : IsPlain (openingPieces name? braced) :=
  ⟨isSolid_openingPieces braced spelled,
    not_opensComment (not_mem_openingPieces rfl braced spelled),
    endsNoComment_of_not_mem (not_mem_openingPieces rfl braced spelled)⟩

/-- What is printed of a block: its own pieces, or others in a fixed form. -/
def Redraws (block : Block) (pieces : List Piece) : Prop :=
  pieces = block.pieces ∨ IsPlain pieces

section

variable {blocks : List Block} {all : List (List Piece)} {frame? : Option Frame}
  {front back : List Part}

theorem redraws_refl (blocks : List Block)
    : List.Forall₂ Redraws blocks (blocks.map Block.pieces) := by
  induction blocks with
  | nil => exact .nil
  | cons block blocks ih => exact .cons (.inl rfl) ih

theorem solid_or_final_of_redraws (redraws : List.Forall₂ Redraws blocks all)
    (fixed : ∀ block ∈ blocks, block.IsFixed)
    : ∀ pieces ∈ all, IsSolid pieces ∨ IsFinal pieces := by
  intro pieces listed
  obtain ⟨block, here, rfl | plain⟩ := Pairing.exists_left redraws listed
  · exact (fixed block here).solid_or_final
  · exact .inl plain.solid

theorem pairwise_of_redraws (redraws : List.Forall₂ Redraws blocks all)
    (stays : blocks.Pairwise fun block _ => ¬RunsOn block.pieces)
    : all.Pairwise fun pieces _ => ¬RunsOn pieces := by
  refine Pairing.pairwise redraws ?_ stays
  rintro block pieces _ _ (rfl | plain) _ first
  · exact first
  · exact plain.solid.stays

/-- Behind a comment that is left open no comment ends, in what is printed of blocks in order. -/
theorem texts_of_redraws (redraws : List.Forall₂ Redraws blocks all)
    (hushed : ∀ block ∈ blocks, block.IsHushed)
    (ordered : blocks.Pairwise fun block later => joined later.pieces <:+: block.behind)
    : all.Pairwise fun pieces other => OpensComment pieces → EndsNoComment (joined other) := by
  refine Pairing.pairwise ((List.forall₂_and_left _ _).mpr ⟨hushed, redraws⟩) ?_ ordered
  rintro block pieces later other ⟨quiet, here⟩ ⟨_, behind⟩ inside opens
  rcases behind with rfl | plain
  · rcases here with rfl | plain
    · exact (quiet opens).within inside
    · exact absurd opens plain.starts
  · exact plain.ends

theorem stays_of_getLast? (stays : all.Pairwise fun pieces _ => ¬RunsOn pieces)
    (final : ∀ last ∈ all.getLast?, ¬RunsOn last)
    : ∀ pieces ∈ all, ¬RunsOn pieces := by
  rcases List.eq_nil_or_concat all with rfl | ⟨init, last, rfl⟩
  · nofun
  rw [List.concat_eq_append] at stays final ⊢
  intro pieces listed
  rcases List.mem_append.mp listed with here | here
  · exact (List.pairwise_append.mp stays).2.2 pieces here last List.mem_cons_self
  · obtain rfl := List.mem_singleton.mp here
    exact final pieces List.getLast?_concat

theorem stays_head (opening : ∀ frame ∈ frame?, ¬RunsOn frame.opening.pieces)
    (final : ∀ last ∈ front.getLast?, ¬RunsOn last.block.pieces)
    : ∀ last ∈ ((Sheet.head frame? front).map Block.pieces).getLast?, ¬RunsOn last := by
  intro pieces last
  rcases List.eq_nil_or_concat front with rfl | ⟨init, part, rfl⟩
  · cases frame? with
    | none => cases last
    | some frame =>
        change pieces ∈ ((frame.before.map Part.block ++ [frame.opening] ++ []).map
          Block.pieces).getLast? at last
        rw [List.append_nil, List.map_append, List.map_singleton, List.getLast?_concat] at last
        obtain rfl := Option.some.inj last
        exact opening frame rfl
  · rw [List.concat_eq_append, Sheet.head, List.map_append, List.map_append, List.map_append,
      ← List.append_assoc, List.map_singleton, List.map_singleton, List.getLast?_concat] at last
    obtain rfl := Option.some.inj last
    exact final part (by rw [List.concat_eq_append, List.getLast?_concat]; rfl)

theorem redraws_head (named : ∀ frame ∈ frame?, ∀ name ∈ frame.name?, name.isSpelled = true)
    : List.Forall₂ Redraws (Sheet.head frame? front)
        ((Sheet.head (frame?.map Frame.redrawn) front).map Block.pieces) := by
  rw [Sheet.head, Sheet.head, List.map_append]
  refine List.rel_append ?_ (redraws_refl _)
  cases frame? with
  | none => exact .nil
  | some frame =>
      change List.Forall₂ Redraws (frame.before.map Part.block ++ [frame.opening])
        ((frame.before.map Part.block ++ [frame.redrawn.opening]).map Block.pieces)
      rw [List.map_append]
      exact List.rel_append (redraws_refl _)
        (.cons (.inr (isPlain_openingPieces frame.braced (named frame rfl))) .nil)

theorem redraws_reprinted {parts : List Part}
    (all : ∀ part ∈ parts, ∀ declaration ∈ part.essence.2.1, Rereads declaration)
    : List.Forall₂ Redraws (parts.map Part.block)
        (((parts.map Part.reprinted).map Part.block).map Block.pieces) := by
  induction parts with
  | nil => exact .nil
  | cons part parts ih =>
      refine .cons ?_ (ih fun other listed => all other (.tail _ listed))
      cases imports : part.essence.2.1 with
      | some declaration =>
          rw [Part.reprinted_of_import imports]
          exact .inr (isPlain_importPieces (all part List.mem_cons_self declaration imports).prints)
      | none =>
          rw [Part.reprinted_of_plain (by rw [imports]; rfl)]
          exact .inl rfl

theorem redraws_foot
    (after
      : ∀ frame ∈ frame?, ∀ part ∈ frame.after, ∀ declaration ∈ part.essence.2.1,
          Rereads declaration)
    : List.Forall₂ Redraws (Sheet.foot frame? back)
        ((Sheet.foot (frame?.map Frame.reprinted) back).map Block.pieces) := by
  rw [Sheet.foot, Sheet.foot, List.map_append]
  refine List.rel_append (redraws_refl _) ?_
  cases frame? with
  | none => exact .nil
  | some frame =>
      change List.Forall₂ Redraws (frame.closing ++ frame.after.map Part.block)
        ((frame.closing ++ (frame.after.map Part.reprinted).map Part.block).map Block.pieces)
      rw [List.map_append]
      exact List.rel_append (redraws_refl _) (redraws_reprinted (after frame rfl))

end

end ImportHeader
