import ImportHeader.Proofs.Header.Recast
import ImportHeader.Proofs.Parser.Closing
import ImportHeader.Proofs.Parser.StatementUptake

/-! The blocks of a file as they are printed: the namespace is opened in a fixed form, all imports
are printed in a fixed form, and other imports can stand in the place of those in the import scope.
The parser accepts the tokens of these blocks, although it may join some of the blocks.
-/

namespace ImportHeader

open ImportHeader.Lexer ImportHeader.Parser

/-- An import whose print is read as an import. -/
structure Rereads (declaration : Import) : Prop where
  prints : Prints declaration
  plain : declaration.isAmbiguous = false

theorem Rereads.reads {declaration : Import} (rereads : Rereads declaration) (rest : List Piece)
    : Reads (solids (importPieces declaration)) rest (false, some declaration.respelled, []) :=
  reads_spelled rereads.prints.1 rereads.plain rereads.prints.2 rest

-----------------------------------------------------------------------------------------
-- Statements as they are printed
-----------------------------------------------------------------------------------------

theorem Part.reprinted_of_import {part : Part} {declaration : Import}
    (imports : part.essence.2.1 = some declaration)
    : part.reprinted = respelledPart declaration := by
  rw [reprinted, imports]

namespace Parser

theorem readsAll_respelled {declarations : List Import}
    (all : ∀ declaration ∈ declarations, Rereads declaration) (rest : List Piece)
    : ReadsAll rest (declarations.map respelledPart) := by
  induction declarations with
  | nil => exact trivial
  | cons declaration declarations ih =>
      exact ⟨(all declaration List.mem_cons_self).reads _,
        ih fun other listed => all other (List.mem_cons_of_mem _ listed)⟩

/-- No statement sees a difference between blocks and their prints, by induction on the blocks up
to the first import.
-/
theorem ReadsAll.near_reprinted {count : Nat} {rest rest' : List Piece} {parts : List Part}
    (reads : ReadsAll rest parts) (near : NearPieces count rest rest')
    : ∃ count, NearPieces count (tokensOf parts ++ rest)
        (tokensOf (parts.map Part.reprinted) ++ rest') := by
  induction parts with
  | nil => exact ⟨count, near⟩
  | cons part parts ih =>
      obtain ⟨here, later⟩ := reads
      rw [List.map_cons, tokensOf_cons, tokensOf_cons, List.append_assoc, List.append_assoc]
      cases imports : part.essence.2.1 with
      | some declaration =>
          rw [Part.reprinted_of_import imports]
          have starts := here.startsImport (by rw [imports]; rfl)
          exact ⟨0, (starts.append _).near ((startsImport_partOf declaration).append _)⟩
      | none =>
          obtain ⟨count, behind⟩ := ih later
          rw [Part.reprinted_of_plain (by rw [imports]; rfl)]
          exact ⟨_, .append (alike_refl _) behind⟩

/-- Blocks can be read as they are printed. -/
theorem ReadsAll.reprinted {count : Nat} {rest rest' : List Piece} {parts : List Part}
    (reads : ReadsAll rest parts) (near : NearPieces count rest rest')
    (all : ∀ part ∈ parts, ∀ declaration ∈ part.essence.2.1, Rereads declaration)
    : ReadsAll rest' (parts.map Part.reprinted) := by
  induction parts with
  | nil => exact trivial
  | cons part parts ih =>
      obtain ⟨here, later⟩ := reads
      refine ⟨?_, ih later fun other listed => all other (List.mem_cons_of_mem _ listed)⟩
      cases imports : part.essence.2.1 with
      | some declaration =>
          rw [Part.reprinted_of_import imports]
          exact (all part List.mem_cons_self declaration imports).reads _
      | none =>
          obtain ⟨_, behind⟩ := later.near_reprinted near
          rw [Part.reprinted_of_plain (by rw [imports]; rfl)]
          exact here.near (.append (alike_refl _) behind) (Nat.le_add_right _ _) rfl

-----------------------------------------------------------------------------------------
-- Statements before other imports
-----------------------------------------------------------------------------------------

/-- Directives before the first imports of a file, which are imports of one class each: there is none,
or the last one ends with a semicolon or a closing bracket.
-/
structure IsReady (front : List Part) (declarations : List Import) : Prop where
  directives : ∀ part ∈ front, part.essence.1 = true
  single : ∀ declaration ∈ declarations, ∃ name, declaration = .single name
  ends : front = [] ∨ EndsClosed (tokensOf front) ∨ ClosesBracket (tokensOf front)

/-- Such directives do not run on. -/
theorem IsReady.stays {front : List Part} {declarations : List Import}
    (ready : IsReady front declarations)
    : ∀ piece ∈ (tokensOf front).getLast?, ¬piece.RunsOn := by
  intro piece final
  have marks : ∀ kind ∈ TokenKind.semicolon :: Cursor.closers, kind ≠ .closeTag ∧ kind ≠ .error := by
    decide
  have listed : piece.1 ∈ TokenKind.semicolon :: Cursor.closers := by
    rcases ready.ends with rfl | closed | ⟨kind, listed, last⟩
    · cases final
    · rw [EndsClosed, Option.mem_def.mp final] at closed
      exact List.mem_cons.mpr (.inl (Option.some.inj closed))
    · rw [Option.mem_def.mp final] at last
      exact List.mem_cons_of_mem _ (Option.some.inj last ▸ listed)
  exact Piece.not_runsOn (marks _ listed).1 (marks _ listed).2

/-- What stands before the imports is accepted before other imports. With imports before and after
it is read the same. If there are none after, its last statement may take up others. If there are
none before, it has to be directives of which the last one ends with a semicolon, or with a closing
bracket and may take up the import of a class.
-/
theorem ReadsAll.exists_reimported {outer : List Piece} {front old back : List Part}
    {declarations : List Import} (reads : ReadsAll outer (front ++ (old ++ back)))
    (plain : NoImports front) (imports : ∀ part ∈ old, part.essence.2.1.isSome = true)
    (all : ∀ declaration ∈ declarations, Rereads declaration)
    (ended : ∀ piece ∈ outer.head?, piece.1 = .rightBrace)
    (apart : old ≠ [] → ∀ last ∈ (tokensOf front).getLast?, last.1 ≠ .closeTag)
    (top : old = [] → declarations ≠ [] → IsReady front declarations)
    : ∃ parts,
        tokensOf parts
          = tokensOf front ++ (tokensOf (declarations.map respelledPart) ++ tokensOf back)
        ∧ ReadsAll outer parts := by
  obtain ⟨before, later⟩ := readsAll_append.mp reads
  obtain ⟨among, behind⟩ := readsAll_append.mp later
  have behind' : ReadsAll outer (declarations.map respelledPart ++ back) :=
    readsAll_append.mpr ⟨readsAll_respelled all _, behind⟩
  rw [tokensOf_append, List.append_assoc] at before
  have keeps (same : ReadsAll (tokensOf (declarations.map respelledPart ++ back) ++ outer) front)
      : ∃ parts,
          tokensOf parts
            = tokensOf front ++ (tokensOf (declarations.map respelledPart) ++ tokensOf back)
          ∧ ReadsAll outer parts :=
    ⟨front ++ (declarations.map respelledPart ++ back),
      by rw [tokensOf_append, tokensOf_append], readsAll_append.mpr ⟨same, behind'⟩⟩
  cases old with
  | nil =>
      cases declarations with
      | nil => exact keeps before
      | cons declaration declarations =>
          obtain ⟨directives, single, ends⟩ := top rfl (List.cons_ne_nil _ _)
          rcases ends with rfl | closed | closes
          · exact keeps trivial
          · exact keeps (before.before closed plain _)
          · obtain ⟨name, rfl⟩ := single declaration List.mem_cons_self
            obtain ⟨parts, tokens, reads⟩ := before.exists_directives directives closes rfl behind'
            exact ⟨parts, by simpa using tokens, reads⟩
  | cons first old =>
      have starts : StartsImport (tokensOf (first :: old) ++ (tokensOf back ++ outer)) := by
        rw [tokensOf_cons, List.append_assoc]
        exact (among.1.startsImport (imports first List.mem_cons_self)).append _
      cases declarations with
      | nil =>
          obtain ⟨keyword, rest, same, _⟩ := starts
          obtain ⟨parts, tokens, reads⟩ := exists_rejoined before plain ⟨_, rest, same, nofun, nofun⟩
            (apart (List.cons_ne_nil _ _)) behind' ended
          exact ⟨parts, by rw [tokens, tokensOf_append], reads⟩
      | cons declaration declarations =>
          refine keeps (before.near (starts.near ?_))
          rw [List.map_cons, List.cons_append, tokensOf_cons, List.append_assoc]
          exact (startsImport_partOf declaration).append _

-----------------------------------------------------------------------------------------
-- Files as they are printed
-----------------------------------------------------------------------------------------

/-- Behind an import scope there is nothing or a brace. -/
theorem Readable.endsScope {frame? : Option Frame} {inside : List Part}
    (readable : Readable ⟨frame?, inside⟩)
    : ∀ piece ∈ (outer frame?).head?, piece.1 = .rightBrace := by
  cases frame? with
  | none => nofun
  | some frame =>
      have around := readable.around frame rfl
      have closes := around.closes
      intro piece first
      change piece ∈ (tokens frame.closing ++ tokensOf frame.after).head? at first
      cases braced : frame.braced with
      | true =>
          rw [braced] at closes
          obtain ⟨block, mark, closing, marked⟩ := closes
          rw [closing, tokens_cons, marked] at first
          cases first
          rfl
      | false =>
          rw [braced] at closes
          have closing : frame.closing = [] := closes
          rw [closing, around.ended braced] at first
          cases first

/-- A file can be read with the statements behind its namespace as they are printed. -/
theorem Readable.reprint_after {frame : Frame} {inside : List Part}
    (readable : Readable ⟨some frame, inside⟩)
    (all : ∀ part ∈ frame.after, ∀ declaration ∈ part.essence.2.1, Rereads declaration)
    : Readable ⟨some { frame with after := frame.after.map Part.reprinted }, inside⟩ := by
  obtain ⟨before, after, closes, ended⟩ := readable.around frame rfl
  have none : NearPieces 0 [] [] := .ended
  obtain ⟨count, near⟩ := after.near_reprinted none
  rw [List.append_nil, List.append_nil] at near
  have behind := NearPieces.append (alike_refl (tokens frame.closing)) near
  refine ⟨readable.inside.near behind, ?_⟩
  rintro _ ⟨rfl⟩
  exact ⟨before.near (.append (alike_refl _) (.append (alike_refl _) behind)),
    after.reprinted none all, closes,
    fun unbraced => List.map_eq_nil_iff.mpr (ended unbraced)⟩

theorem Readable.reprinted {frame? : Option Frame} {inside : List Part}
    (readable : Readable ⟨frame?.map Frame.redrawn, inside⟩)
    (after
      : ∀ frame ∈ frame?, ∀ part ∈ frame.after, ∀ declaration ∈ part.essence.2.1,
          Rereads declaration)
    : Readable ⟨frame?.map Frame.reprinted, inside⟩ := by
  cases frame? with
  | none => exact readable
  | some frame => exact readable.reprint_after (after frame rfl)

/-- The tokens of a file with other imports, as it is printed, are those of blocks that can be read.
-/
theorem Readable.exists_reprinted {frame? : Option Frame} {front old back : List Part}
    {declarations : List Import} (readable : Readable ⟨frame?, front ++ (old ++ back)⟩)
    (plain : NoImports front) (imports : ∀ part ∈ old, part.essence.2.1.isSome = true)
    (all : ∀ declaration ∈ declarations, Rereads declaration)
    (after
      : ∀ frame ∈ frame?, ∀ part ∈ frame.after, ∀ declaration ∈ part.essence.2.1,
          Rereads declaration)
    (starts : ∀ frame ∈ frame?, StartsSpace frame.opening.pieces)
    (opens
      : ∀ frame ∈ frame?,
          (∀ name ∈ frame.name?, name.isSpelled = true)
          ∧ (frame.braced = true ∨ frame.name?.isSome = true))
    (apart : old ≠ [] → ∀ last ∈ (tokensOf front).getLast?, last.1 ≠ .closeTag)
    (top : old = [] → declarations ≠ [] → IsReady front declarations)
    : ∃ sheet : Sheet,
        Readable sheet
        ∧ (∀ frame ∈ sheet.frame?, Opens frame.opening.pieces frame.name? frame.braced)
        ∧ tokens sheet.blocks
          = tokens (Sheet.head (frame?.map Frame.redrawn) front)
            ++ (tokensOf (declarations.map respelledPart)
              ++ tokens (Sheet.foot (frame?.map Frame.reprinted) back)) := by
  cases frame? with
  | none =>
      have inside : ReadsAll [] (front ++ (old ++ back)) := readable.inside
      obtain ⟨parts, same, reads⟩ := inside.exists_reimported plain imports all nofun apart top
      refine ⟨⟨none, parts⟩, ⟨reads, nofun⟩, nofun, ?_⟩
      change tokens (parts.map Part.block)
        = tokens (front.map Part.block) ++ (_ ++ tokens (back.map Part.block ++ []))
      rw [List.append_nil, tokens_map_block, tokens_map_block, tokens_map_block, same]
  | some frame =>
      have known := opens frame rfl
      have readable' := readable.reprint_after (after frame rfl)
      have around := readable'.around _ rfl
      obtain ⟨parts, same, reads⟩ :=
        readable'.inside.exists_reimported plain imports all readable'.endsScope apart top
      -- What stands before the namespace looks no further than its keyword.
      obtain ⟨read?, opened⟩ := exists_opens_openingPieces known.1 known.2
      obtain ⟨keyword, rest, opening, spelled⟩ := (starts frame rfl).keyword
      obtain ⟨keyword', rest', opening', spelled'⟩ :=
        (startsSpace_openingPieces frame.name? frame.braced).keyword
      have before := around.before
      rw [opening] at before
      let frame' : Frame := { frame.reprinted with name? := read? }
      refine ⟨⟨some frame', parts⟩, ⟨reads, ?_⟩, ?_, ?_⟩
      · rintro _ ⟨rfl⟩
        refine ⟨?_, around.after, around.closes, around.ended⟩
        change ReadsAll (solids (openingPieces frame.name? frame.braced) ++ _) frame.before
        rw [opening']
        exact before.near
          (nearPieces_of_keyword (by simp [Lexeme.quietKeywords]) spelled spelled' _ _)
      · rintro _ ⟨rfl⟩
        exact opened
      · change tokens (frame.before.map Part.block ++ frame.redrawn.opening
            :: (parts.map Part.block ++ (frame.closing ++ frame'.after.map Part.block)))
          = tokens (frame.before.map Part.block ++ [frame.redrawn.opening] ++ front.map Part.block)
            ++ (_ ++ tokens (back.map Part.block ++ (frame.closing ++ frame'.after.map Part.block)))
        simp only [tokens_append, tokens_cons, tokens_map_block, same, List.append_assoc]
        rfl

end Parser

end ImportHeader
