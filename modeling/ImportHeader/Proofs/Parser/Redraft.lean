import ImportHeader.Proofs.Parser.Imports
import ImportHeader.Proofs.Parser.Sheet

/-! Files with other imports. The blocks of a file can still be read when other imports stand in
the place of its own, and when its namespace is opened with other tokens for the same name.
-/

namespace ImportHeader

open ImportHeader.Lexer

-----------------------------------------------------------------------------------------
-- Blocks without their places
-----------------------------------------------------------------------------------------

def Lexer.Block.bare (block : Block) : Block :=
  { block with behind := [] }

def Part.bare (part : Part) : Part :=
  { part with block := part.block.bare }

/-- What stands around an import scope, without the texts behind the blocks. -/
def Frame.bare (frame : Frame) : Frame where
  before := frame.before.map Part.bare
  opening := frame.opening.bare
  name? := frame.name?
  braced := frame.braced
  closing := frame.closing.map Block.bare
  after := frame.after.map Part.bare

/-- A file as blocks, without the texts behind them. -/
def Sheet.bare (sheet : Sheet) : Sheet :=
  ⟨sheet.frame?.map Frame.bare, sheet.inside.map Part.bare⟩

/-- What stands around an import scope, opened by other pieces. -/
def Frame.reopened (frame : Frame) (name? : Option Name) (pieces : List Piece) : Frame :=
  { frame with opening := ⟨pieces, []⟩, name? := name? }

@[simp] theorem tokensOf_map_bare (parts : List Part)
    : tokensOf (parts.map Part.bare) = tokensOf parts := by
  rw [tokensOf, List.flatMap_map]
  rfl

@[simp] theorem tokens_map_bare (blocks : List Block)
    : tokens (blocks.map Block.bare) = tokens blocks := by
  rw [tokens, List.flatMap_map]
  rfl

theorem Part.exists_of_bare {blocks : List Block} {parts : List Part}
    (same : blocks.map Block.bare = parts.map fun part => part.block.bare)
    : ∃ parts' : List Part,
        parts'.map Part.block = blocks ∧ parts'.map Part.bare = parts.map Part.bare := by
  induction parts generalizing blocks with
  | nil =>
      obtain rfl := List.map_eq_nil_iff.mp same
      exact ⟨[], rfl, rfl⟩
  | cons part parts ih =>
      obtain ⟨block, others, rfl, here, later⟩ := List.map_eq_cons_iff.mp same
      obtain ⟨parts', rfl, same'⟩ := ih later
      refine ⟨⟨block, part.essence⟩ :: parts', rfl, ?_⟩
      rw [List.map_cons, List.map_cons, same', Part.bare, Part.bare, here]

/-- What counts of parts hangs on how they are read only. -/
theorem Part.forall_of_essences (property : Essence → Prop) {parts parts' : List Part}
    (same : parts'.map Part.essence = parts.map Part.essence)
    (all : ∀ part ∈ parts, property part.essence)
    : ∀ part ∈ parts', property part.essence := by
  intro part listed
  have inside : part.essence ∈ parts.map Part.essence := same ▸ List.mem_map_of_mem listed
  obtain ⟨part', listed', essence⟩ := List.mem_map.mp inside
  exact essence ▸ all part' listed'

/-- What counts of parts does not hang on their places. -/
theorem Part.forall_of_bare (property : Essence → Prop) {parts parts' : List Part}
    (same : parts'.map Part.bare = parts.map Part.bare)
    (all : ∀ part ∈ parts, property part.essence)
    : ∀ part ∈ parts', property part.essence := by
  refine forall_of_essences property ?_ all
  have essences := congrArg (List.map Part.essence) same
  rwa [List.map_map, List.map_map] at essences

/-- Blocks with the pieces of a file are the blocks of a file that differs in places only. -/
theorem Sheet.exists_of_bare {sheet : Sheet} {blocks : List Block}
    (same : blocks.map Block.bare = sheet.blocks.map Block.bare)
    : ∃ sheet' : Sheet, sheet'.blocks = blocks ∧ sheet'.bare = sheet.bare := by
  obtain ⟨frame?, inside⟩ := sheet
  cases frame? with
  | none =>
      rw [Sheet.blocks, List.map_map] at same
      obtain ⟨parts, rfl, bare⟩ := Part.exists_of_bare same
      exact ⟨⟨none, parts⟩, rfl, by rw [Sheet.bare, Sheet.bare, bare]⟩
  | some frame =>
      simp only [Sheet.blocks, List.map_append, List.map_cons, List.map_map] at same
      obtain ⟨first, rest1, rfl, before, same1⟩ := List.map_eq_append_iff.mp same
      obtain ⟨opening, rest2, rfl, opens, same2⟩ := List.map_eq_cons_iff.mp same1
      obtain ⟨second, rest3, rfl, within, same3⟩ := List.map_eq_append_iff.mp same2
      obtain ⟨closing, third, rfl, closes, after⟩ := List.map_eq_append_iff.mp same3
      obtain ⟨before', rfl, bare1⟩ := Part.exists_of_bare before
      obtain ⟨inside', rfl, bare2⟩ := Part.exists_of_bare within
      obtain ⟨after', rfl, bare3⟩ := Part.exists_of_bare after
      let frame' : Frame :=
        { frame with before := before', opening, closing, after := after' }
      refine ⟨⟨some frame', inside'⟩, rfl, ?_⟩
      simp only [Sheet.bare, Option.map_some, Frame.bare, frame', bare1, bare2, bare3, opens, closes]

namespace Parser

theorem readsAll_map_bare {rest : List Piece} {parts : List Part}
    : ReadsAll rest (parts.map Part.bare) ↔ ReadsAll rest parts := by
  induction parts with
  | nil => exact Iff.rfl
  | cons part parts ih =>
      rw [List.map_cons, ReadsAll, ReadsAll, ih, tokensOf_map_bare]
      exact Iff.rfl

theorem closes_map_bare {blocks : List Block} {braced : Bool}
    : Closes (blocks.map Block.bare) braced ↔ Closes blocks braced := by
  unfold Closes
  cases braced with
  | false => simp
  | true =>
      simp only [if_true]
      constructor
      · rintro ⟨block, mark, same, marked⟩
        obtain ⟨block', rfl, rfl⟩ := List.map_eq_singleton_iff.mp same
        exact ⟨block', mark, rfl, marked⟩
      · rintro ⟨block, mark, rfl, marked⟩
        exact ⟨block.bare, mark, rfl, marked⟩

/-- Whether a file can be read hangs on its pieces only. -/
theorem readable_bare {sheet : Sheet} : Readable sheet.bare ↔ Readable sheet := by
  obtain ⟨frame?, inside⟩ := sheet
  cases frame? with
  | none =>
      constructor
      · rintro ⟨inner, _⟩
        exact ⟨readsAll_map_bare.mp inner, nofun⟩
      · rintro ⟨inner, _⟩
        exact ⟨readsAll_map_bare.mpr inner, nofun⟩
  | some frame =>
      have outer : tokens (frame.closing.map Block.bare) ++ tokensOf (frame.after.map Part.bare)
          = tokens frame.closing ++ tokensOf frame.after := by
        rw [tokens_map_bare, tokensOf_map_bare]
      constructor
      · rintro ⟨inner, around⟩
        obtain ⟨before, after, closes, ended⟩ := around frame.bare rfl
        have inner' : ReadsAll (tokens (frame.closing.map Block.bare)
            ++ tokensOf (frame.after.map Part.bare)) (inside.map Part.bare) := inner
        rw [outer] at inner'
        refine ⟨readsAll_map_bare.mp inner', ?_⟩
        rintro _ ⟨rfl⟩
        refine ⟨?_, readsAll_map_bare.mp after, closes_map_bare.mp closes,
          fun unbraced => List.map_eq_nil_iff.mp (ended unbraced)⟩
        rw [← outer, ← tokensOf_map_bare inside]
        exact readsAll_map_bare.mp before
      · rintro ⟨inner, around⟩
        obtain ⟨before, after, closes, ended⟩ := around frame rfl
        have inner' : ReadsAll (tokens frame.closing ++ tokensOf frame.after) inside := inner
        rw [← outer] at inner'
        refine ⟨readsAll_map_bare.mpr inner', ?_⟩
        rintro _ ⟨rfl⟩
        refine ⟨?_, readsAll_map_bare.mpr after, closes_map_bare.mpr closes,
          fun unbraced => List.map_eq_nil_iff.mpr (ended unbraced)⟩
        rw [← outer, ← tokensOf_map_bare inside] at before
        exact readsAll_map_bare.mpr before

-----------------------------------------------------------------------------------------
-- Blocks before other tokens
-----------------------------------------------------------------------------------------

theorem readsAll_append {rest : List Piece} {left right : List Part}
    : ReadsAll rest (left ++ right)
      ↔ ReadsAll (tokensOf right ++ rest) left ∧ ReadsAll rest right := by
  induction left with
  | nil => exact (true_and _).symm.to_iff
  | cons part left ih =>
      rw [List.cons_append, ReadsAll, ReadsAll, ih, tokensOf_append, List.append_assoc, and_assoc]

/-- Blocks are read the same before tokens that end a statement the same way. -/
theorem ReadsAll.near {count : Nat} {rest rest' : List Piece} {parts : List Part}
    (reads : ReadsAll rest parts) (near : NearPieces count rest rest')
    : ReadsAll rest' parts := by
  induction parts with
  | nil => exact trivial
  | cons part parts ih =>
      obtain ⟨here, later⟩ := reads
      refine ⟨here.near (.append (alike_refl _) (.append (alike_refl _) near)) ?_ rfl, ih later⟩
      omega

/-- No statement looks beyond the keyword of an import or of a namespace. -/
theorem nearPieces_of_keyword {keyword left right : Text} (listed : keyword ∈ Lexeme.quietKeywords)
    (spelled : Text.sameFolded left keyword = true)
    (spelled' : Text.sameFolded right keyword = true) (rest rest' : List Piece)
    : NearPieces 0 ((.name, left) :: rest) ((.name, right) :: rest') := by
  refine .border (.inl ⟨keyword, listed, ?_, ?_⟩)
  · simpa [Lexeme.ofPiece, Token.isKeyword] using spelled
  · simpa [Lexeme.ofPiece, Token.isKeyword] using spelled'

/-- Tokens that start with the keyword of an import. -/
def StartsImport (tokens : List Piece) : Prop :=
  ∃ keyword rest, tokens = (.name, keyword) :: rest ∧ Text.sameFolded keyword "use" = true

theorem StartsImport.append {tokens : List Piece} (starts : StartsImport tokens)
    (rest : List Piece)
    : StartsImport (tokens ++ rest) := by
  obtain ⟨keyword, others, rfl, spelled⟩ := starts
  exact ⟨keyword, others ++ rest, rfl, spelled⟩

theorem StartsImport.near {left right : List Piece} (starts : StartsImport left)
    (starts' : StartsImport right)
    : NearPieces 0 left right := by
  obtain ⟨keyword, rest, rfl, spelled⟩ := starts
  obtain ⟨keyword', rest', rfl, spelled'⟩ := starts'
  exact nearPieces_of_keyword (by simp [Lexeme.quietKeywords]) spelled spelled' rest rest'

/-- A block that is read as an import starts with its keyword. -/
theorem Reads.startsImport {block rest : List Piece} {essence : Essence}
    (reads : Reads block rest essence) (imports : essence.2.1.isSome = true)
    : StartsImport block := by
  have ahead := cursorBefore_ahead (block ++ rest)
  obtain ⟨_, kind, stop, ran, _, rfl⟩ := reads ahead
  obtain ⟨declaration, rfl⟩ : ∃ declaration, kind = .importing declaration := by
    cases kind with
    | importing declaration => exact ⟨declaration, rfl⟩
    | _ => cases imports
  have keyword := atUse_of_stmtKind ran
  obtain ⟨first, others, rfl⟩ := List.exists_cons_of_ne_nil (List.length_pos_iff.mp reads.length_pos)
  obtain ⟨token, next, kind, text, _⟩ := token?_of_piece ahead
  rw [Cursor.atKeyword, Cursor.isKeyword, next] at keyword
  simp only [Option.any_some, List.any_cons, List.any_nil, Bool.or_false] at keyword
  obtain ⟨named, spelled⟩ := Bool.and_eq_true_iff.mp keyword
  obtain ⟨kind', text'⟩ := first
  obtain rfl : kind' = .name := kind.symm.trans (eq_of_beq named)
  rw [text] at spelled
  exact ⟨text', others, rfl, spelled⟩

-----------------------------------------------------------------------------------------
-- Other imports
-----------------------------------------------------------------------------------------

/-- A printed import. -/
def partOf (declaration : Import) : Part :=
  ⟨⟨importPieces declaration, []⟩, (false, some declaration.reread, [])⟩

/-- A printed import, with its names as they are read back. -/
def respelledPart (declaration : Import) : Part :=
  ⟨⟨importPieces declaration, []⟩, (false, some declaration.respelled, [])⟩

/-- An import that is printed and read back. -/
def Returns (declaration : Import) : Prop :=
  declaration.isPrintable = true ∧ declaration.IsShaped

theorem readsAll_imports {declarations : List Import}
    (all : ∀ declaration ∈ declarations, Returns declaration) (rest : List Piece)
    : ReadsAll rest (declarations.map partOf) := by
  induction declarations with
  | nil => exact trivial
  | cons declaration declarations ih =>
      obtain ⟨printable, shaped⟩ := all declaration List.mem_cons_self
      exact ⟨reads_importPieces printable shaped _,
        ih fun other listed => all other (List.mem_cons_of_mem _ listed)⟩

theorem startsImport_partOf (declaration : Import)
    : StartsImport (solids (partOf declaration).block.pieces) :=
  ⟨"use", _, rfl, rfl⟩

/-- The tokens behind an import scope. -/
def outer (frame? : Option Frame) : List Piece :=
  frame?.elim [] fun frame => tokens frame.closing ++ tokensOf frame.after

/-- A file can be read with other imports, if the blocks before them can be read before those. -/
theorem Readable.redraft {frame? : Option Frame} {front old back : List Part}
    {declarations : List Import} {name? : Frame → Option Name} {opening : Frame → List Piece}
    (readable : Readable ⟨frame?, front ++ (old ++ back)⟩)
    (all : ∀ declaration ∈ declarations, Returns declaration)
    (seam
      : ReadsAll (tokensOf (declarations.map partOf) ++ (tokensOf back ++ outer frame?)) front)
    (starts : ∀ frame ∈ frame?, StartsSpace frame.opening.pieces)
    (starts' : ∀ frame ∈ frame?, StartsSpace (opening frame))
    : Readable
        ⟨frame?.map fun frame => frame.reopened (name? frame) (opening frame),
          front ++ (declarations.map partOf ++ back)⟩ := by
  have inner := (readsAll_append.mp (readsAll_append.mp readable.inside).2).2
  have inside : ReadsAll (outer frame?) (front ++ (declarations.map partOf ++ back)) := by
    refine readsAll_append.mpr ⟨?_, readsAll_append.mpr ⟨readsAll_imports all _, inner⟩⟩
    rwa [tokensOf_append, List.append_assoc]
  cases frame? with
  | none => exact ⟨inside, nofun⟩
  | some frame =>
      refine ⟨inside, ?_⟩
      rintro _ ⟨rfl⟩
      obtain ⟨before, after, closes, ended⟩ := readable.around frame rfl
      obtain ⟨keyword, rest, same, spelled⟩ := (starts frame rfl).keyword
      obtain ⟨keyword', rest', same', spelled'⟩ := (starts' frame rfl).keyword
      refine ⟨before.near (show NearPieces 0 _ (solids (opening frame) ++ _) from ?_), after, closes,
        ended⟩
      rw [same, same']
      exact nearPieces_of_keyword (by simp [Lexeme.quietKeywords]) spelled spelled' _ _

end Parser

end ImportHeader
