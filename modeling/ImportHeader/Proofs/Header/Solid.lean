import ImportHeader.Proofs.Header.Opening
import ImportHeader.Proofs.Header.Rows
import ImportHeader.Proofs.Parser.Redraft
import ImportHeader.Proofs.Parser.Whole
import ImportHeader.Proofs.Token.Ends

/-! The blocks of a source that leaves no heredoc open, and a string only at its end. Each of them is
the same block wherever it stands before white space, but for the last one: a close tag or an open
string at the end of the source goes on over all that is put behind it.
-/

namespace ImportHeader

open ImportHeader.Lexer ImportHeader.Parser

/-- A block that is the same on its own and before all white space, and does not end with a line
feed.
-/
structure IsSolid (pieces : List Piece) : Prop where
  isBlock : IsBlock pieces
  alone : Stands pieces []
  isFirm : Row.IsFirm pieces
  ends : ∃ c, (joined pieces).getLast? = some c ∧ c ≠ '\n'

/-- A file whose blocks can be read. -/
structure Sheet.IsDrawable (sheet : Sheet) : Prop where
  readable : Readable sheet
  opens : ∀ frame ∈ sheet.frame?, Opens frame.opening.pieces frame.name? frame.braced

/-- A block does not end between a close tag and an open tag. -/
def IsApart (block rest : List Piece) : Prop :=
  ∀ last ∈ block.getLast?, last.1 = .closeTag → ∀ next ∈ rest.head?, next.1 ≠ .openTag

/-- No block ends between a close tag and an open tag. -/
def AreApart : List Block → Prop
  | [] => True
  | block :: later => IsApart (solids block.pieces) (tokens later) ∧ AreApart later

/-- Where code starts again there is an open tag. -/
theorem exists_openTag {rest : List Piece} (cuts : cut (joined rest) = rest)
    (opens : opensCode (joined rest) = true)
    : ∃ tag others, rest = (.openTag, tag) :: others := by
  obtain ⟨tag, isTag, more, same⟩ := opensCode_iff.mp opens
  have stands : cut (tag ++ more) = (.openTag, tag) :: cut more := by
    simpa [Stands] using stands_of_isOpenTag isTag more
  rw [← same, stands] at cuts
  exact ⟨tag, _, cuts.symm⟩

/-- Pieces the last of which runs on. -/
def RunsOn (pieces : List Piece) : Prop :=
  ∃ last ∈ pieces.getLast?, last.RunsOn

theorem runsOn_concat {pieces : List Piece} {last : Piece}
    : RunsOn (pieces ++ [last]) ↔ last.RunsOn := by
  simp [RunsOn]

/-- A solid block does not run on. -/
theorem IsSolid.stays {pieces : List Piece} (solid : IsSolid pieces) : ¬RunsOn pieces := by
  obtain ⟨init, ⟨kind, start⟩, rfl, _⟩ := solid.isBlock.2
  rw [runsOn_concat]
  have stands := (solid.isFirm ' ' [] rfl fun _ => endsNoComment_nil).suffix
  obtain ⟨d, body, rfl⟩ := List.exists_cons_of_ne_nil (stands.ne_nil _ List.mem_cons_self)
  have ends : munch d (body ++ [' ']) = (kind, body.length) := by
    simpa using (stands_cons.mp stands).1
  rintro (rfl | ⟨rfl, opens⟩)
  · rcases opensCode_of_closeTag ends with none | opens
    · cases none
    · cases opens
  · have taken := quotedLength_of_open opens ends
    have left := drop_quotedLength_of_open d (body ++ [' ']) (by rw [taken])
    rw [taken, List.drop_left] at left
    simp at left

/-- Behind a block that runs on there is nothing. -/
theorem eq_nil_of_runsOn {block rest : List Piece}
    (cuts : cut (joined (block ++ rest)) = block ++ rest) (isBlock : IsBlock block)
    (sound : IsSound (block ++ rest)) (runsOn : RunsOn block)
    (apart : IsApart (solids block) (solids rest))
    : rest = [] := by
  obtain ⟨init, ⟨kind, start⟩, rfl, solid⟩ := isBlock.2
  have behind : cut (joined rest) = rest := cut_of_append cuts
  have final := (stands_of_cut cuts).suffix
  obtain ⟨d, body, rfl⟩ := List.exists_cons_of_ne_nil (final.ne_nil _ List.mem_cons_self)
  rcases runsOn_concat.mp runsOn with rfl | unclosed
  · have ends : munch d (body ++ joined rest) = (.closeTag, body.length) := by
      simpa using (stands_cons.mp final).1
    rcases opensCode_of_closeTag ends with none | opens
    · rw [none, cut_nil] at behind
      exact behind.symm
    · obtain ⟨tag, others, rfl⟩ := exists_openTag behind opens
      refine absurd rfl (apart (.closeTag, d :: body) ?_ rfl (.openTag, tag) rfl)
      rw [Cursor.solids_concat solid]
      simp
  · rw [List.append_assoc] at sound
    have whole : Stands (init ++ ((kind, d :: body) :: rest)) (joined []) :=
      stands_of_cut (cuts.trans (by simp))
    exact sound.suffix.eq_nil whole.suffix unclosed

/-- A sound block that does not run on is solid. -/
theorem isSolid_of_stands {block : List Piece} {text : Text} (stands : Stands block text)
    (isBlock : IsBlock block) (sound : IsSound block) (stays : ¬RunsOn block)
    : IsSolid block := by
  obtain ⟨init, ⟨kind, start⟩, rfl, solid⟩ := isBlock.2
  rw [runsOn_concat, Piece.RunsOn, not_or] at stays
  obtain ⟨other, closed⟩ := stays
  obtain ⟨d, body, rfl⟩ := List.exists_cons_of_ne_nil (stands.ne_nil (kind, start) (by simp))
  have ends : munch d (body ++ text) = (kind, body.length) := by
    simpa using (stands_cons.mp stands.suffix).1
  have shut : d = '<' ∨ opensString d = true → kind ≠ .error := by
    rintro (rfl | opens) rfl
    · exact (sound (.error, '<' :: body) (by simp)).1 ⟨rfl, rfl⟩
    · exact closed ⟨rfl, opens⟩
  have isLast {piece : Piece} (last : piece ∈ (init ++ [(kind, d :: body)]).getLast?)
      : (kind, d :: body) = piece := by
    simpa using last
  have halts (mild : Text) : ∀ piece ∈ (init ++ [(kind, d :: body)]).getLast?,
      Halts piece.1 text mild := by
    intro piece last
    obtain rfl := isLast last
    cases kind with
    | whitespace => cases solid
    | lineComment => cases solid
    | closeTag => exact absurd rfl other
    | _ => exact True.intro
  have ended : ∀ piece ∈ (init ++ [(kind, d :: body)]).getLast?,
      ¬piece.LacksEnd opensString := fun piece last => isLast last ▸ closed
  refine ⟨isBlock, ?_, fun e tail space lasts => ?_, ?_⟩
  · exact stands.stable sound (milder_nil _) (fun _ => endsNoComment_nil) (halts _) ended
  · refine stands.stable sound (milder_space _ space _) (fun opens => ?_) (halts _) ended
    exact endsNoComment_space space (lasts opens)
  have last := getLast?_of_munch solid other shut ends
  refine ⟨(d :: body).getLast (List.cons_ne_nil _ _), ?_, fun same => last ?_⟩
  · rw [joined_append, joined_cons, joined_nil, List.append_nil,
      List.getLast?_append_of_ne_nil _ (List.cons_ne_nil _ _), List.getLast?_eq_some_getLast]
  · rw [List.getLast?_eq_some_getLast (List.cons_ne_nil _ _), same]

/-- A sound block of a source. If it runs on, nothing stands behind it. -/
structure Lexer.Block.IsFixed (block : Block) : Prop where
  isBlock : IsBlock block.pieces
  sound : IsSound block.pieces
  stands : Stands block.pieces block.behind
  last : RunsOn block.pieces → block.behind = []

/-- The blocks of a sound source are fixed, and none but the last runs on. -/
theorem isFixed_of_spells {pieces : List Piece} {blocks : List Block}
    (cuts : cut (joined pieces) = pieces) (spells : Spells pieces blocks)
    (sound : IsSound pieces) (apart : AreApart blocks)
    : (∀ block ∈ blocks, block.IsFixed)
      ∧ blocks.Pairwise fun block _ => ¬RunsOn block.pieces := by
  induction spells with
  | gap => exact ⟨nofun, .nil⟩
  | @block gap block rest blocks isGap isBlock later ih =>
      have split : cut (joined (gap ++ block ++ rest)) = gap ++ (block ++ rest) := by
        rw [cuts, List.append_assoc]
      have here : cut (joined (block ++ rest)) = block ++ rest := cut_of_append split
      have whole : Stands (block ++ rest) (joined []) :=
        stands_of_cut (by rw [here, List.append_nil])
      have sound' : IsSound (gap ++ (block ++ rest)) := by rwa [← List.append_assoc]
      have ended (runsOn : RunsOn block) : rest = [] := by
        refine eq_nil_of_runsOn here isBlock sound'.suffix runsOn ?_
        rw [later.solids_eq]
        exact apart.1
      obtain ⟨fixed, stays⟩ := ih (cut_of_append cuts) sound.suffix apart.2
      refine ⟨fun other listed => ?_, .cons (fun other listed runsOn => ?_) stays⟩
      · rcases List.mem_cons.mp listed with rfl | further
        · exact ⟨isBlock, sound'.within whole, stands_of_cut here,
            fun runsOn => by rw [ended runsOn]; rfl⟩
        · exact fixed other further
      · rw [ended runsOn] at later
        rw [later.eq_nil] at listed
        cases listed

theorem Lexer.Block.IsFixed.isSolid {block : Block} (fixed : block.IsFixed)
    (stays : ¬RunsOn block.pieces)
    : IsSolid block.pieces :=
  isSolid_of_stands fixed.stands fixed.isBlock fixed.sound stays

theorem areApart_parts {parts : List Part} {later : List Block}
    (reads : ReadsAll (tokens later) parts) (apart : AreApart later)
    : AreApart (parts.map Part.block ++ later) := by
  induction parts with
  | nil => exact apart
  | cons part parts ih =>
      refine ⟨?_, ih reads.2⟩
      change IsApart _ (tokens (parts.map Part.block ++ later))
      rw [tokens_append, tokens_map_block]
      exact reads.1.sealed

theorem areApart_closing {closing later : List Block} {braced : Bool}
    (closes : Closes closing braced) (apart : AreApart later)
    : AreApart (closing ++ later) := by
  unfold Closes at closes
  split at closes
  · obtain ⟨block, mark, rfl, marked⟩ := closes
    refine ⟨fun last isLast close => ?_, apart⟩
    rw [marked] at isLast
    obtain rfl : (.rightBrace, mark) = last := Option.some.inj isLast
    cases close
  · rw [closes]
    exact apart

/-- No block of a file that can be read ends between a close tag and an open tag. -/
theorem areApart_of_readable {sheet : Sheet} (readable : Readable sheet)
    (starts : ∀ frame ∈ sheet.frame?, StartsSpace frame.opening.pieces)
    : AreApart sheet.blocks := by
  obtain ⟨frame?, inside⟩ := sheet
  cases frame? with
  | none =>
      have all : AreApart (inside.map Part.block ++ []) := areApart_parts readable.inside trivial
      rwa [List.append_nil] at all
  | some frame =>
      obtain ⟨before, after, closes, _⟩ := readable.around frame rfl
      have outside : AreApart (frame.after.map Part.block ++ []) := areApart_parts after trivial
      rw [List.append_nil] at outside
      have within
          : AreApart (inside.map Part.block ++ (frame.closing ++ frame.after.map Part.block)) := by
        refine areApart_parts ?_ (areApart_closing closes outside)
        rw [tokens_append, tokens_map_block]
        exact readable.inside
      refine areApart_parts ?_ ⟨?_, within⟩
      · simpa only [tokens_cons, tokens_append, tokens_map_block] using before
      · intro last isLast close
        have ends := (starts frame rfl).ends last isLast
        simp [close] at ends

theorem getLast?_importPieces (declaration : Import)
    : (joined (importPieces declaration)).getLast? = some ';' := by
  rw [importPieces, ← List.append_assoc, ← List.cons_append, ← List.cons_append, joined_append]
  exact List.getLast?_concat

theorem stays_importPieces (declaration : Import) : ¬RunsOn (importPieces declaration) := by
  rw [importPieces, ← List.append_assoc, ← List.cons_append, ← List.cons_append, runsOn_concat]
  decide

/-- An import that is printed as one block. -/
def Prints (declaration : Import) : Prop :=
  declaration.isSpelled = true ∧ declaration.IsShaped

theorem Parser.Returns.prints {declaration : Import} (returns : Returns declaration)
    : Prints declaration :=
  ⟨(printable_import returns.1).1, returns.2⟩

theorem isSolid_importPieces {declaration : Import} (prints : Prints declaration)
    : IsSolid (importPieces declaration) := by
  obtain ⟨spelled, shaped⟩ := prints
  have stands := stands_importPieces spelled fun none => (shaped.listed none).1
  exact ⟨isBlock_importPieces declaration, stands _, fun c rest _ _ => stands _,
    ';', getLast?_importPieces declaration, by decide⟩

theorem getLast?_openingPieces (name? : Option Name) (braced : Bool)
    : (joined (openingPieces name? braced)).getLast? = some (if braced then '{' else ';') := by
  rw [openingPieces, ← List.append_assoc, ← List.cons_append, joined_append]
  cases braced with
  | true => exact List.getLast?_concat
  | false => exact List.getLast?_concat

theorem stays_openingPieces (name? : Option Name) (braced : Bool)
    : ¬RunsOn (openingPieces name? braced) := by
  rw [openingPieces, ← List.append_assoc, ← List.cons_append, runsOn_concat]
  cases braced with
  | true => decide
  | false => decide

theorem isSolid_openingPieces {name? : Option Name} (braced : Bool)
    (spelled : ∀ name ∈ name?, name.isSpelled = true)
    : IsSolid (openingPieces name? braced) := by
  have stands := stands_openingPieces braced spelled
  refine ⟨isBlock_openingPieces name? braced, stands _, fun c rest _ _ => stands _, _,
    getLast?_openingPieces name? braced, ?_⟩
  cases braced with
  | true => decide
  | false => decide

end ImportHeader
