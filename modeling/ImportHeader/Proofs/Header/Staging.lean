import ImportHeader.Proofs.Header.Parting

/-! A source under edit with other imports in their place. Its blocks can be printed around these, and
the print is read back block by block.
-/

namespace ImportHeader

open ImportHeader.Lexer ImportHeader.Parser

/-- The blocks of a source under edit in which no heredoc is left open, and a string only at the end.
-/
structure Staged (source : Text) (file : SourceFile) (edit : Edit) (markup tag code : Text)
    (frame? : Option Frame) (front old back : List Part) : Prop
    extends Parted source file edit markup tag code frame? front old back where
  sound : IsSound ((tokenize source).map Token.piece)

/-- The blocks of a source under edit whose header leaves nothing open. -/
structure Shut (source : Text) (file : SourceFile) (edit : Edit) (markup tag code : Text)
    (frame? : Option Frame) (front old back : List Part) : Prop
    extends Staged source file edit markup tag code frame? front old back where
  closed : ∀ part ∈ frame?.elim [] Frame.before ++ front, ∀ piece ∈ part.block.pieces, piece.IsClosed

variable {source markup tag code : Text} {file : SourceFile} {edit : Edit}
  {frame? : Option Frame} {front old back : List Part}

/-- The tokens before the imports end with those of the last statement there. -/
theorem Parted.exists_last (parted : Parted source file edit markup tag code frame? front old back)
    (alone : ∀ part ∈ front, Stands part.block.pieces [])
    : front = []
      ∨ ∃ stmt ∈ edit.before.getLast?, ∃ earlier,
          tokensOf front = earlier ++ solids (cut stmt.text) := by
  have pairs := parted.isFront
  rcases List.eq_nil_or_concat front with none | ⟨earlier, last, rfl⟩
  · exact .inl none
  rw [List.concat_eq_append] at pairs alone ⊢
  obtain ⟨before, behind, same, _, final⟩ := Pairing.split pairs
  cases final with
  | @cons _ stmt _ _ isPart none =>
      cases none
      have pieces : cut stmt.text = last.block.pieces := by
        rw [isPart.text_eq]
        simpa [Stands] using alone last (by simp)
      refine .inr ⟨stmt, by rw [same, List.getLast?_concat]; rfl, tokensOf earlier, ?_⟩
      rw [tokensOf_append, tokensOf_cons, tokensOf_nil, List.append_nil, pieces]

/-- If the last statement before the imports ends with a semicolon, its block does. -/
theorem Parted.endsClosed (parted : Parted source file edit markup tag code frame? front old back)
    (alone : ∀ part ∈ front, Stands part.block.pieces [])
    (closed : ∀ stmt ∈ edit.before.getLast?, EndsClosed (cut stmt.text))
    : front = [] ∨ EndsClosed (tokensOf front) := by
  refine (parted.exists_last alone).imp_right ?_
  rintro ⟨stmt, last, earlier, tokens⟩
  exact tokens ▸ (closed stmt last).solids.append _

namespace Staged

/-- The blocks of the source are fixed, and none but the last runs on. -/
theorem isFixed (staged : Staged source file edit markup tag code frame? front old back)
    : (∀ block ∈ (⟨frame?, front ++ (old ++ back)⟩ : Sheet).blocks, block.IsFixed)
      ∧ (⟨frame?, front ++ (old ++ back)⟩ : Sheet).blocks.Pairwise fun block _ =>
          ¬RunsOn block.pieces := by
  have sound := staged.sound
  rw [staged.coded.tokenize_eq, List.map_append, List.map_cons, map_piece_place] at sound
  exact isFixed_of_spells (by rw [joined_cut]) staged.lays sound.suffix.tail staged.apart

theorem isFixed_inside (staged : Staged source file edit markup tag code frame? front old back)
    {part : Part} (listed : part ∈ front ++ (old ++ back))
    : part.block.IsFixed :=
  staged.isFixed.1 part.block (Sheet.mem_blocks_inside listed)

/-- Where a block leaves a comment open, none ends behind it. -/
theorem isHushed (staged : Staged source file edit markup tag code frame? front old back)
    : ∀ block ∈ (⟨frame?, front ++ (old ++ back)⟩ : Sheet).blocks, block.IsHushed :=
  fun block listed opens => (staged.isFixed.1 block listed).stands.endsNoComment opens

/-- No comment ends behind a statement that leaves one open. -/
theorem endsNoComment_behind (staged : Staged source file edit markup tag code frame? front old back)
    {part : Part} {stmt : Stmt} (isPart : IsPart source part stmt)
    (listed : part.block ∈ (⟨frame?, front ++ (old ++ back)⟩ : Sheet).blocks) (opens : stmt.Opens)
    : EndsNoComment part.block.behind := by
  refine staged.isHushed _ listed ?_
  have alone := (staged.isFixed.1 _ listed).alone
  have cuts : cut stmt.text = part.block.pieces := by
    rw [isPart.text_eq]
    simpa [Stands] using alone
  exact cuts ▸ opens.2

/-- Behind a comment that a statement of the source leaves open no comment ends. -/
theorem areHushed (staged : Staged source file edit markup tag code frame? front old back)
    {opening : OpenTag} (parsed : parse source = .ok file) (tagged : file.openTag? = some opening)
    : Item.AreHushed file.items := by
  obtain ⟨later, inside⟩ := leads_of_parse parsed tagged
  have behind {item : Item} (listed : item ∈ file.items) {stmt : Stmt} (among : stmt ∈ item.stmts)
      {next : Item} (leads : stmt.Leads source next)
      : stmt.Hushes next := by
    intro opens
    obtain ⟨part, here, isPart⟩ := staged.describes.exists_part listed among
    obtain ⟨front', whole, placed⟩ := isPart.placed
    refine (leads _ placed).imp fun comment within => ?_
    rw [whole, ← Text.size_append, Text.dropBytes_append] at within
    exact (staged.endsNoComment_behind isPart here opens).within within
  refine ⟨fun item listed => ⟨fun stmt among opens comment given => ?_, ?_⟩, ?_⟩
  · obtain ⟨part, here, isPart⟩ := staged.describes.exists_part listed among
    exact (staged.endsNoComment_behind isPart here opens).within (isPart.trailing comment given)
  · exact (inside item listed).imp_of_mem fun among _ leads => behind listed among leads
  · exact later.imp_of_mem fun listed _ leads stmt among => behind listed among (leads stmt among)

/-- The blocks behind the header, as they are printed. Only the last can run on. -/
theorem reprints_foot (staged : Staged source file edit markup tag code frame? front old back)
    (after
      : ∀ frame ∈ frame?, ∀ part ∈ frame.after, ∀ declaration ∈ part.essence.2.1,
          Rereads declaration)
    : (∀ pieces ∈ (Sheet.foot (frame?.map Frame.reprinted) back).map Block.pieces,
        IsSolid pieces ∨ IsFinal pieces)
      ∧ (((Sheet.foot (frame?.map Frame.reprinted) back).map Block.pieces).Pairwise fun pieces _ =>
          ¬RunsOn pieces)
      ∧ ((Sheet.foot (frame?.map Frame.reprinted) back).map Block.pieces).Pairwise
          fun pieces other => OpensComment pieces → EndsNoComment (joined other) := by
  obtain ⟨fixed, stays⟩ := staged.isFixed
  have hushed := staged.isHushed
  have ordered := Spells.pairwise staged.lays
  rw [← List.append_assoc, Sheet.blocks_append] at fixed stays hushed ordered
  have redraws : List.Forall₂ Redraws (Sheet.foot frame? back) _ := redraws_foot after
  exact ⟨solid_or_final_of_redraws redraws
      fun block listed => fixed block (List.mem_append_right _ listed),
    pairwise_of_redraws redraws (List.pairwise_append.mp stays).2.1,
    texts_of_redraws redraws (fun block listed => hushed block (List.mem_append_right _ listed))
      (List.pairwise_append.mp ordered).2.1⟩

/-- A statement behind the imports other than a close tag ends no statement before itself. -/
theorem startsFree (staged : Staged source file edit markup tag code frame? front old back)
    {next : Stmt} (first : next ∈ edit.behind.head?) (other : next.text.head? ≠ some '?')
    (rest : List Piece)
    : back ≠ [] ∧ StartsFree (tokensOf back ++ rest) := by
  obtain ⟨behind, same⟩ := List.head?_eq_some_iff.mp (Option.mem_def.mp first)
  have pairs := staged.isBack
  rw [same] at pairs
  cases pairs with
  | @cons part _ back _ isPart _ =>
      have reads := (readsAll_append.mp (readsAll_append.mp staged.readable.inside).2).2
      have fixed : part.block.IsFixed := staged.isFixed_inside (by simp)
      refine ⟨List.cons_ne_nil _ _, ?_⟩
      rw [tokensOf_cons, List.append_assoc]
      refine reads.1.startsFree (fun piece first close => other ?_) _
      rw [isPart.text_eq]
      exact fixed.head?_of_closeTag first close

/-- No control statement goes on with a statement behind the imports that starts with another word,
or with the end of the scope.
-/
theorem joins_nothing (staged : Staged source file edit markup tag code frame? front old back)
    (other
      : ∀ next ∈ edit.behind.head?, ∀ piece ∈ (cut next.text).head?, joinsControl piece = false)
    : ∀ piece ∈ (tokensOf back ++ outer frame?).head?, joinsControl piece = false := by
  intro piece first
  have pairs := staged.isBack
  have fixed {part : Part} (listed : part ∈ back) : part.block.IsFixed :=
    staged.isFixed_inside (by simp [listed])
  generalize edit.behind = behind at pairs other
  cases pairs with
  | nil =>
      refine joinsControl_of_kind ?_
      rw [staged.readable.endsScope piece first]
      decide
  | @cons part next _ _ isPart _ =>
      have isFixed := fixed List.mem_cons_self
      have alone := isFixed.alone
      obtain ⟨⟨start, others, pieces, solid⟩, _⟩ := isFixed.isBlock
      have text : cut next.text = part.block.pieces := by
        rw [isPart.text_eq]
        simpa [Stands] using alone
      refine other next rfl piece ?_
      rw [text]
      rw [tokensOf_cons, List.append_assoc, pieces] at first
      rw [pieces]
      simpa [solids, solid] using first

/-- The blocks of the source with other imports can be read. -/
theorem redraft (staged : Staged source file edit markup tag code frame? front old back)
    {declarations : List Import} (all : ∀ declaration ∈ declarations, Returns declaration)
    (named : ∀ frame ∈ frame?, ∀ name ∈ frame.name?, name.isPrintable = true)
    (seam
      : ReadsAll (tokensOf (declarations.map partOf) ++ (tokensOf back ++ outer frame?)) front)
    : (redrawn frame? front declarations back).IsDrawable := by
  refine ⟨?_, fun frame here => ?_⟩
  · exact staged.readable.redraft all seam (fun frame here => (staged.starts frame here).1)
      fun frame _ => startsSpace_openingPieces frame.name? frame.braced
  · obtain ⟨frame', here', rfl⟩ := Option.map_eq_some_iff.mp here
    exact opens_openingPieces (named frame' here') (staged.starts frame' here').2

end Staged

namespace Shut

/-- The header of the source does not run on: a namespace is opened by a brace or a semicolon, its
imports end with a semicolon, and a directive with no close tag.
-/
theorem isSolid_head (shut : Shut source file edit markup tag code frame? front old back)
    (top : old = [] → IsTop frame? front)
    : ∀ block ∈ Sheet.head frame? (front ++ old), IsSolid block.pieces := by
  obtain ⟨fixed, stays⟩ := shut.isFixed
  have opening : ∀ frame ∈ frame?, ¬RunsOn frame.opening.pieces := by
    rintro frame rfl
    refine stays_of_solids (fixed _ (by simp [Sheet.blocks])).isBlock fun last isLast => ?_
    have ends := (shut.starts frame rfl).1.ends last isLast
    refine Piece.not_runsOn ?_ ?_ <;> rintro same <;> simp [same] at ends
  have final : ∀ last ∈ (front ++ old).getLast?, ¬RunsOn last.block.pieces := by
    intro last isLast
    obtain ⟨init, same⟩ := List.getLast?_eq_some_iff.mp (Option.mem_def.mp isLast)
    have reads : ReadsAll (outer frame?) (init ++ ([last] ++ back)) := by
      have whole := shut.readable.inside
      rwa [← List.append_assoc, same, List.append_assoc] at whole
    have here := (readsAll_append.mp reads).2.1
    have isBlock : IsBlock last.block.pieces := by
      refine (shut.isFixed_inside ?_).isBlock
      rw [← List.append_assoc, same]
      simp
    by_cases none : old = []
    · have top := top none
      rw [none, List.append_nil] at same
      cases frame? with
      | none =>
          have listed : last ∈ front := by simp [same]
          refine stays_of_solids isBlock fun piece isPiece runsOn => ?_
          refine runsOn.elim (here.stays (top last listed) piece isPiece) ?_
          refine (shut.closed last listed piece ?_).not_lacksEnd opensText_of_opensString
          exact (List.filter_sublist.subset (List.mem_of_getLast? isPiece))
      | some frame =>
          obtain rfl : front = [] := top
          simp at same
    · rw [Option.mem_def, List.getLast?_append_of_ne_nil _ none] at isLast
      refine stays_of_solids isBlock fun piece isPiece => ?_
      have ends := here.ends_of_import (shut.imports last (List.mem_of_getLast? isLast)) piece isPiece
      exact Piece.not_runsOn (by simp [ends]) (by simp [ends])
  rw [← List.append_assoc, Sheet.blocks_append] at fixed stays
  intro block listed
  refine (fixed block (List.mem_append_left _ listed)).isSolid ?_
  refine stays_of_getLast? (List.pairwise_map.mpr (List.pairwise_append.mp stays).1)
    (stays_head opening final) block.pieces (List.mem_map_of_mem listed)

/-- The blocks behind the header of the source are those of its body. -/
theorem lays_body (shut : Shut source file edit markup tag code frame? front old back)
    {given : SourceFile} {region : HeaderRegion} (top : old = [] → IsTop frame? front)
    (ends : EndsTop frame? front old back) (header : file.headerRegion? = some region)
    (noted : ∀ comment ∈ region.trailing?, Row.IsNote comment ∧ '\n' ∉ comment)
    (lines : given.lines = file.lines) (checked : given.checkHeaderLine source region = .ok ())
    (plain
      : ∀ c ∈ (file.restOfLine source region).margins ++ source.blankBehind region.line,
          isSpace c = true)
    : Lays (source.bodyBehind region.line) (Sheet.foot frame? back) := by
  obtain ⟨trailing?, place⟩ := shut.drawn.region_of_head (shut.isSolid_head top)
    shut.imports shut.plain.1 shut.plain.2 top ends
  have drawn := shut.drawn
  rw [← List.append_assoc] at drawn
  exact drawn.lays_body ⟨trailing?, Option.some.inj (header.symm.trans place)⟩ noted
    (lines.trans drawn.lines) checked plain

/-- What stands before the imports is read the same before other imports, or where there are none
before and after. If it ends with a semicolon, it is read the same before whatever follows, and else
before what is not joined to it.
-/
theorem seam (shut : Shut source file edit markup tag code frame? front old back)
    (top : old = [] → IsTop frame? front) {declarations : List Import}
    (ended
      : (∀ stmt ∈ edit.before.getLast?, EndsClosed (cut stmt.text))
        ∨ (old = []
            → declarations ≠ []
            → ∃ next ∈ edit.behind.head?, next.text.head? ≠ some '?')
          ∧ (old ≠ []
            → declarations = []
            → ∀ next ∈ edit.behind.head?,
                ∀ piece ∈ (cut next.text).head?, joinsControl piece = false))
    : ReadsAll (tokensOf (declarations.map partOf) ++ (tokensOf back ++ outer frame?)) front := by
  have reads : ReadsAll (outer frame?) (front ++ (old ++ back)) := shut.readable.inside
  obtain ⟨before, later⟩ := readsAll_append.mp reads
  have imports := (readsAll_append.mp later).1
  rw [tokensOf_append, List.append_assoc] at before
  have solid : ∀ part ∈ front, IsSolid part.block.pieces := fun part listed =>
    shut.isSolid_head top part.block
      (List.mem_append_right _ (List.mem_map_of_mem (List.mem_append_left _ listed)))
  rcases ended with closed | ⟨added, removed⟩
  · rcases shut.endsClosed (fun part listed => (solid part listed).alone) closed with rfl | ends
    · exact trivial
    · exact before.before ends shut.plain.1 _
  have stays : ∀ last ∈ (tokensOf front).getLast?, last.1 ≠ .closeTag :=
    stays_tokensOf (fun part listed => (solid part listed).isBlock)
      fun last isLast => (solid last (List.mem_of_getLast? isLast)).stays
  cases old with
  | nil =>
      cases declarations with
      | nil => exact before
      | cons declaration declarations =>
          obtain ⟨next, first, other⟩ := added rfl (List.cons_ne_nil _ _)
          refine before.before_other shut.plain.1 (shut.startsFree first other _).2 stays ?_
          rintro _ ⟨rfl⟩
          rfl
  | cons first old =>
      have starts := imports.1.startsImport (shut.imports first List.mem_cons_self)
      rw [tokensOf_cons, List.append_assoc] at before
      cases declarations with
      | nil =>
          obtain ⟨keyword, rest, same, _⟩ := starts.append (tokensOf old ++ (tokensOf back ++ _))
          exact before.before_other shut.plain.1 ⟨_, rest, same, nofun, nofun⟩ stays
            (shut.joins_nothing (removed (List.cons_ne_nil _ _) rfl))
      | cons declaration declarations =>
          have starts' := startsImport_partOf declaration
          rw [List.map_cons, tokensOf_cons, List.append_assoc]
          exact before.near (StartsImport.near (starts.append _) (starts'.append _))

/-- The rows of the edited file hold the blocks of the source around the new imports, and those of its
header fit them.
-/
theorem exists_fitting_rows (shut : Shut source file edit markup tag code frame? front old back)
    {edited : Edit} {opening : OpenTag} {block : List Stmt} (structured : file.checkStructure = .ok ())
    (top : old = [] → IsTop frame? front) (isOn : edited.IsOn file)
    (tagged : file.openTag? = some opening) (tidy : ∀ item ∈ file.items, item.IsTidy)
    (tidy' : ∀ stmt ∈ edited.scope, stmt.IsTidy)
    (framed : edited.Framed edit.before edit.behind block)
    (all : ∀ declaration ∈ edited.imports, Prints declaration)
    (named : ∀ frame ∈ frame?, ∀ name ∈ frame.name?, name.isSpelled = true)
    : ∃ headRows footRows : List Row,
        edited.file.print
        = file.markup?.getD [] ++ opening.text
          ++ (printTrailing opening.comment?
            ++ (Row.printAll id ['\n'] (headRows ++ footRows) ++ ['\n']))
        ∧ List.Forall₂ Row.Fits headRows
            ((Sheet.head (frame?.map Frame.redrawn) (front ++ edited.imports.map partOf)).map
              Block.pieces)
        ∧ (∀ block ∈ Sheet.head (frame?.map Frame.redrawn) (front ++ edited.imports.map partOf),
            IsSolid block.pieces)
        ∧ List.Forall₂ Row.Holds footRows
            ((Sheet.foot (frame?.map Frame.reprinted) back).map Block.pieces)
        ∧ (∀ row ∈ headRows ++ footRows, row.IsTidy)
        ∧ ∃ rows,
            List.Forall₂ Row.AreOf edited.file.items rows ∧ rows.flatten = headRows ++ footRows := by
  obtain ⟨fixed, _⟩ := shut.isFixed
  obtain ⟨headRows, footRows, printed, holdsHead, holdsFoot, tidyRows, areOf⟩ :=
    exists_held_rows shut.describes (fun block listed => ⟨_, (fixed block listed).stands⟩)
      (fun block listed => (fixed block listed).last) isOn tagged tidy tidy' framed
      shut.isFront shut.isBack (shut.leading structured)
      fun frame here => (shut.readable.around frame here).closes
  have solid : ∀ block ∈ Sheet.head (frame?.map Frame.redrawn)
      (front ++ edited.imports.map partOf), IsSolid block.pieces := by
    refine forall_head_redrawn IsSolid
      (fun part listed => shut.isSolid_head top part.block ?_)
      (fun frame here => isSolid_openingPieces frame.braced (named frame here))
      fun declaration listed => isSolid_importPieces (all declaration listed)
    exact Sheet.mem_head listed
  rw [← Sheet.map_pieces_head] at holdsHead
  refine ⟨headRows, footRows, printed, Row.fits_of_holds holdsHead fun pieces listed => ?_, solid,
    holdsFoot, tidyRows, areOf⟩
  obtain ⟨block, here, rfl⟩ := List.mem_map.mp listed
  exact solid block here

/-- The printed header leaves no comment open. -/
theorem quiet_head (shut : Shut source file edit markup tag code frame? front old back)
    {declarations : List Import} (all : ∀ declaration ∈ declarations, Prints declaration)
    (named : ∀ frame ∈ frame?, ∀ name ∈ frame.name?, name.isSpelled = true)
    : ∀ block ∈ Sheet.head (frame?.map Frame.redrawn) (front ++ declarations.map partOf),
        ¬OpensComment block.pieces := by
  refine forall_head_redrawn (¬OpensComment ·) (fun part listed => ?_) (fun frame here => ?_)
    fun declaration listed => ?_
  · rintro ⟨piece, inside, opens⟩
    refine (shut.closed part listed piece inside).not_lacksEnd (fun c slash => ?_) opens
    obtain rfl := eq_of_beq slash
    rfl
  · exact (isPlain_openingPieces frame.braced (named frame here)).starts
  · exact (isPlain_importPieces (all declaration listed)).starts

end Shut

/-- Blocks with other imports can also be read with those outside the namespace as they are printed.
-/
theorem Sheet.IsDrawable.reprinted {frame? : Option Frame} {inside : List Part}
    (drawable : Sheet.IsDrawable ⟨frame?.map Frame.redrawn, inside⟩)
    (after
      : ∀ frame ∈ frame?, ∀ part ∈ frame.after, ∀ declaration ∈ part.essence.2.1,
          Rereads declaration)
    : Sheet.IsDrawable ⟨frame?.map Frame.reprinted, inside⟩ := by
  refine ⟨drawable.readable.reprinted after, fun frame here => ?_⟩
  obtain ⟨origin, found, rfl⟩ := Option.map_eq_some_iff.mp here
  exact drawable.opens origin.redrawn (Option.map_eq_some_iff.mpr ⟨origin, found, rfl⟩)

end ImportHeader
