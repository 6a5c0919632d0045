import ImportHeader.Proofs.Fix.Agreement
import ImportHeader.Proofs.Header.Redrawing
import ImportHeader.Proofs.Header.Rewriting
import ImportHeader.Proofs.Header.Staging
import ImportHeader.Proofs.Parser.Spelling
import ImportHeader.Proofs.Reference.ImportEntries
import Mathlib.Tactic.MkIffOfInductiveProp

/-! The text that an edited file prints parses, so an edit that can start does not fail, and a run
reports no syntax error but those of its source.
-/

namespace ImportHeader

open ImportHeader.Lexer ImportHeader.Parser

/-- When the text that an edited file prints can be read: the source leaves no heredoc open, and a
string only at its end, no name of an import would be taken for the keyword of its kind, and where
the first imports are put in, the directive before them ends with a semicolon or a closing bracket.
-/
@[mk_iff] structure Edit.IsReprintable (source : Text) (edit edited : Edit) : Prop where
  sound : IsSound ((tokenize source).map Token.piece)
  plain
    : ∀ stmt ∈ edited.file.stmts, ∀ declaration ∈ stmt.declaration?,
        declaration.isAmbiguous = false
  ended
    : edit.imports = []
      → edited.imports ≠ []
      → ∀ stmt ∈ edit.before.getLast?,
          EndsClosed (cut stmt.text) ∨ ClosesBracket (cut stmt.text)

instance (tokens : List Piece) : Decidable (ClosesBracket tokens) :=
  inferInstanceAs (Decidable (∃ kind ∈ Cursor.closers, tokens.getLast?.map Prod.fst = some kind))

instance (source : Text) (edit edited : Edit)
    : Decidable (Edit.IsReprintable source edit edited) :=
  decidable_of_iff' _ (Edit.isReprintable_iff source edit edited)

theorem SourceFile.isSpelled_stmts {file : SourceFile} (all : ∀ item ∈ file.items, item.IsSpelled)
    : ∀ stmt ∈ file.stmts, stmt.IsSpelled := by
  intro stmt listed
  obtain ⟨item, here, inside⟩ := List.mem_flatMap.mp listed
  have spelled := all item here
  cases item with
  | plain other =>
      obtain rfl := List.mem_singleton.mp inside
      exact spelled
  | scope space => exact spelled.stmts stmt inside

theorem Stmt.isSpelled_ofImport {name : Name} (spelled : name.isSpelled = true)
    : (Stmt.ofImport name).IsSpelled := by
  rintro declaration ⟨rfl⟩
  simpa [Import.single, Import.isSpelled, ImportItem.isSpelled] using spelled

namespace Parted

variable {source markup tag code : Text} {file : SourceFile} {edit : Edit}
  {frame? : Option Frame} {front old back : List Part}

theorem named (parted : Parted source file edit markup tag code frame? front old back)
    (spelled : ∀ item ∈ file.items, item.IsSpelled)
    : ∀ frame ∈ frame?, ∀ name ∈ frame.name?, name.isSpelled = true := by
  rintro frame rfl name given
  obtain ⟨space, first, spaced⟩ := parted.describes.space rfl
  rw [← spaced.name_eq] at given
  obtain ⟨located, here, rfl⟩ := Option.map_eq_some_iff.mp given
  obtain ⟨item, listed, isSpace⟩ := List.exists_of_findSome?_eq_some first
  have named := spelled item listed
  cases item with
  | plain stmt => cases isSpace
  | scope other =>
      obtain rfl := Option.some.inj isSpace
      exact named.name located here

end Parted

/-- Directives that are the last statements before the first imports. -/
theorem Staged.isReady {source markup tag code : Text} {file : SourceFile} {edit : Edit}
    {frame? : Option Frame} {front old back : List Part} {declarations : List Import}
    (staged : Staged source file edit markup tag code frame? front old back)
    (top : IsTop frame? front)
    (single : ∀ declaration ∈ declarations, ∃ name, declaration = .single name)
    (ended
      : ∀ stmt ∈ edit.before.getLast?, EndsClosed (cut stmt.text) ∨ ClosesBracket (cut stmt.text))
    : IsReady front declarations := by
  refine ⟨?_, single, ?_⟩
  · cases frame? with
    | none => exact top
    | some frame =>
        obtain rfl : front = [] := top
        exact List.forall_mem_nil _
  · refine (staged.exists_last fun part listed =>
      (staged.isFixed_inside (List.mem_append_left _ listed)).alone).imp_right ?_
    rintro ⟨stmt, last, earlier, tokens⟩
    rw [tokens]
    exact (ended stmt last).imp (fun ends => ends.solids.append _) fun ends => ends.solids.append _

/-- A source under edit that can be printed and read back with given imports. -/
structure Refitted (source : Text) (file : SourceFile) (edit : Edit) (markup tag code : Text)
    (frame? : Option Frame) (front old back : List Part) (declarations : List Import) : Prop
    extends Staged source file edit markup tag code frame? front old back where
  named : ∀ frame ∈ frame?, ∀ name ∈ frame.name?, name.isSpelled = true
  rereads : ∀ declaration ∈ declarations, Rereads declaration
  after
    : ∀ frame ∈ frame?, ∀ part ∈ frame.after, ∀ declaration ∈ part.essence.2.1,
        Rereads declaration
  top : old = [] → declarations ≠ [] → IsReady front declarations

namespace Refitted

variable {source markup tag code : Text} {file : SourceFile} {edit : Edit}
  {frame? : Option Frame} {front old back : List Part} {declarations : List Import}

/-- The last statement before imports, old or new, does not run on. -/
theorem stays
    (refitted : Refitted source file edit markup tag code frame? front old back declarations)
    (some : old ≠ [] ∨ declarations ≠ [])
    : ∀ last ∈ front.getLast?, ¬RunsOn last.block.pieces := by
  intro last isLast
  by_cases more : old ++ back = []
  · obtain ⟨none, none'⟩ := List.append_eq_nil_iff.mp more
    obtain ⟨init, rfl⟩ := List.getLast?_eq_some_iff.mp (Option.mem_def.mp isLast)
    have ready := refitted.top none (some.resolve_left (absurd none))
    rintro ⟨piece, final, runsOn⟩
    refine ready.stays piece ?_ runsOn
    rwa [getLast?_tokensOf fun part listed =>
      (refitted.isFixed_inside (List.mem_append_left _ listed)).isBlock,
      List.getLast?_concat, Option.bind_some]
  · have stays := refitted.isFixed.2
    rw [Sheet.blocks_append, List.pairwise_append] at stays
    obtain ⟨part, others, same⟩ := List.exists_cons_of_ne_nil more
    refine stays.2.2 last.block ?_ part.block ?_
    · exact List.mem_append_right _ (List.mem_map_of_mem (List.mem_of_getLast? isLast))
    · exact List.mem_append_left _ (List.mem_map_of_mem (same ▸ List.mem_cons_self))

theorem stays_tokens
    (refitted : Refitted source file edit markup tag code frame? front old back declarations)
    (some : old ≠ [] ∨ declarations ≠ [])
    : ∀ last ∈ (tokensOf front).getLast?, last.1 ≠ .closeTag :=
  stays_tokensOf
    (fun _ listed => (refitted.isFixed_inside (List.mem_append_left _ listed)).isBlock)
    (refitted.stays some)

/-- The pieces that are printed. -/
theorem reprints
    (refitted : Refitted source file edit markup tag code frame? front old back declarations)
    {headPieces footPieces : List (List Piece)}
    (isHead : headPieces = (Sheet.head (frame?.map Frame.redrawn) front).map Block.pieces)
    (isFoot : footPieces = (Sheet.foot (frame?.map Frame.reprinted) back).map Block.pieces)
    : (∀ pieces ∈ headPieces ++ declarations.map importPieces ++ footPieces,
        IsSolid pieces ∨ IsFinal pieces)
      ∧ ((headPieces ++ declarations.map importPieces ++ footPieces).Pairwise fun pieces _ =>
          ¬RunsOn pieces)
      ∧ (headPieces ++ declarations.map importPieces ++ footPieces).Pairwise fun pieces other =>
          OpensComment pieces → EndsNoComment (joined other) := by
  obtain ⟨fixed, final⟩ := refitted.isFixed
  have upper : List.Forall₂ Redraws (Sheet.head frame? front) headPieces :=
    isHead ▸ redraws_head refitted.named
  have lower : List.Forall₂ Redraws (Sheet.foot frame? back) footPieces :=
    isFoot ▸ redraws_foot refitted.after
  have redraws := List.rel_append upper lower
  have among : (Sheet.head frame? front ++ Sheet.foot frame? back).Sublist
      (⟨frame?, front ++ (old ++ back)⟩ : Sheet).blocks := by
    rw [Sheet.blocks_append, Sheet.foot, Sheet.foot, List.map_append, List.append_assoc]
    exact .append_left (List.sublist_append_right _ _) _
  have each := solid_or_final_of_redraws redraws
    fun block listed => fixed block (among.subset listed)
  obtain ⟨heads, foots, apart⟩ :=
    List.pairwise_append.mp (pairwise_of_redraws redraws (final.sublist among))
  obtain ⟨heads', foots', apart'⟩ := List.pairwise_append.mp (texts_of_redraws redraws
    (fun block listed => refitted.isHushed block (among.subset listed))
    ((Spells.pairwise refitted.lays).sublist among))
  have printed : ∀ pieces ∈ declarations.map importPieces, IsPlain pieces := by
    intro pieces listed
    obtain ⟨declaration, here, rfl⟩ := List.mem_map.mp listed
    exact isPlain_importPieces (refitted.rereads declaration here).prints
  refine ⟨?_, ?_, ?_⟩
  · intro pieces listed
    simp only [List.mem_append] at listed each
    rcases listed with (here | here) | here
    · exact each pieces (.inl here)
    · exact .inl (printed pieces here).solid
    · exact each pieces (.inr here)
  · refine List.pairwise_append.mpr ⟨List.pairwise_append.mpr ⟨heads, ?_, ?_⟩, foots, ?_⟩
    · exact List.pairwise_map.mpr (List.pairwise_of_forall fun _ _ => stays_importPieces _)
    · intro pieces listed other listed'
      refine stays_of_getLast? heads ?_ pieces listed
      rw [isHead]
      refine stays_head (fun frame here => ?_) (refitted.stays (.inr ?_))
      · obtain ⟨origin, _, rfl⟩ := Option.map_eq_some_iff.mp here
        exact stays_openingPieces _ _
      rintro rfl
      cases listed'
    · intro pieces listed other listed'
      rcases List.mem_append.mp listed with here | here
      · exact apart pieces here other listed'
      · exact (printed pieces here).solid.stays
  · refine List.pairwise_append.mpr ⟨List.pairwise_append.mpr ⟨heads', ?_, ?_⟩, foots', ?_⟩
    · exact List.pairwise_of_forall_mem_list fun pieces listed _ _ opens =>
        absurd opens (printed pieces listed).starts
    · exact fun _ _ other listed _ => (printed other listed).ends
    · intro pieces listed other listed' opens
      rcases List.mem_append.mp listed with here | here
      · exact apart' pieces here other listed' opens
      · exact absurd opens (printed pieces here).starts

end Refitted

/-- A statement around the namespace stays a statement of the file, whatever its import scope holds.
-/
theorem SourceFile.exists_of_mem_outerImports {file : SourceFile} {declaration : Import}
    (listed : declaration ∈ file.outerImports) (shape : Shape file.items) (stmts : List Stmt)
    : ∃ stmt,
        .plain stmt ∈ (file.withImportScope stmts).items
        ∧ stmt.declaration? = some declaration := by
  unfold outerImports at listed
  split at listed
  · cases listed
  rename_i space first
  obtain ⟨stmt, inside, found⟩ := List.mem_filterMap.mp listed
  obtain ⟨item, here, isStmt⟩ := List.mem_filterMap.mp inside
  cases item with
  | scope other => cases isStmt
  | plain other =>
      obtain rfl := Option.some.inj isStmt
      refine ⟨other, ?_, found⟩
      generalize items : file.items = found at shape here
      cases shape with
      | flat found =>
          have none : (found.map Item.plain).findSome? Item.space? = none := by
            simp [List.findSome?_eq_none_iff, Item.space?]
          rw [firstNamespace?, items, none] at first
          cases first
      | framed before space after =>
          rw [withImportScope_framed items]
          simpa using here

section Spelling

variable {source : Text} {file : SourceFile} {edit : Edit} {names : List Name} {opening : OpenTag}
  (parsed : parse source = .ok file) (tagged : file.openTag? = some opening)
  (started : Edit.start file source = .ok edit)
  (spelled : ∀ name ∈ names, name.isSpelled = true) (aliases : List Text)

include parsed tagged started spelled

/-- All names in the import scope of a file under edit can be written. -/
theorem Edit.isSpelled_scope_apply
    : ∀ stmt ∈ (edit.apply names aliases).scope, stmt.IsSpelled := by
  refine Edit.forall_scope_apply started (fun stmt listed => ?_)
    (fun name listed => Stmt.isSpelled_ofImport (spelled name listed)) aliases
  exact SourceFile.isSpelled_stmts (isSpelled_of_parse parsed tagged) stmt
    (file.importScope_sublist.subset listed)

/-- All names in a file under edit can be written. -/
theorem Edit.isSpelled_apply
    : ∀ item ∈ (edit.apply names aliases).file.items, item.IsSpelled :=
  (Edit.isOn_apply started names aliases).isSpelled
    (SourceFile.shape_of_checkStructure (Edit.start_eq_ok started).1)
    (isSpelled_of_parse parsed tagged)
    (Edit.isSpelled_scope_apply parsed tagged started spelled aliases)

end Spelling

/-- The first imports of a file are those of one class each. -/
theorem Edit.exists_single_of_first {source : Text} {file : SourceFile} {edit : Edit}
    (started : Edit.start file source = .ok edit) (none : edit.imports = []) (names : List Name)
    (aliases : List Text)
    : ∀ declaration ∈ (edit.apply names aliases).imports, ∃ name, declaration = .single name := by
  intro declaration listed
  obtain ⟨stmt, here, found⟩ := List.mem_filterMap.mp listed
  have single : ∀ stmt ∈ (edit.apply names aliases).scope, ∀ declaration ∈ stmt.declaration?,
      ∃ name, declaration = .single name := by
    refine Edit.forall_scope_apply started (fun stmt among declaration given => ?_)
      (fun name _ _ given => ⟨name, (Option.some.inj given).symm⟩) aliases
    have own : declaration ∈ edit.imports := by
      refine List.mem_filterMap.mpr ⟨stmt, ?_, given⟩
      rwa [(Edit.start_eq_ok started).2.1]
    simp [none] at own
  exact single stmt here declaration found

/-- The source of an edit can be printed and read back with the imports of the edit. -/
theorem Edit.exists_refitted {source : Text} {file : SourceFile} {edit : Edit} {names : List Name}
    {aliases : List Text} {opening : OpenTag} (parsed : parse source = .ok file)
    (tagged : file.openTag? = some opening) (started : Edit.start file source = .ok edit)
    (spelled : ∀ name ∈ names, name.isSpelled = true)
    (reprintable : Edit.IsReprintable source edit (edit.apply names aliases))
    : ∃ code frame? front old back,
        Refitted source file edit (file.markup?.getD []) opening.text code frame? front old back
          (edit.apply names aliases).imports := by
  obtain ⟨noted, tidy⟩ := isTidy_of_parse parsed tagged
  have written := isSpelled_of_parse parsed tagged
  have isOn := Edit.isOn_apply started names aliases
  have tidy' := Edit.isTidy_apply started tidy names aliases
  have spelled' := Edit.isSpelled_scope_apply parsed tagged started spelled aliases
  have single (none : edit.imports = []) :=
    Edit.exists_single_of_first started none names aliases
  generalize edit.apply names aliases = edited at *
  obtain ⟨code, frame?, front, old, back, parted⟩ := exists_parted parsed tagged started
  have staged : Staged source file edit (file.markup?.getD []) opening.text code frame? front old
      back := ⟨parted, reprintable.sound⟩
  refine ⟨code, frame?, front, old, back, staged, parted.named written, ?_,
    parted.rereads_after written tidy fun declaration listed => ?_,
    fun none some => staged.isReady ((parted.counted started).2.1 none)
      (single (parted.eq_nil_iff.mp none)) (reprintable.ended (parted.eq_nil_iff.mp none) some)⟩
  · intro declaration listed
    obtain ⟨stmt, here, found⟩ := List.mem_filterMap.mp listed
    exact ⟨⟨spelled' stmt here declaration found, (tidy' stmt here).shaped declaration found⟩,
      reprintable.plain stmt (edited.file.importScope_sublist.subset here) declaration found⟩
  · obtain ⟨stmt, here, found⟩ := SourceFile.exists_of_mem_outerImports listed
      (SourceFile.shape_of_checkStructure (Edit.start_eq_ok started).1) edited.scope
    rw [← isOn.items] at here
    exact reprintable.plain stmt (List.mem_flatMap.mpr ⟨_, here, List.mem_cons_self⟩) declaration
      found

/-- The text that an edited file prints parses. -/
theorem Edit.exists_reparsed {source : Text} {file : SourceFile} {edit : Edit} {names : List Name}
    {aliases : List Text} (parsed : parse source = .ok file) (code : file.hasCode = true)
    (started : Edit.start file source = .ok edit)
    (spelled : ∀ name ∈ names, name.isSpelled = true)
    (reprintable : Edit.IsReprintable source edit (edit.apply names aliases))
    : ∃ again, parse (edit.apply names aliases).file.print = .ok again := by
  obtain ⟨opening, tagged⟩ := Option.isSome_iff_exists.mp code
  obtain ⟨noted, tidy⟩ := isTidy_of_parse parsed tagged
  have isOn := Edit.isOn_apply started names aliases
  have tidy' := Edit.isTidy_apply started tidy names aliases
  obtain ⟨block, framed⟩ := Edit.framed_apply started names aliases
  obtain ⟨code, frame?, front, old, back, refitted⟩ :=
    Edit.exists_refitted parsed tagged started spelled reprintable
  have hushed := Edit.hushed_apply started (refitted.areHushed parsed tagged) names aliases
  have written := Edit.isSpelled_apply parsed tagged started spelled aliases
  generalize edit.apply names aliases = edited at *
  obtain ⟨fixed, _⟩ := refitted.isFixed
  -- The rows of the text hold the blocks, as they are printed.
  obtain ⟨headRows, footRows, printed, holdsHead, holdsFoot, tidyRows, rows, areOf, cut⟩ :=
    exists_held_rows refitted.describes (fun block listed => ⟨_, (fixed block listed).stands⟩)
      (fun block listed => (fixed block listed).last) isOn tagged tidy tidy' framed
      refitted.isFront refitted.isBack (refitted.leading (Edit.start_eq_ok started).1)
      fun frame here => (refitted.readable.around frame here).closes
  obtain ⟨each, stays, texts⟩ := refitted.reprints rfl rfl
  -- Their tokens are those of blocks that can be read.
  obtain ⟨sheet, readable, opens, same⟩ := refitted.readable.exists_reprinted refitted.plain.1
    refitted.imports refitted.rereads refitted.after
    (fun frame here => (refitted.starts frame here).1)
    (fun frame here => ⟨refitted.named frame here, (refitted.starts frame here).2⟩)
    (fun some => refitted.stays_tokens (.inl some)) refitted.top
  rw [printed]
  refine exists_parse_of_rows refitted.coded (fun comment here => (noted comment here).1.1)
    (List.rel_append holdsHead holdsFoot) tidyRows (cut ▸ Row.areHushed_of_items areOf hushed written)
    texts each stays readable opens ?_
  rw [same, List.flatMap_append, List.flatMap_append, List.append_assoc, tokensOf, List.flatMap_map,
    List.flatMap_map, List.flatMap_map, List.flatMap_map]
  rfl

-----------------------------------------------------------------------------------------
-- Edits and runs
-----------------------------------------------------------------------------------------

/-- The check of the header line reads the lines of the source only. -/
theorem SourceFile.checkHeaderLine_congr {file file' : SourceFile} (same : file'.lines = file.lines)
    (source : Text) (region : HeaderRegion)
    : file'.checkHeaderLine source region = file.checkHeaderLine source region := by
  unfold checkHeaderLine behindHeader
  rw [same]

/-- A file with a header has code. -/
theorem SourceFile.hasCode_of_headerRegion? {file : SourceFile}
    (header : file.headerRegion?.isSome = true)
    : file.hasCode = true := by
  unfold hasCode
  cases tagged : file.openTag? with
  | some opening => rfl
  | none =>
      rw [headerRegion?, tagged] at header
      cases header

/-- An edit whose print parses finishes, if its header passes the check. -/
theorem Edit.exists_finish {edit : Edit}
    (checked
      : ∀ region ∈ edit.region?, edit.file.checkHeaderLine edit.source region = .ok ())
    (reparsed : edit.region?.isSome = true → ∃ again, parse edit.file.print = .ok again)
    : ∃ text, edit.finish = .ok text := by
  cases header : edit.region? with
  | none => exact ⟨edit.source, by rw [Edit.finish, header]; rfl⟩
  | some region =>
      obtain ⟨again, parsed⟩ := reparsed (by rw [header]; rfl)
      refine ⟨splice edit.file.print (edit.printedEnd again) edit.source region.line, ?_⟩
      simp only [Edit.finish, header, checked region header, parsed, Except.mapError, bind,
        Except.bind, pure, Except.pure]

/-- An edit that ends with a syntax error prints a text with this error. -/
theorem Edit.parse_of_finish {edit : Edit} {error : ParseError}
    (failed : edit.finish = .error (.parse error))
    : parse edit.file.print = .error error := by
  unfold Edit.finish at failed
  split at failed
  · cases failed
  rename_i region _
  cases checked : edit.file.checkHeaderLine edit.source region with
  | error fault => simp [checked, Except.mapError, bind, Except.bind] at failed
  | ok _ =>
      cases parsed : parse edit.file.print with
      | ok again =>
          simp [checked, parsed, Except.mapError, bind, Except.bind, pure, Except.pure] at failed
      | error found =>
          simp only [checked, parsed, Except.mapError, bind, Except.bind, Except.error.injEq,
            Error.parse.injEq] at failed
          rw [failed]

theorem fixImports_of_unparsed {source : Text} {error : ParseError}
    (parsed : parse source = .error error) (index : SymbolIndex) (config : Config)
    : fixImports source index config = .error (.parse error) := by
  rw [fixImports, parsed]
  rfl

/-- A run that ends with a syntax error finds it in its source, or in the text that it prints. -/
theorem parse_of_fixImports {source : Text} {index : SymbolIndex} {config : Config}
    {error : ParseError} (failed : fixImports source index config = .error (.parse error))
    : parse source = .error error
      ∨ ∃ file edit plan,
          Run source index config file edit plan
          ∧ parse plan.edit.sort.file.print = .error error := by
  cases parsed : parse source with
  | error found =>
      simp only [fixImports, parsed, Except.mapError, bind, Except.bind, Except.error.injEq,
        Error.parse.injEq] at failed
      exact .inl (congrArg Except.error failed)
  | ok file =>
      simp only [fixImports, parsed, Except.mapError, bind, Except.bind] at failed
      split at failed
      · rename_i code
        cases started : Edit.start file source with
        | error fault => simp [started] at failed
        | ok edit =>
            simp only [started] at failed
            refine .inr ⟨file, edit, _, ⟨parsed, code, started, rfl⟩, Edit.parse_of_finish ?_⟩
            unfold Plan.outcome at failed
            split at failed
            · cases failed
            · cases finished : (edit.plan file.extract (file.extract.references
                  (ignoreSet config file file.extract index)) index).edit.sort.finish with
              | ok text => simp [finished, bind, Except.bind, pure, Except.pure] at failed
              | error found =>
                  simp only [finished, bind, Except.bind, Except.error.injEq] at failed
                  rw [failed]
      · cases failed

theorem eq_ok_of_isOk {ε : Type} {result : Except ε Unit} (isOk : result.isOk = true)
    : result = .ok () := by
  cases result with
  | error _ => cases isOk
  | ok _ => rfl

/-- An edit that starts and passes the check of its header line succeeds, and a run fails with a
syntax error only where its source has that error, if what is printed can be read.
-/
theorem edits_reparse (source : Text)
    : (∀ file edit names aliases,
        parse source = .ok file
        → Edit.start file source = .ok edit
        → (∀ region ∈ file.headerRegion?, file.checkHeaderLine source region = .ok ())
        → (∀ name ∈ names, Name.isSpelled name = true)
        → Edit.IsReprintable source edit (edit.apply names aliases)
        → ∃ text, editImports file names aliases source = .ok text)
      ∧ ∀ index config error,
          (∀ file edit plan,
            Run source index config file edit plan
            → (∀ name ∈ plan.added, Name.isSpelled name = true)
              ∧ Edit.IsReprintable source edit plan.edit.sort)
          → fixImports source index config = .error (.parse error)
          → parse source = .error error := by
  refine ⟨?_, ?_⟩
  · intro file edit names aliases parsed started checked spelled reprintable
    obtain ⟨_, _, atSource, atRegion, _⟩ := Edit.start_eq_ok started
    have origin := edit.sameOrigin_apply names aliases
    have isOn := Edit.isOn_apply started names aliases
    obtain ⟨text, finished⟩ : ∃ text, (edit.apply names aliases).finish = .ok text := by
      refine Edit.exists_finish (fun region here => ?_) fun header => ?_
      · rw [origin.region?, atRegion] at here
        rw [origin.source, atSource, SourceFile.checkHeaderLine_congr isOn.lines]
        exact checked region here
      · rw [origin.region?, atRegion] at header
        exact Edit.exists_reparsed parsed (SourceFile.hasCode_of_headerRegion? header) started
          spelled reprintable
    exact ⟨text, by rw [editImports, started]; exact finished⟩
  · intro index config error readable failed
    rcases parse_of_fixImports failed with own | ⟨file, edit, plan, run, misread⟩
    · exact own
    · obtain ⟨spelled, reprintable⟩ := readable file edit plan run
      rw [run.sort_eq_apply] at reprintable misread
      obtain ⟨again, reparsed⟩ :=
        Edit.exists_reparsed run.parsed run.code run.started spelled reprintable
      rw [reparsed] at misread
      cases misread

/-- Names that are keywords are read back where no other name follows them, before a stray character
and a close tag. A run over a source that does not parse fails with the error of the source.
-/
theorem edits_reparse_of_keywords
    : ∃ source file text error,
        source = "<?php\nuse \\function\\as as D, \\const;\n\x01new X ?>\n".toList
        ∧ parse source = .ok file
        ∧ editImports file [] [] source = .ok text
        ∧ text = "<?php\n\nuse function\\as as D, const;\n\n\x01new X ?>\n".toList
        ∧ fixImports "<?php\nuse A B;\n".toList (.ofEntries []) .default = .error (.parse error)
        ∧ parse "<?php\nuse A B;\n".toList = .error error := by
  obtain ⟨file, edit, text, parsed, started, edited, tested⟩ := exists_of_editsWith
    "<?php\nuse \\function\\as as D, \\const;\n\x01new X ?>\n".toList [] []
    (fun file edit text =>
      text == "<?php\n\nuse function\\as as D, const;\n\n\x01new X ?>\n".toList
      && file.headerRegion?.all (fun region => (file.checkHeaderLine
        "<?php\nuse \\function\\as as D, \\const;\n\x01new X ?>\n".toList region).isOk)
      && decide (Edit.IsReprintable
        "<?php\nuse \\function\\as as D, \\const;\n\x01new X ?>\n".toList edit
        (edit.apply [] [])))
    (by decide +kernel)
  simp only [Bool.and_eq_true, beq_iff_eq, decide_eq_true_eq] at tested
  obtain ⟨⟨written, checks⟩, reprintable⟩ := tested
  have checked : ∀ region ∈ file.headerRegion?, file.checkHeaderLine
      "<?php\nuse \\function\\as as D, \\const;\n\x01new X ?>\n".toList region = .ok () := by
    intro region here
    rw [Option.mem_def.mp here, Option.all_some] at checks
    exact eq_ok_of_isOk checks
  obtain ⟨found, again⟩ :=
    (edits_reparse _).1 file edit [] [] parsed started checked nofun reprintable
  obtain rfl := Except.ok.inj (edited.symm.trans again)
  have unread : (parse "<?php\nuse A B;\n".toList).isOk = false := by decide +kernel
  obtain ⟨error, failed⟩ : ∃ error,
      fixImports "<?php\nuse A B;\n".toList (.ofEntries []) .default = .error (.parse error) := by
    cases parsed : parse "<?php\nuse A B;\n".toList with
    | error error => exact ⟨error, fixImports_of_unparsed parsed _ _⟩
    | ok file =>
        rw [parsed] at unread
        cases unread
  have own := (edits_reparse _).2 _ _ error (fun file edit plan run => by
    rw [run.parsed] at unread
    cases unread) failed
  exact ⟨_, file, text, error, rfl, parsed, again, written, failed, own⟩

-----------------------------------------------------------------------------------------
-- Texts that cannot be read
-----------------------------------------------------------------------------------------

/-- An edit of a source that can start fails with a syntax error of the text that it prints. -/
def MisreadsOwn (source : Text) (names : List Name) : Prop :=
  ∃ file error,
    parse source = .ok file
    ∧ file.checkStructure = .ok ()
    ∧ (∀ region ∈ file.headerRegion?, file.checkHeaderLine source region = .ok ())
    ∧ editImports file names [] source = .error (.parse error)

def misreadsOwn (source : Text) (names : List Name) : Bool :=
  match parse source with
  | .error _ => false
  | .ok file =>
      file.checkStructure.isOk
      && file.headerRegion?.all (fun region => (file.checkHeaderLine source region).isOk)
      && match editImports file names [] source with
        | .error (.parse _) => true
        | _ => false

theorem misreadsOwn_of_test {source : Text} {names : List Name}
    (test : misreadsOwn source names = true)
    : MisreadsOwn source names := by
  unfold misreadsOwn at test
  split at test
  · cases test
  rename_i file parsed
  simp only [Bool.and_eq_true] at test
  obtain ⟨⟨structured, lines⟩, fails⟩ := test
  split at fails
  · rename_i error failed
    refine ⟨file, error, parsed, eq_ok_of_isOk structured, fun region here => ?_, failed⟩
    rw [Option.mem_def.mp here, Option.all_some] at lines
    exact eq_ok_of_isOk lines
  · cases fails

/-- Without its backslash the name of a class is taken for the keyword of a kind. -/
theorem edit_misreads_keyword : MisreadsOwn "<?php\nuse \\function as Foo;\n".toList [] :=
  misreadsOwn_of_test (by decide +kernel)

/-- A heredoc that the source leaves open ends at a label which is moved to the start of a line. -/
theorem edit_misreads_open_heredoc : MisreadsOwn "<?php\nuse B;\n($x <<<FOO ); FOO;\n".toList [] :=
  misreadsOwn_of_test (by decide +kernel)

/-- A directive that ends with neither a semicolon nor a closing bracket takes up the import that is
put in behind it.
-/
theorem edit_misreads_open_directive
    : MisreadsOwn "<?php\ndeclare(strict_types=1) function\n?>\n<?php foo();".toList
        [⟨["X".toList], .unqualified⟩] :=
  misreadsOwn_of_test (by decide +kernel)

end ImportHeader
