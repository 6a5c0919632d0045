import ImportHeader.Header.Region
import ImportHeader.Proofs.Header.Solid
import ImportHeader.Proofs.Pairing
import ImportHeader.Proofs.Text.Cuts

/-! Where the header of a file ends among the blocks of its source. -/

namespace ImportHeader

open ImportHeader.Lexer ImportHeader.Parser

/-- The blocks of a file through the upper part of its import scope. -/
def Sheet.head (frame? : Option Frame) (upper : List Part) : List Block :=
  (frame?.elim [] fun frame => frame.before.map Part.block ++ [frame.opening])
    ++ upper.map Part.block

/-- The blocks of a file from the lower part of its import scope on. -/
def Sheet.foot (frame? : Option Frame) (lower : List Part) : List Block :=
  lower.map Part.block
    ++ frame?.elim [] fun frame => frame.closing ++ frame.after.map Part.block

theorem Sheet.blocks_append (frame? : Option Frame) (upper lower : List Part)
    : (⟨frame?, upper ++ lower⟩ : Sheet).blocks
      = Sheet.head frame? upper ++ Sheet.foot frame? lower := by
  cases frame? with
  | none => simp [Sheet.blocks, Sheet.head, Sheet.foot]
  | some frame => simp [Sheet.blocks, Sheet.head, Sheet.foot]

namespace Lexer

/-- What stands behind the last of some blocks at the start of code. -/
def behindAll (code : Text) (blocks : List Block) : Text :=
  blocks.getLast?.elim code Block.behind

theorem behindAll_cons (code : Text) (block : Block) (blocks : List Block)
    : behindAll code (block :: blocks) = behindAll block.behind blocks := by
  unfold behindAll
  rw [List.getLast?_cons]
  cases blocks.getLast? with
  | none => rfl
  | some last => rfl

theorem behindAll_concat (code : Text) (blocks : List Block) (block : Block)
    : behindAll code (blocks ++ [block]) = block.behind := by
  rw [behindAll, List.getLast?_concat]
  rfl

/-- The first block of a code, and the code behind it. -/
theorem Lays.uncons {code : Text} {block : Block} {blocks : List Block}
    (lays : Lays code (block :: blocks))
    : block.behind <:+ code ∧ Lays block.behind blocks := by
  unfold Lays at lays
  generalize cuts : cut code = pieces at lays
  cases lays with
  | @block gap pieces rest _ isGap isBlock later =>
      refine ⟨⟨joined (gap ++ pieces), ?_⟩, ?_⟩
      · rw [← joined_append, ← cuts, joined_cut]
      · unfold Lays
        rwa [cut_of_append cuts]

/-- The blocks behind others are those of the code behind these. -/
theorem Lays.behindAll {code : Text} {front later : List Block} (lays : Lays code (front ++ later))
    : behindAll code front <:+ code ∧ Lays (behindAll code front) later := by
  induction front generalizing code with
  | nil => exact ⟨List.suffix_refl _, lays⟩
  | cons block front ih =>
      obtain ⟨shorter, behind⟩ := Lays.uncons lays
      obtain ⟨shorter', behind'⟩ := ih behind
      rw [behindAll_cons]
      exact ⟨shorter'.trans shorter, behind'⟩

/-- Each block stands before what is behind all. -/
theorem Lays.behindAll_suffix {code : Text} {front later : List Block}
    (lays : Lays code (front ++ later)) {block : Block} (listed : block ∈ front)
    : Lexer.behindAll code front <:+ block.behind := by
  induction front generalizing code with
  | nil => cases listed
  | cons first front ih =>
      have behind := (Lays.uncons lays).2
      rw [behindAll_cons]
      rcases List.mem_cons.mp listed with rfl | later
      · exact behind.behindAll.1
      · exact ih behind later

end Lexer

/-- The line of the last character before a text at the end of a source. -/
def Text.lineBefore (source behind : Text) : Nat :=
  source.count '\n' - behind.count '\n'

@[simp] theorem Text.lineBefore_append (front behind : Text)
    : Text.lineBefore (front ++ behind) behind = front.count '\n' := by
  rw [Text.lineBefore, List.count_append, Nat.add_sub_cancel]

theorem Text.lineBefore_le {source behind behind' : Text} (shorter : behind' <:+ behind)
    : Text.lineBefore source behind ≤ Text.lineBefore source behind' := by
  have fewer := shorter.sublist.count_le '\n'
  unfold Text.lineBefore
  omega

/-- A source with its file and its blocks. -/
structure Drawn (source markup tag code : Text) (sheet : Sheet) (file : SourceFile) : Prop where
  coded : Coded source markup tag code
  lays : Lays code sheet.blocks
  describes : Describes source sheet file.items
  tagged : ∃ comment?, file.openTag? = some ⟨tag, ⟨markup.size, (markup ++ tag).size⟩, comment?⟩
  lines : file.lines = LineIndex.ofText source

/-- The end of a header before a given text. -/
def regionBefore (source behind : Text) (trailing? : Option Text) : HeaderRegion :=
  ⟨Text.lineBefore source behind, source.size - behind.size, trailing?⟩

-----------------------------------------------------------------------------------------
-- Statements and their parts
-----------------------------------------------------------------------------------------

/-- Parts without an import among them. -/
def NoImports (parts : List Part) : Prop :=
  ∀ part ∈ parts, part.essence.2.1.isSome = false

section

variable {source : Text} {part : Part} {parts : List Part} {found : Stmt} {stmts : List Stmt}

theorem isImport_of_isPart (isPart : IsPart source part found)
    : found.isImport = part.essence.2.1.isSome := by
  rw [← isPart.essence_eq, Stmt.isImport, Stmt.declaration?]
  cases found.kind <;> rfl

theorem import_of_isPart (isPart : IsPart source part found)
    : part.essence.2.1 = found.declaration?.map Import.unplaced := by
  rw [← isPart.essence_eq, Stmt.declaration?]
  cases found.kind <;> rfl

theorem isDeclare_of_isPart (isPart : IsPart source part found)
    : found.isDeclare = part.essence.1 := by
  rw [← isPart.essence_eq, Stmt.isDeclare]
  cases found.kind <;> rfl

theorem noImport_of_parts (pairs : List.Forall₂ (IsPart source) parts stmts)
    (plain : NoImports parts)
    : ∀ stmt ∈ stmts, stmt.isImport = false := by
  induction pairs with
  | nil => nofun
  | cons here _ ih =>
      intro stmt listed
      rcases List.mem_cons.mp listed with rfl | later
      · exact (isImport_of_isPart here).trans (plain _ List.mem_cons_self)
      · exact ih (fun part listed => plain part (List.mem_cons_of_mem _ listed)) stmt later

theorem takeWhile_isDeclare (pairs : List.Forall₂ (IsPart source) parts stmts)
    : List.Forall₂ (IsPart source) (parts.takeWhile fun part => part.essence.1)
        (stmts.takeWhile Stmt.isDeclare) := by
  induction pairs with
  | nil => exact .nil
  | @cons part stmt parts stmts here _ ih =>
      have same := isDeclare_of_isPart here
      rw [List.takeWhile_cons, List.takeWhile_cons, same]
      split
      · exact .cons here ih
      · exact .nil

end

namespace Parser.Describes

variable {source : Text} {sheet : Sheet} {file : SourceFile}

/-- The statements of the import scope are read from its blocks. -/
theorem scope (describes : Describes source sheet file.items)
    : List.Forall₂ (IsPart source) sheet.inside file.importScope := by
  generalize items : file.items = found at describes
  unfold SourceFile.importScope SourceFile.firstNamespace?
  rw [items]
  cases describes with
  | @flat inside found isParts =>
      have none : (found.map Item.plain).findSome? Item.space? = none := by
        simp [List.findSome?_eq_none_iff, Item.space?]
      rw [none]
      simpa [List.filterMap_map, Function.comp_def, Item.stmt?] using isParts
  | @framed frame inside before space after earlier spaced later =>
      have none : (before.map Item.plain).findSome? Item.space? = none := by
        simp [List.findSome?_eq_none_iff, Item.space?]
      rw [List.findSome?_append, none]
      exact spaced.stmts

/-- A file with a namespace has it at the place of its opening. -/
theorem space {frame : Frame} (describes : Describes source sheet file.items)
    (framed : sheet.frame? = some frame)
    : ∃ space, file.firstNamespace? = some space
        ∧ SpaceAt source frame.opening frame.name? frame.braced sheet.inside space := by
  generalize items : file.items = found at describes
  unfold SourceFile.firstNamespace?
  rw [items]
  cases describes with
  | flat isParts => cases framed
  | @framed _ inside before space after earlier spaced later =>
      obtain rfl := Option.some.inj framed
      have none : (before.map Item.plain).findSome? Item.space? = none := by
        simp [List.findSome?_eq_none_iff, Item.space?]
      refine ⟨space, ?_, spaced⟩
      rw [List.findSome?_append, none]
      rfl

/-- A file without a namespace is its import scope. -/
theorem flat_eq (describes : Describes source sheet file.items) (flat : sheet.frame? = none)
    : file.firstNamespace? = none
      ∧ file.items.filterMap Item.stmt? = file.importScope := by
  have none : file.firstNamespace? = none := by
    generalize items : file.items = found at describes
    unfold SourceFile.firstNamespace?
    rw [items]
    cases describes with
    | flat isParts => simp [List.findSome?_eq_none_iff, Item.space?]
    | framed earlier spaced later => cases flat
  refine ⟨none, ?_⟩
  unfold SourceFile.importScope
  rw [none]

end Parser.Describes

-----------------------------------------------------------------------------------------
-- The end of the header
-----------------------------------------------------------------------------------------

namespace Drawn

variable {source markup tag code : Text} {sheet : Sheet} {file : SourceFile}

/-- The header that ends with a part of a source. -/
theorem regionAfter_eq {front middle behind : Text} {trailing? : Option Text}
    (lines : file.lines = LineIndex.ofText source) (whole : source = front ++ middle ++ behind)
    (ends : ∃ c, middle.getLast? = some c ∧ c ≠ '\n')
    : file.regionAfter ⟨front.size, front.size + middle.size⟩ trailing?
      = regionBefore source behind trailing? := by
  obtain ⟨c, last, other⟩ := ends
  have line : (LineIndex.ofText (front ++ middle ++ behind)).endLine
      ⟨front.size, front.size + middle.size⟩ = (front ++ middle).count '\n' :=
    LineIndex.endLine_of_append last other
  rw [SourceFile.regionAfter, regionBefore, lines, whole, line, Text.lineBefore_append,
    Text.size_append, Text.size_append, Nat.add_sub_cancel]

theorem regionAfterStmt?_eq {part : Part} {found : Stmt}
    (lines : file.lines = LineIndex.ofText source) (isPart : IsPart source part found)
    (solid : IsSolid part.block.pieces)
    : file.regionAfterStmt? found
      = some (regionBefore source part.block.behind found.trailing?) := by
  obtain ⟨front, whole, placed⟩ := isPart.placed
  rw [SourceFile.regionAfterStmt?, placed, Option.map_some, regionAfter_eq lines whole solid.ends]

theorem lastImport?_eq_none (drawn : Drawn source markup tag code sheet file)
    (plain : NoImports sheet.inside)
    : file.lastImport? = none := by
  refine List.find?_eq_none.mpr fun stmt listed => ?_
  have none := noImport_of_parts drawn.describes.scope plain stmt (List.mem_reverse.mp listed)
  simp [none]

/-- A file with imports: its header ends with the last of them. -/
theorem region_of_import {frame? : Option Frame} {upper back : List Part} {last : Part}
    (drawn : Drawn source markup tag code ⟨frame?, upper ++ ([last] ++ back)⟩ file)
    (solid : IsSolid last.block.pieces) (isImport : last.essence.2.1.isSome = true)
    (plain : NoImports back)
    : ∃ trailing?,
        file.headerRegion? = some (regionBefore source last.block.behind trailing?) := by
  obtain ⟨first, others, scope, _, pairs⟩ := Pairing.split drawn.describes.scope
  obtain ⟨single, rest, rfl, here, later⟩ := Pairing.split pairs
  cases here with
  | @cons _ found _ _ isPart none =>
      cases none
      have found? : file.lastImport? = some found := by
        have place : found.span?.isSome = true := by
          obtain ⟨front, _, placed⟩ := isPart.placed
          rw [placed]
          rfl
        have skipped : rest.reverse.find? (fun stmt => stmt.isImport && stmt.span?.isSome)
            = none := by
          refine List.find?_eq_none.mpr fun stmt listed => ?_
          simp [noImport_of_parts later plain stmt (List.mem_reverse.mp listed)]
        rw [SourceFile.lastImport?, scope, List.reverse_append, List.reverse_append,
          List.find?_append, List.find?_append, skipped]
        simp [isImport_of_isPart isPart, isImport, place]
      obtain ⟨comment?, tagged⟩ := drawn.tagged
      refine ⟨found.trailing?, ?_⟩
      simp only [SourceFile.headerRegion?, tagged, Option.bind_eq_bind, Option.bind_some, found?,
        regionAfterStmt?_eq drawn.lines isPart solid]

/-- A file with a namespace and no imports: its header ends with the opening of the namespace. -/
theorem region_of_opening {frame : Frame} {inside : List Part}
    (drawn : Drawn source markup tag code ⟨some frame, inside⟩ file)
    (solid : IsSolid frame.opening.pieces) (plain : NoImports inside)
    : ∃ trailing?,
        file.headerRegion? = some (regionBefore source frame.opening.behind trailing?) := by
  obtain ⟨space, first, spaced⟩ := drawn.describes.space rfl
  obtain ⟨comment?, tagged⟩ := drawn.tagged
  obtain ⟨front, whole, placed⟩ := spaced.placed
  refine ⟨space.headerComment?, ?_⟩
  simp only [SourceFile.headerRegion?, tagged, Option.bind_eq_bind, Option.bind_some,
    drawn.lastImport?_eq_none plain, first, placed, Option.pure_def,
    regionAfter_eq drawn.lines whole solid.ends]

/-- A file without a namespace and imports: its header ends with its leading directives, or with
the open tag.
-/
theorem region_of_declares {inside : List Part}
    (drawn : Drawn source markup tag code ⟨none, inside⟩ file)
    (solid : ∀ part ∈ inside.takeWhile fun part => part.essence.1, IsSolid part.block.pieces)
    (plain : NoImports inside)
    : ∃ trailing?,
        file.headerRegion?
        = some (regionBefore source
            (behindAll code ((inside.takeWhile fun part => part.essence.1).map Part.block))
            trailing?) := by
  obtain ⟨comment?, tagged⟩ := drawn.tagged
  obtain ⟨flat, all⟩ := drawn.describes.flat_eq rfl
  have pairs := takeWhile_isDeclare drawn.describes.scope
  have declares : file.lastDeclare? = (file.importScope.takeWhile Stmt.isDeclare).getLast? := by
    rw [SourceFile.lastDeclare?, all]
  generalize inside.takeWhile (fun part => part.essence.1) = parts at pairs solid ⊢
  generalize file.importScope.takeWhile Stmt.isDeclare = stmts at pairs declares
  rcases List.eq_nil_or_concat parts with rfl | ⟨earlier, part, rfl⟩
  · cases pairs
    refine ⟨comment?, ?_⟩
    have ends : ∃ c, tag.getLast? = some c ∧ c ≠ '\n' := by
      rcases drawn.coded.isTag with rfl | ⟨word, folded, rfl⟩
      · exact ⟨'=', rfl, by decide⟩
      · have some : word ≠ [] := by
          rintro rfl
          cases folded
        refine ⟨word.getLast some, ?_, fun line => ?_⟩
        · rw [List.getLast?_cons_cons, List.getLast?_cons, List.getLast?_eq_some_getLast some]
          rfl
        · have listed := List.getLast_mem some
          rw [line] at listed
          exact not_mem_of_isOpenTag (.inr ⟨word, folded, rfl⟩)
            (List.mem_cons_of_mem _ (List.mem_cons_of_mem _ listed))
    have region : file.regionAfter ⟨markup.size, (markup ++ tag).size⟩ comment?
        = regionBefore source code comment? := by
      rw [Text.size_append]
      exact regionAfter_eq drawn.lines drawn.coded.whole ends
    simp only [SourceFile.headerRegion?, tagged, Option.bind_eq_bind, Option.bind_some,
      drawn.lastImport?_eq_none plain, flat, declares, List.getLast?_nil, Option.pure_def, region]
    rfl
  · rw [List.concat_eq_append] at pairs solid ⊢
    obtain ⟨first, second, rfl, _, pairs'⟩ := Pairing.split pairs
    cases pairs' with
    | @cons _ found _ _ isPart none =>
        cases none
        refine ⟨found.trailing?, ?_⟩
        rw [List.map_append, List.map_singleton, behindAll_concat]
        simp only [SourceFile.headerRegion?, tagged, Option.bind_eq_bind, Option.bind_some,
          drawn.lastImport?_eq_none plain, flat, declares, List.getLast?_concat,
          regionAfterStmt?_eq drawn.lines isPart (solid part (by simp))]

end Drawn

end ImportHeader
