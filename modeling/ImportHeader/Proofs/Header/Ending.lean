import ImportHeader.Header.Edit
import ImportHeader.Proofs.Header.Bounds

/-! The header of a file ends with its imports, and without imports with what stands before their
place. The line on which a printed header ends is found accordingly.
-/

namespace ImportHeader

open ImportHeader.Lexer ImportHeader.Parser

/-- Parts before the place of imports in a file that has none: nothing in a namespace, and else
directives.
-/
def IsTop (frame? : Option Frame) (front : List Part) : Prop :=
  match frame? with
  | some _ => front = []
  | none => ∀ part ∈ front, part.essence.1 = true

/-- Without imports the directives at the start of a file end where the parts behind the place of
imports start.
-/
def EndsTop (frame? : Option Frame) (front middle back : List Part) : Prop :=
  frame? = none → middle = [] → (∀ part ∈ front, part.essence.1 = true)
  → ∀ part ∈ back.head?, part.essence.1 = false

/-- The directives at the start do not go beyond the place of imports. -/
theorem takeWhile_of_endsTop {front back : List Part} (ends : EndsTop none front [] back)
    : ∃ rest,
        front = (front ++ back).takeWhile (fun part => part.essence.1) ++ rest
        ∧ ((∀ part ∈ front, part.essence.1 = true) → rest = []) := by
  by_cases all : ∀ part ∈ front, part.essence.1 = true
  · refine ⟨[], ?_, fun _ => rfl⟩
    have stops : back.takeWhile (fun part => part.essence.1) = [] := by
      cases back with
      | nil => rfl
      | cons part back =>
          have other := ends rfl rfl all part rfl
          rw [List.takeWhile_cons_of_neg (by simp [other])]
    rw [List.takeWhile_append_of_pos all, stops, List.append_nil, List.append_nil]
  · refine ⟨front.dropWhile fun part => part.essence.1, ?_, fun every => absurd every all⟩
    have short : (front.takeWhile fun part => part.essence.1).length ≠ front.length := by
      intro same
      refine all fun part listed => ?_
      rw [← (List.takeWhile_prefix _).eq_of_length same] at listed
      exact List.mem_takeWhile_imp (p := fun part : Part => part.essence.1) listed
    rw [List.takeWhile_append, if_neg short, List.takeWhile_append_dropWhile]

namespace Lexer

/-- More blocks are followed by less. -/
theorem Lays.behindAll_append {code : Text} {front middle later : List Block}
    (lays : Lays code (front ++ middle ++ later))
    : Lexer.behindAll code (front ++ middle) <:+ Lexer.behindAll code front := by
  rw [List.append_assoc] at lays
  have behind := (Lays.behindAll lays).2
  have same : Lexer.behindAll code (front ++ middle)
      = Lexer.behindAll (Lexer.behindAll code front) middle := by
    unfold Lexer.behindAll
    rw [List.getLast?_append]
    cases middle.getLast? with
    | none => rfl
    | some last => rfl
  rw [same]
  exact behind.behindAll.1

end Lexer

namespace Drawn

variable {source markup tag code : Text} {file : SourceFile} {frame? : Option Frame}
  {front middle back : List Part}

/-- Where the header of a file ends that has imports, or nothing before their place but what
belongs to a header.
-/
theorem region_of_head
    (drawn : Drawn source markup tag code ⟨frame?, front ++ (middle ++ back)⟩ file)
    (solid : ∀ block ∈ Sheet.head frame? (front ++ middle), IsSolid block.pieces)
    (imports : ∀ part ∈ middle, part.essence.2.1.isSome = true) (plain : NoImports front)
    (plain' : NoImports back) (top : middle = [] → IsTop frame? front)
    (ends : EndsTop frame? front middle back)
    : ∃ trailing?,
        file.headerRegion?
        = some (regionBefore source (behindAll code (Sheet.head frame? (front ++ middle)))
            trailing?) := by
  rcases List.eq_nil_or_concat middle with rfl | ⟨earlier, last, rfl⟩
  · have top := top rfl
    rw [List.append_nil]
    have plain : NoImports (front ++ ([] ++ back)) := by
      intro part listed
      rcases List.mem_append.mp listed with here | here
      · exact plain part here
      · exact plain' part here
    cases frame? with
    | some frame =>
        obtain rfl : front = [] := top
        have head : Sheet.head (some frame) [] = frame.before.map Part.block ++ [frame.opening] :=
          List.append_nil _
        rw [head, behindAll_concat]
        exact drawn.region_of_opening (solid _ (by simp [Sheet.head])) plain
    | none =>
        have head : Sheet.head none front = front.map Part.block := rfl
        obtain ⟨rest, whole, final⟩ := takeWhile_of_endsTop ends
        obtain rfl := final top
        rw [List.append_nil] at whole
        have region := drawn.region_of_declares (fun part listed => solid _ ?_) plain
        · rwa [List.nil_append, ← whole, ← head] at region
        · rw [List.append_nil, head, whole]
          exact List.mem_map_of_mem listed
  · rw [List.concat_eq_append] at drawn imports ⊢
    have head : Sheet.head frame? (front ++ (earlier ++ [last]))
        = Sheet.head frame? (front ++ earlier) ++ [last.block] := by
      simp [Sheet.head]
    rw [head, behindAll_concat]
    rw [List.append_assoc, ← List.append_assoc front] at drawn
    exact drawn.region_of_import (solid last.block (by simp [Sheet.head])) (imports last (by simp))
      plain'

/-- The header does not end behind the place of imports. -/
theorem line_le_of_head
    (drawn : Drawn source markup tag code ⟨frame?, front ++ (middle ++ back)⟩ file)
    (solid : ∀ block ∈ Sheet.head frame? (front ++ middle), IsSolid block.pieces)
    (imports : ∀ part ∈ middle, part.essence.2.1.isSome = true) (plain : NoImports front)
    (plain' : NoImports back) (ends : EndsTop frame? front middle back)
    : ∃ region, file.headerRegion? = some region
        ∧ region.line
          ≤ Text.lineBefore source (behindAll code (Sheet.head frame? (front ++ middle))) := by
  by_cases top : middle = [] → IsTop frame? front
  · obtain ⟨trailing?, region⟩ := drawn.region_of_head solid imports plain plain' top ends
    exact ⟨_, region, Nat.le_refl _⟩
  -- Without imports the header ends with a block before their place.
  obtain ⟨rfl, _⟩ := Classical.not_imp.mp top
  have lays := drawn.lays
  rw [List.nil_append] at drawn
  rw [List.nil_append, Sheet.blocks_append] at lays
  have plain : NoImports (front ++ back) := by
    intro part listed
    rcases List.mem_append.mp listed with here | here
    · exact plain part here
    · exact plain' part here
  rw [List.append_nil] at solid ⊢
  cases frame? with
  | some frame =>
      obtain ⟨trailing?, region⟩ :=
        drawn.region_of_opening (solid _ (by simp [Sheet.head])) plain
      refine ⟨_, region, Text.lineBefore_le (Lays.behindAll_suffix lays ?_)⟩
      simp [Sheet.head]
  | none =>
      obtain ⟨rest, whole, _⟩ := takeWhile_of_endsTop ends
      have among : ∀ part ∈ (front ++ back).takeWhile (fun part => part.essence.1), part ∈ front :=
        fun part listed => whole ▸ List.mem_append_left rest listed
      obtain ⟨trailing?, region⟩ := drawn.region_of_declares
        (fun part listed => solid _ (List.mem_map_of_mem (among part listed))) plain
      refine ⟨_, region, Text.lineBefore_le ?_⟩
      have head : Sheet.head none front = ((front ++ back).takeWhile fun part => part.essence.1).map
          Part.block ++ rest.map Part.block := by
        rw [← List.map_append, ← whole]
        rfl
      rw [head] at lays ⊢
      exact Lays.behindAll_append lays

/-- The line of the last statement before the place of imports. -/
theorem line_of_front {earlier : List Part} {last : Part} {later : List Part}
    (drawn : Drawn source markup tag code ⟨frame?, (earlier ++ [last]) ++ later⟩ file)
    (solid : IsSolid last.block.pieces)
    : ∃ span, file.importScope[earlier.length]?.bind Stmt.span? = some span
        ∧ file.lines.endLine span = Text.lineBefore source last.block.behind := by
  obtain ⟨first, others, scope, pairs, _⟩ := Pairing.split drawn.describes.scope
  obtain ⟨stmts, single, rfl, pairs1, pairs2⟩ := Pairing.split pairs
  cases pairs2 with
  | @cons _ found _ _ isPart none =>
      cases none
      have region := regionAfterStmt?_eq drawn.lines isPart solid
      obtain ⟨span, placed, same⟩ := Option.map_eq_some_iff.mp region
      refine ⟨span, ?_, congrArg HeaderRegion.line same⟩
      rw [scope, pairs1.length_eq, List.append_assoc, List.getElem?_append_right (Nat.le_refl _),
        Nat.sub_self]
      exact placed

/-- The line on which a printed header ends is that of its last block. -/
theorem printedEnd_eq {edit : Edit}
    (drawn : Drawn source markup tag code ⟨frame?, front ++ (middle ++ back)⟩ file)
    (solid : ∀ block ∈ Sheet.head frame? (front ++ middle), IsSolid block.pieces)
    (imports : ∀ part ∈ middle, part.essence.2.1.isSome = true) (plain : NoImports front)
    (plain' : NoImports back) (ends : EndsTop frame? front middle back)
    (counted : edit.preceding = front.length ∨ edit.preceding = 0 ∧ IsTop frame? front)
    : edit.printedEnd file
      = Text.lineBefore source (behindAll code (Sheet.head frame? (front ++ middle))) := by
  have ofTop (none : edit.preceding = 0) (top : middle = [] → IsTop frame? front)
      : edit.printedEnd file
        = Text.lineBefore source (behindAll code (Sheet.head frame? (front ++ middle))) := by
    obtain ⟨trailing?, region⟩ := drawn.region_of_head solid imports plain plain' top ends
    rw [Edit.printedEnd, none, region]
    rfl
  rcases counted with counted | ⟨none, top⟩
  · rcases List.eq_nil_or_concat front with rfl | ⟨earlier, last, rfl⟩
    · refine ofTop counted fun _ => ?_
      cases frame? with
      | some frame => exact rfl
      | none => exact nofun
    · rw [List.concat_eq_append] at *
      obtain ⟨region, header, within⟩ := drawn.line_le_of_head solid imports plain plain' ends
      obtain ⟨span, found, line⟩ := drawn.line_of_front (solid _ (by simp [Sheet.head]))
      rw [List.length_append, List.length_singleton] at counted
      have lays := drawn.lays
      rw [← List.append_assoc, Sheet.blocks_append] at lays
      have before : Text.lineBefore source last.block.behind
          ≤ Text.lineBefore source
            (behindAll code (Sheet.head frame? (earlier ++ [last] ++ middle))) := by
        refine Text.lineBefore_le (Lays.behindAll_suffix lays ?_)
        simp [Sheet.head]
      simp only [Edit.printedEnd, counted, found, header, line]
      change max _ region.line = _
      rcases List.eq_nil_or_concat middle with rfl | ⟨others, final, rfl⟩
      · -- The header ends with the last statement before the place of imports.
        have head : Sheet.head frame? (earlier ++ [last] ++ [])
            = Sheet.head frame? earlier ++ [last.block] := by
          simp [Sheet.head]
        rw [head, behindAll_concat] at within ⊢
        exact Nat.max_eq_left within
      · have some : others.concat final ≠ [] := by simp
        obtain ⟨trailing?, same⟩ := drawn.region_of_head solid imports plain plain'
          (fun none => absurd none some) ends
        obtain rfl := Option.some.inj (header.symm.trans same)
        exact Nat.max_eq_right before
  · exact ofTop none fun _ => top

end Drawn

end ImportHeader
