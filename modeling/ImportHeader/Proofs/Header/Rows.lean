import ImportHeader.Printer
import ImportHeader.Proofs.Token.Comments

/-! The rows of a printed file: each holds one statement, or the opening or closing of a
namespace, with the comments above it and the comment behind it. Rows are laid out the same
whatever line ending they are given.
-/

namespace ImportHeader

open Lexer

/-- One piece of code with its comments, behind an empty line for each of the `gap`. -/
structure Row where
  gap : Nat
  indent : Nat
  comments : List Text
  text : Text
  trailing? : Option Text

/-- Where a comment in a block lacks its end, none ends in the text behind it. -/
def Lexer.Block.IsHushed (block : Block) : Prop :=
  OpensComment block.pieces → EndsNoComment block.behind

namespace Row

def margin (row : Row) : Text :=
  List.replicate row.indent ' '

/-- A row with a given line ending, and its comments as `fit` makes them. -/
def print (fit : Text → Text) (ending : Text) (row : Row) : Text :=
  (List.replicate (row.gap + 1) ending).flatten
    ++ (row.comments.flatMap fun comment => row.margin ++ fit comment ++ ending)
    ++ (row.margin ++ (row.text ++ printTrailing (row.trailing?.map fit)))

def printAll (fit : Text → Text) (ending : Text) (rows : List Row) : Text :=
  rows.flatMap (print fit ending)

/-- Comments as the parser attaches them: whole, and without white space at their end. -/
def IsNote (comment : Text) : Prop :=
  IsComment comment ∧ comment.getLast? ≠ some '\r'

structure IsTidy (row : Row) : Prop where
  comments : ∀ comment ∈ row.comments, IsNote comment
  trailing : ∀ comment ∈ row.trailing?, IsNote comment ∧ '\n' ∉ comment

/-- Pieces that stay what they are before white space, behind which no comment ends if one of them
lacks its end.
-/
def IsFirm (pieces : List Piece) : Prop :=
  ∀ c rest,
    isSpace c = true → (OpensComment pieces → EndsNoComment rest) → Stands pieces (c :: rest)

/-- The pieces of the code in a row. -/
structure Fits (row : Row) (pieces : List Piece) : Prop where
  text_eq : row.text = joined pieces
  isBlock : IsBlock pieces
  isFirm : IsFirm pieces

/-- The blocks of rows before a text. -/
def blocks (fit : Text → Text) (ending tail : Text) : List Row → List (List Piece) → List Block
  | row :: rows, pieces :: others =>
      ⟨pieces, printTrailing (row.trailing?.map fit) ++ (printAll fit ending rows ++ tail)⟩
        :: blocks fit ending tail rows others
  | _, _ => []

/-- Rows of which none leaves a comment open. -/
theorem isHushed_of_quiet {fit : Text → Text} {ending tail : Text} {rows : List Row}
    {all : List (List Piece)} (quiet : ∀ pieces ∈ all, ¬OpensComment pieces)
    : ∀ block ∈ blocks fit ending tail rows all, block.IsHushed := by
  induction rows generalizing all with
  | nil => cases all <;> nofun
  | cons row rows ih =>
      cases all with
      | nil => nofun
      | cons pieces all =>
          intro block listed
          rcases List.mem_cons.mp listed with rfl | further
          · exact fun opens => absurd opens (quiet pieces List.mem_cons_self)
          · exact ih (fun pieces listed => quiet pieces (.tail _ listed)) block further

/-- A text that starts with a line ending. -/
def BreaksLine (text : Text) : Prop :=
  ∃ ending rest, Text.IsEnding ending ∧ text = ending ++ rest

theorem BreaksLine.endsLine {text : Text} (breaks : BreaksLine text) : EndsLine text := by
  obtain ⟨ending, rest, rfl | rfl, rfl⟩ := breaks
  · exact .inr (.inl ⟨rest, rfl⟩)
  · exact .inr (.inr ⟨rest, rfl⟩)

theorem BreaksLine.cons {text : Text} (breaks : BreaksLine text)
    : ∃ c rest, isSpace c = true ∧ text = c :: rest := by
  obtain ⟨ending, rest, rfl | rfl, rfl⟩ := breaks
  · exact ⟨'\n', rest, rfl, rfl⟩
  · exact ⟨'\r', '\n' :: rest, rfl, rfl⟩

/-- The line feed at the end of a printed file. -/
theorem breaksLine_newline : BreaksLine ['\n'] :=
  ⟨['\n'], [], .inl rfl, rfl⟩

theorem lays_newline : Lays ['\n'] [] :=
  (lays_space_iff rfl).mpr (.gap isGap_nil)

variable {fit : Text → Text} {ending tail : Text} {row : Row} {rows : List Row}
  {pieces : List Piece}

theorem isSpace_of_mem_ending (isEnding : Text.IsEnding ending)
    : ∀ c ∈ ending, isSpace c = true := by
  rcases isEnding with rfl | rfl <;> simp [isSpace]

theorem breaksLine_print (isEnding : Text.IsEnding ending) (row : Row) (rest : Text)
    : BreaksLine (row.print fit ending ++ rest) := by
  rw [print, List.replicate_succ, List.flatten_cons]
  simp only [List.append_assoc]
  exact ⟨ending, _, isEnding, rfl⟩

theorem breaksLine_printAll (isEnding : Text.IsEnding ending) (breaks : BreaksLine tail)
    : BreaksLine (printAll fit ending rows ++ tail) := by
  cases rows with
  | nil => exact breaks
  | cons row rows =>
      rw [printAll, List.flatMap_cons, List.append_assoc]
      exact breaksLine_print isEnding row _

theorem lays_comments (isEnding : Text.IsEnding ending) {comments : List Text}
    (all : ∀ comment ∈ comments, IsComment (fit comment)) {margin rest : Text}
    (blank : ∀ c ∈ margin, isSpace c = true) {blocks : List Block} (lays : Lays rest blocks)
    : Lays ((comments.flatMap fun comment => margin ++ fit comment ++ ending) ++ rest) blocks := by
  induction comments with
  | nil => exact lays
  | cons comment comments ih =>
      have later := ih fun other listed => all other (List.mem_cons_of_mem _ listed)
      rw [List.flatMap_cons, List.append_assoc, List.append_assoc, List.append_assoc,
        lays_spaces_iff blank]
      refine (lays_comment_iff (all comment List.mem_cons_self) ?_).mpr ?_
      · exact BreaksLine.endsLine ⟨ending, _, isEnding, rfl⟩
      · exact (lays_spaces_iff (isSpace_of_mem_ending isEnding)).mpr later

theorem lays_trailing {trailing? : Option Text}
    (all : ∀ comment ∈ trailing?, IsComment (fit comment)) {rest : Text} (breaks : BreaksLine rest)
    {blocks : List Block} (lays : Lays rest blocks)
    : Lays (printTrailing (trailing?.map fit) ++ rest) blocks := by
  cases trailing? with
  | none => exact lays
  | some comment =>
      have blank : isSpace ' ' = true := rfl
      rw [Option.map_some, printTrailing, List.cons_append, lays_space_iff blank]
      exact (lays_comment_iff (all comment rfl) breaks.endsLine).mpr lays

theorem isSpace_of_mem_margin (row : Row) : ∀ c ∈ row.margin, isSpace c = true := by
  intro c listed
  rw [List.eq_of_mem_replicate listed]
  rfl

theorem isSpace_of_mem_breaks (isEnding : Text.IsEnding ending) {count : Nat}
    : ∀ c ∈ (List.replicate count ending).flatten, isSpace c = true := by
  intro c listed
  obtain ⟨line, listed, inside⟩ := List.mem_flatten.mp listed
  rw [List.eq_of_mem_replicate listed] at inside
  exact isSpace_of_mem_ending isEnding c inside

/-- The empty lines, the comments and the margin of a row belong to no block. -/
theorem lays_of_text (isEnding : Text.IsEnding ending) (tidy : row.IsTidy)
    (fitted : ∀ comment, IsComment comment → IsComment (fit comment)) {rest : Text}
    {blocks : List Block}
    (lays : Lays (row.text ++ (printTrailing (row.trailing?.map fit) ++ rest)) blocks)
    : Lays (row.print fit ending ++ rest) blocks := by
  rw [print, List.append_assoc, List.append_assoc, lays_spaces_iff (isSpace_of_mem_breaks isEnding)]
  refine lays_comments isEnding (fun comment listed => fitted _ (tidy.comments _ listed).1)
    row.isSpace_of_mem_margin ?_
  rwa [List.append_assoc, lays_spaces_iff row.isSpace_of_mem_margin, List.append_assoc]

/-- A row before a text is one block before those of the text. -/
theorem lays_print (isEnding : Text.IsEnding ending) (fits : row.Fits pieces) (tidy : row.IsTidy)
    (fitted : ∀ comment, IsComment comment → IsComment (fit comment)) {rest : Text}
    (hushed : Block.IsHushed ⟨pieces, printTrailing (row.trailing?.map fit) ++ rest⟩)
    (breaks : BreaksLine rest) {blocks : List Block} (lays : Lays rest blocks)
    : Lays (row.print fit ending ++ rest)
        (⟨pieces, printTrailing (row.trailing?.map fit) ++ rest⟩ :: blocks) := by
  refine lays_of_text isEnding tidy fitted ?_
  rw [fits.text_eq]
  refine Lays.block fits.isBlock ?_ (lays_trailing
    (fun comment here => fitted _ (tidy.trailing _ here).1.1) breaks lays)
  obtain ⟨c, behind, space, same⟩
      : ∃ c behind, isSpace c = true
          ∧ printTrailing (row.trailing?.map fit) ++ rest = c :: behind := by
    cases row.trailing? with
    | none => exact breaks.cons
    | some comment => exact ⟨' ', _, rfl, rfl⟩
  rw [same] at hushed ⊢
  exact fits.isFirm c behind space fun opens => (endsNoComment_cons_iff.mp (hushed opens)).2

/-- Rows before a text are their blocks before those of the text. -/
theorem lays_printAll (isEnding : Text.IsEnding ending) {all : List (List Piece)}
    (fits : List.Forall₂ Fits rows all) (tidy : ∀ row ∈ rows, row.IsTidy)
    (fitted : ∀ comment, IsComment comment → IsComment (fit comment))
    (hushed : ∀ block ∈ blocks fit ending tail rows all, block.IsHushed)
    (breaks : BreaksLine tail) {others : List Block} (lays : Lays tail others)
    : Lays (printAll fit ending rows ++ tail) (blocks fit ending tail rows all ++ others) := by
  induction fits with
  | nil => exact lays
  | cons here _ ih =>
      have later := ih (fun row listed => tidy row (List.mem_cons_of_mem _ listed))
        fun block listed => hushed block (.tail _ listed)
      rw [printAll, List.flatMap_cons, List.append_assoc]
      exact lays_print isEnding here (tidy _ List.mem_cons_self) fitted
        (hushed _ List.mem_cons_self) (breaksLine_printAll isEnding breaks) later

-----------------------------------------------------------------------------------------
-- Other line endings
-----------------------------------------------------------------------------------------

theorem getLast?_margin (row : Row) : row.margin.getLast? ≠ some '\r' := by
  intro last
  have same := List.eq_of_mem_replicate (List.mem_of_getLast? last)
  exact absurd same (by decide)

theorem reline_margin (row : Row) : Text.reline ending row.margin = row.margin := by
  refine Text.reline_of_not_mem fun listed => ?_
  exact absurd (List.eq_of_mem_replicate listed) (by decide)

theorem reline_append_of_ne {front back : Text} (other : front.getLast? ≠ some '\r')
    : Text.reline ending (front ++ back) = Text.reline ending front ++ Text.reline ending back :=
  Text.reline_append fun last => absurd last other

theorem reline_breaks (count : Nat) (back : Text)
    : Text.reline ending ((List.replicate count ['\n']).flatten ++ back)
      = (List.replicate count ending).flatten ++ Text.reline ending back := by
  induction count with
  | zero => rfl
  | succ count ih =>
      rw [List.replicate_succ, List.flatten_cons, List.append_assoc, List.singleton_append,
        Text.reline_newline, ih, List.replicate_succ, List.flatten_cons, List.append_assoc]

theorem reline_comments {comments : List Text} (tidy : ∀ comment ∈ comments, IsNote comment)
    (row : Row) (back : Text)
    : Text.reline ending ((comments.flatMap fun comment => row.margin ++ id comment ++ ['\n']) ++ back)
      = (comments.flatMap fun comment => row.margin ++ Text.reline ending comment ++ ending)
        ++ Text.reline ending back := by
  induction comments with
  | nil => rfl
  | cons comment comments ih =>
      have later := ih fun other listed => tidy other (List.mem_cons_of_mem _ listed)
      rw [List.flatMap_cons, List.flatMap_cons, List.append_assoc, List.append_assoc,
        List.append_assoc, reline_append_of_ne row.getLast?_margin, reline_margin, id,
        reline_append_of_ne (tidy comment List.mem_cons_self).2, List.singleton_append,
        Text.reline_newline, later]
      simp only [List.append_assoc]

/-- A row whose code keeps its line endings. -/
def Keeps (ending : Text) (row : Row) : Prop :=
  Text.relined ending row.text = row.text

theorem reline_trailing {comment? : Option Text} (single : ∀ comment ∈ comment?, '\n' ∉ comment)
    : Text.reline ending (printTrailing (comment?.map id))
      = printTrailing (comment?.map (Text.reline ending)) := by
  cases comment? with
  | none => rfl
  | some comment =>
      have absent := single comment rfl
      rw [Option.map_some, Option.map_some, printTrailing, printTrailing, id,
        Text.reline_of_not_mem absent, Text.reline_of_not_mem (by simp [absent])]

theorem getLast?_append_ne {front back : Text} (other : front.getLast? ≠ some '\r')
    (other' : back.getLast? ≠ some '\r')
    : (front ++ back).getLast? ≠ some '\r' := by
  rcases List.eq_nil_or_concat back with rfl | ⟨start, c, rfl⟩
  · rwa [List.append_nil]
  · rw [List.concat_eq_append, List.getLast?_concat] at other'
    rwa [List.concat_eq_append, ← List.append_assoc, List.getLast?_concat]

theorem getLast?_flatten_ne {texts : List Text}
    (each : ∀ text ∈ texts, text.getLast? ≠ some '\r')
    : texts.flatten.getLast? ≠ some '\r' := by
  induction texts with
  | nil => simp
  | cons text texts ih =>
      rw [List.flatten_cons]
      exact getLast?_append_ne (each text List.mem_cons_self)
        (ih fun other listed => each other (List.mem_cons_of_mem _ listed))

theorem getLast?_trailing {comment? : Option Text} (noted : ∀ comment ∈ comment?, IsNote comment)
    : (printTrailing (comment?.map id)).getLast? ≠ some '\r' := by
  cases comment? with
  | none => simp [printTrailing]
  | some comment =>
      have blank : [' '].getLast? ≠ some '\r' := by simp
      exact getLast?_append_ne blank (noted comment rfl).2

theorem getLast?_print (tidy : row.IsTidy) (other : row.text.getLast? ≠ some '\r')
    : (row.print id ['\n']).getLast? ≠ some '\r' := by
  refine getLast?_append_ne (getLast?_append_ne (getLast?_flatten_ne fun text listed => ?_) ?_)
    (getLast?_append_ne row.getLast?_margin (getLast?_append_ne other (getLast?_trailing
      fun comment here => (tidy.trailing comment here).1)))
  · rw [List.eq_of_mem_replicate listed]
    simp
  · rw [List.flatMap_def]
    refine getLast?_flatten_ne fun text listed => ?_
    obtain ⟨comment, _, rfl⟩ := List.mem_map.mp listed
    rw [List.getLast?_concat]
    simp

theorem reline_print (isEnding : Text.IsEnding ending) (tidy : row.IsTidy)
    (keeps : row.Keeps ending)
    : Text.reline ending (row.print id ['\n']) = row.print (Text.reline ending) ending := by
  have other := Text.getLast?_of_relined isEnding keeps
  rw [print, print, List.append_assoc, reline_breaks, reline_comments tidy.comments,
    reline_append_of_ne row.getLast?_margin, reline_margin, reline_append_of_ne other,
    Text.reline_of_relined isEnding keeps,
    reline_trailing fun comment here => (tidy.trailing comment here).2]
  simp only [List.append_assoc]

theorem reline_printAll (isEnding : Text.IsEnding ending) (tidy : ∀ row ∈ rows, row.IsTidy)
    (keeps : ∀ row ∈ rows, row.Keeps ending)
    : Text.reline ending (printAll id ['\n'] rows) = printAll (Text.reline ending) ending rows := by
  induction rows with
  | nil => rfl
  | cons row rows ih =>
      have tidy' := tidy row List.mem_cons_self
      have keeps' := keeps row List.mem_cons_self
      have other := Text.getLast?_of_relined isEnding keeps'
      have later := ih (fun other listed => tidy other (List.mem_cons_of_mem _ listed))
        fun other listed => keeps other (List.mem_cons_of_mem _ listed)
      unfold printAll at later ⊢
      rw [List.flatMap_cons, List.flatMap_cons, reline_append_of_ne (getLast?_print tidy' other),
        reline_print isEnding tidy' keeps', later]

theorem getLast?_printAll (isEnding : Text.IsEnding ending) (tidy : ∀ row ∈ rows, row.IsTidy)
    (keeps : ∀ row ∈ rows, row.Keeps ending)
    : (printAll id ['\n'] rows).getLast? ≠ some '\r' := by
  rw [printAll, List.flatMap_def]
  refine getLast?_flatten_ne fun text listed => ?_
  obtain ⟨row, here, rfl⟩ := List.mem_map.mp listed
  exact getLast?_print (tidy row here) (Text.getLast?_of_relined isEnding (keeps row here))

end Row

end ImportHeader
