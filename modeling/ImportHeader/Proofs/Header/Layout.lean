import ImportHeader.Proofs.Header.Rows
import ImportHeader.Proofs.Pairing

/-! A printed file is its open tag and a row for each statement, and for the opening and the
closing of each namespace.
-/

namespace ImportHeader

/-- What is printed of a statement without its comments. -/
def Stmt.code (stmt : Stmt) : Text :=
  match stmt.kind with
  | .importing declaration => declaration.print
  | _ => stmt.text

/-- What is printed of the opening of a namespace without its comment. -/
def Namespace.openingCode (space : Namespace) : Text :=
  let name : Text :=
    match space.name? with
    | some located => ' ' :: located.name.joined
    | none => []
  let mark : Text := if space.braced then " \x7b" else ";"
  "namespace" ++ name ++ mark

namespace Row

/-- The row of a statement. -/
structure IsOf (stmt : Stmt) (row : Row) : Prop where
  comments_eq : row.comments = stmt.comments
  text_eq : row.text = stmt.code
  trailing_eq : row.trailing? = stmt.trailing?

/-- The row that opens a namespace. -/
structure IsOpening (space : Namespace) (row : Row) : Prop where
  comments_eq : row.comments = space.comments
  text_eq : row.text = space.openingCode
  trailing_eq : row.trailing? = space.headerComment?

/-- The row that closes a namespace. -/
structure IsClosing (row : Row) : Prop where
  comments_eq : row.comments = []
  text_eq : row.text = ['}']
  trailing_eq : row.trailing? = none

def breaks (count : Nat) : Text :=
  (List.replicate count ['\n']).flatten

theorem breaks_succ (count : Nat) : breaks (count + 1) = '\n' :: breaks count := by
  rw [breaks, List.replicate_succ, List.flatten_cons]
  rfl

theorem printAll_append (fit : Text → Text) (ending : Text) (left right : List Row)
    : printAll fit ending (left ++ right) = printAll fit ending left ++ printAll fit ending right :=
  List.flatMap_append

theorem print_id (row : Row)
    : row.print id ['\n']
      = breaks (row.gap + 1)
        ++ (printComments row.margin row.comments
          ++ row.margin ++ row.text ++ printTrailing row.trailing?) := by
  simp only [print, breaks, printComments, Option.map_id_fun, id_eq, List.append_assoc]

theorem exists_row (gap indent : Nat) (comments : List Text) (text : Text)
    (trailing? : Option Text)
    : ∃ row : Row, row.comments = comments ∧ row.text = text ∧ row.trailing? = trailing?
        ∧ breaks (gap + 1)
          ++ (printComments (List.replicate indent ' ') comments
            ++ List.replicate indent ' ' ++ text ++ printTrailing trailing?)
          = printAll id ['\n'] [row] := by
  refine ⟨⟨gap, indent, comments, text, trailing?⟩, rfl, rfl, rfl, ?_⟩
  rw [printAll, List.flatMap_singleton, print_id]
  rfl

/-- What is printed with gaps between it is rows, if each part of it is. -/
theorem exists_printBlocks {α : Type} (isImport : α → Bool) {print : α → Text}
    {property : α → List Row → Prop}
    (each
      : ∀ x gap, ∃ rows, property x rows ∧ breaks (gap + 1) ++ print x = printAll id ['\n'] rows)
    {xs : List α} (some : xs ≠ []) (gap : Nat)
    : ∃ rows : List (List Row),
        List.Forall₂ property xs rows
        ∧ breaks (gap + 1) ++ printBlocks isImport print xs = printAll id ['\n'] rows.flatten := by
  induction xs generalizing gap with
  | nil => exact absurd rfl some
  | cons x xs ih =>
      obtain ⟨first, here, printed⟩ := each x gap
      cases xs with
      | nil =>
          refine ⟨[first], .cons here .nil, ?_⟩
          rw [List.flatten_singleton, ← printed]
          rfl
      | cons y xs =>
          obtain ⟨between, gap_eq⟩ : ∃ between,
              (if isImport x && isImport y then ['\n'] else ['\n', '\n']) = breaks (between + 1) := by
            cases isImport x && isImport y with
            | true => exact ⟨0, rfl⟩
            | false => exact ⟨1, rfl⟩
          obtain ⟨rows, later, printed'⟩ := ih (List.cons_ne_nil _ _) between
          refine ⟨first :: rows, .cons here later, ?_⟩
          rw [List.flatten_cons, printAll_append, ← printed, ← printed', ← gap_eq]
          simp only [printBlocks, List.append_assoc]

theorem exists_row_of_stmt (indent : Nat) (stmt : Stmt) (gap : Nat)
    : ∃ rows, (∃ row, rows = [row] ∧ IsOf stmt row)
        ∧ breaks (gap + 1) ++ stmt.print (List.replicate indent ' ')
          = printAll id ['\n'] rows := by
  obtain ⟨row, comments, text, trailing, printed⟩ :=
    exists_row gap indent stmt.comments stmt.code stmt.trailing?
  exact ⟨[row], ⟨row, rfl, comments, text, trailing⟩, printed⟩

theorem exists_of_singles {α : Type} {property : α → Row → Prop} {xs : List α}
    {all : List (List Row)}
    (each : List.Forall₂ (fun x rows => ∃ row, rows = [row] ∧ property x row) xs all)
    : List.Forall₂ property xs all.flatten := by
  induction each with
  | nil => exact .nil
  | cons here _ ih =>
      obtain ⟨row, rfl, holds⟩ := here
      exact .cons holds ih

/-- Statements are printed as one row each. -/
theorem exists_rows_of_stmts (indent gap : Nat) {stmts : List Stmt} (some : stmts ≠ [])
    : ∃ rows, List.Forall₂ IsOf stmts rows
        ∧ breaks (gap + 1) ++ Stmt.printAll (List.replicate indent ' ') stmts
          = printAll id ['\n'] rows := by
  obtain ⟨all, each, printed⟩ :=
    exists_printBlocks Stmt.isImport (exists_row_of_stmt indent) some gap
  exact ⟨all.flatten, exists_of_singles each, printed⟩

/-- The rows of an item. -/
inductive AreOf : Item → List Row → Prop
  | plain {stmt row} (isOf : IsOf stmt row) : AreOf (.plain stmt) [row]
  | scope {space opening inner closing} (opens : IsOpening space opening)
    (inside : List.Forall₂ IsOf space.stmts inner)
    (closes : if space.braced then ∃ row, closing = [row] ∧ IsClosing row else closing = [])
    : AreOf (.scope space) (opening :: (inner ++ closing))

theorem exists_inner (space : Namespace)
    : ∃ inner closing,
        List.Forall₂ IsOf space.stmts inner
        ∧ (if space.braced then ∃ row, closing = [row] ∧ IsClosing row else closing = [])
        ∧ space.print
          = printComments [] space.comments ++ space.openingCode
            ++ printTrailing space.headerComment? ++ printAll id ['\n'] (inner ++ closing) := by
  obtain ⟨last, comments, text, trailing, ending⟩ :=
    exists_row 0 0 [] ['}'] none
  have brace : printAll id ['\n'] [last] = "\n\x7d".toList := ending.symm
  have opened : space.printHeader = space.openingCode ++ printTrailing space.headerComment? := rfl
  unfold Namespace.print
  rw [opened]
  cases braced : space.braced with
  | true =>
      by_cases empty : space.stmts = []
      · refine ⟨[], [last], by rw [empty]; exact .nil, ⟨last, rfl, comments, text, trailing⟩, ?_⟩
        simp only [empty, List.isEmpty_nil, if_true, List.nil_append, brace, List.append_assoc]
      · obtain ⟨inner, each, printed⟩ := exists_rows_of_stmts 4 0 empty
        refine ⟨inner, [last], each, ⟨last, rfl, comments, text, trailing⟩, ?_⟩
        have some : space.stmts.isEmpty = false := by simpa using empty
        rw [printAll_append, ← printed, brace]
        simp only [some, if_true, Bool.false_eq_true, if_false, List.append_assoc]
        rfl
  | false =>
      by_cases empty : space.stmts = []
      · refine ⟨[], [], by rw [empty]; exact .nil, rfl, ?_⟩
        simp only [empty, List.isEmpty_nil, Bool.false_eq_true, if_false, if_true,
          List.append_assoc]
        rfl
      · obtain ⟨inner, each, printed⟩ := exists_rows_of_stmts 0 1 empty
        refine ⟨inner, [], each, rfl, ?_⟩
        have some : space.stmts.isEmpty = false := by simpa using empty
        rw [List.append_nil, ← printed]
        simp only [some, Bool.false_eq_true, if_false, List.append_assoc]
        rfl

theorem exists_rows_of_item (item : Item) (gap : Nat)
    : ∃ rows, AreOf item rows ∧ breaks (gap + 1) ++ item.print = printAll id ['\n'] rows := by
  cases item with
  | plain stmt =>
      obtain ⟨rows, ⟨row, rfl, isOf⟩, printed⟩ := exists_row_of_stmt 0 stmt gap
      exact ⟨[row], .plain isOf, printed⟩
  | scope space =>
      obtain ⟨inner, closing, inside, closes, whole⟩ := exists_inner space
      obtain ⟨opening, comments, text, trailing, printed⟩ :=
        exists_row gap 0 space.comments space.openingCode space.headerComment?
      refine ⟨_, .scope ⟨comments, text, trailing⟩ inside closes, ?_⟩
      have cut : printAll id ['\n'] (opening :: (inner ++ closing))
          = printAll id ['\n'] [opening] ++ printAll id ['\n'] (inner ++ closing) :=
        printAll_append id ['\n'] [opening] (inner ++ closing)
      rw [Item.print, whole, cut, ← printed]
      simp only [List.replicate_zero, List.append_nil, List.append_assoc]

/-- A printed file is its open tag and the rows of its items. -/
theorem exists_rows {file : SourceFile} {tag : OpenTag} (tagged : file.openTag? = some tag)
    : ∃ rows : List (List Row),
        List.Forall₂ AreOf file.items rows
        ∧ file.print
          = file.markup?.getD [] ++ tag.text
            ++ (printTrailing tag.comment? ++ (printAll id ['\n'] rows.flatten ++ ['\n'])) := by
  unfold SourceFile.print
  simp only [tagged]
  by_cases empty : file.items = []
  · refine ⟨[], by rw [empty]; exact .nil, ?_⟩
    simp [empty, printAll]
  · obtain ⟨rows, each, printed⟩ :=
      exists_printBlocks Item.isImport exists_rows_of_item empty 1
    refine ⟨rows, each, ?_⟩
    have some : file.items.isEmpty = false := by simpa using empty
    rw [← printed]
    simp only [some, Bool.false_eq_true, if_false, List.append_assoc]
    rfl

theorem exists_plain_rows {stmts : List Stmt} {rows : List (List Row)}
    (each : List.Forall₂ AreOf (stmts.map .plain) rows)
    : List.Forall₂ IsOf stmts rows.flatten := by
  rw [List.forall₂_map_left_iff] at each
  refine exists_of_singles (each.imp fun stmt rows are => ?_)
  cases are with
  | plain isOf => exact ⟨_, rfl, isOf⟩

theorem exists_framed_rows {before after : List Stmt} {space : Namespace} {rows : List (List Row)}
    (each : List.Forall₂ AreOf (before.map .plain ++ .scope space :: after.map .plain) rows)
    : ∃ earlier opening inner closing later,
        rows.flatten = earlier ++ opening :: (inner ++ (closing ++ later))
        ∧ List.Forall₂ IsOf before earlier ∧ IsOpening space opening
        ∧ List.Forall₂ IsOf space.stmts inner
        ∧ (if space.braced then ∃ row, closing = [row] ∧ IsClosing row else closing = [])
        ∧ List.Forall₂ IsOf after later := by
  obtain ⟨left, right, rfl, each', each''⟩ := Pairing.split each
  cases each'' with
  | cons here behind =>
      cases here with
      | @scope _ opening inner closing opens inside closes =>
          refine ⟨left.flatten, opening, inner, closing, _, ?_, exists_plain_rows each', opens,
            inside, closes, exists_plain_rows behind⟩
          simp

end Row

end ImportHeader
