import ImportHeader.Text.Basic

/-! Spans of bytes, and positions by line and column.
A line ends at a line feed, lines and columns count from zero, and columns count bytes.
-/

namespace ImportHeader

/-- The bytes from `start` up to and without `stop`. -/
structure Span where
  start : Nat
  stop : Nat
deriving DecidableEq, Inhabited

/-- A place in a text: its line, and the bytes before it on that line. -/
structure Position where
  line : Nat
  column : Nat
deriving DecidableEq, Inhabited

/-- A position as people write it, `line:column` with both counted from one. -/
def Position.display (position : Position) : Text :=
  Text.ofNat (position.line + 1) ++ ':' :: Text.ofNat (position.column + 1)

/-- The byte offsets at which the lines of a text start, and the size of the text. -/
structure LineIndex where
  starts : List Nat
  size : Nat
deriving DecidableEq, Inhabited

namespace LineIndex

/-- The offsets just behind the line feeds of a text that stands at `offset`. -/
def startsAfter (offset : Nat) : Text → List Nat
  | [] => []
  | c :: rest =>
      let next := offset + c.utf8Size
      if c = '\n' then next :: startsAfter next rest else startsAfter next rest

/-- The index of a text; the first line starts at zero and every line feed starts one. -/
def ofText (text : Text) : LineIndex where
  starts := 0 :: startsAfter 0 text
  size := text.size

/-- The number of lines. -/
def lineCount (index : LineIndex) : Nat :=
  index.starts.length

/-- The line that holds an offset: the last one that does not start behind it. -/
def lineAt (index : LineIndex) (offset : Nat) : Nat :=
  (index.starts.takeWhile (· ≤ offset)).length - 1

/-- The position of an offset. -/
def positionAt (index : LineIndex) (offset : Nat) : Position :=
  let line := index.lineAt offset
  ⟨line, offset - index.starts.getD line 0⟩

/-- The offset of a position, if its line exists. -/
def offset? (index : LineIndex) (position : Position) : Option Nat :=
  index.starts[position.line]?.map (· + position.column)

/-- The bytes of a line without its line feed, if the line exists. -/
def lineSpan? (index : LineIndex) (line : Nat) : Option Span :=
  index.starts[line]?.map fun start =>
    match index.starts[line + 1]? with
    | some next => ⟨start, next - 1⟩
    | none => ⟨start, index.size⟩

/-- The line on which a span starts. -/
def startLine (index : LineIndex) (span : Span) : Nat :=
  index.lineAt span.start

/-- The line of the last byte of a span, or of its start if it is empty. -/
def endLine (index : LineIndex) (span : Span) : Nat :=
  if span.start = span.stop then index.lineAt span.start else index.lineAt (span.stop - 1)

end LineIndex

end ImportHeader
