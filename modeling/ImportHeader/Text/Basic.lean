/-! Program text is a list of characters, so that every scan is a recursion on data.
Offsets into a text count the bytes of its UTF-8 form.
-/

namespace ImportHeader

/-- A run of characters: a source, a name, a path or a message. -/
abbrev Text := List Char

instance : Coe String Text := ⟨String.toList⟩

instance : Hashable Text := ⟨List.foldl (fun seed c => mixHash seed (hash c.toNat)) 7⟩

namespace Text

/-- The number of bytes of the UTF-8 form of a text. -/
def size : Text → Nat
  | [] => 0
  | c :: rest => c.utf8Size + size rest

/-- The decimal digits of a number, without leading zeros. -/
def ofNat (n : Nat) : Text :=
  Nat.toDigits 10 n

/-- ASCII letters in lower case and every other character as it is. -/
def lower (text : Text) : Text :=
  text.map Char.toLower

/-- Two texts that differ at most in the case of their ASCII letters. -/
def sameFolded (left right : Text) : Bool :=
  lower left == lower right

/-- The parts of a text between the characters that satisfy a test; there is always one part
more than there are such characters.
-/
def splitBy (isSeparator : Char → Bool) : Text → List Text
  | [] => [[]]
  | c :: rest =>
      if isSeparator c then
        [] :: splitBy isSeparator rest
      else
        match splitBy isSeparator rest with
        | [] => [[c]]
        | part :: parts => (c :: part) :: parts

theorem splitBy_ne_nil (isSeparator : Char → Bool) (text : Text)
    : splitBy isSeparator text ≠ [] := by
  cases text with
  | nil => exact List.cons_ne_nil _ _
  | cons c rest =>
      unfold splitBy
      split
      · exact List.cons_ne_nil _ _
      · split <;> exact List.cons_ne_nil _ _

/-- The parts of a text between the occurrences of a separator. -/
def pieces (separator : Char) (text : Text) : List Text :=
  splitBy (· == separator) text

/-- The lines of a text, without the line feeds that separate them. -/
def lines (text : Text) : List Text :=
  pieces '\n' text

/-- A line without the carriage return that can end it. -/
def withoutReturn (line : Text) : Text :=
  if line.getLast? = some '\r' then line.dropLast else line

/-- What follows a given beginning, if the text begins that way. -/
def after? (beginning : Text) (text : Text) : Option Text :=
  if beginning.isPrefixOf text then some (text.drop beginning.length) else none

/-- The longest beginning of a text that ends on a character boundary and takes at most the
given number of bytes.
-/
def takeBytes : Nat → Text → Text
  | _, [] => []
  | bytes, c :: rest =>
      if c.utf8Size ≤ bytes then c :: takeBytes (bytes - c.utf8Size) rest else []

/-- What `takeBytes` leaves over. -/
def dropBytes : Nat → Text → Text
  | _, [] => []
  | bytes, c :: rest =>
      if c.utf8Size ≤ bytes then dropBytes (bytes - c.utf8Size) rest else c :: rest

/-- The characters between two byte offsets. -/
def slice (text : Text) (start stop : Nat) : Text :=
  takeBytes (stop - start) (dropBytes start text)

/-- The characters before the first occurrence of `pattern` and those after it. -/
def cut? (pattern : Text) : Text → Option (Text × Text)
  | [] => if pattern.isEmpty then some ([], []) else none
  | c :: rest =>
      match after? pattern (c :: rest) with
      | some tail => some ([], tail)
      | none => (cut? pattern rest).map fun (head, tail) => (c :: head, tail)

end Text

end ImportHeader
