import ImportHeader.Text.Basic

/-! The format of settings: lines of keys and values under table headers. Values are strings
on one line, booleans, integers, and arrays of values, which can go over several lines. Other
kinds of values are not read.
-/

namespace ImportHeader

namespace Toml

/-- A value of a key. -/
inductive Value where
  | text (text : Text)
  | boolean (value : Bool)
  | integer (value : Int)
  | array (items : List Value)
deriving Inhabited

/-- The parts of a key, between its dots. -/
abbrev Key := List Text

/-- A value with its key and the header above it. -/
structure Entry where
  header : Key
  key : Key
  value : Value
deriving Inhabited

/-- The key of an entry from the top of the document. -/
def Entry.path (entry : Entry) : Key :=
  entry.header ++ entry.key

/-- All entries and headers of a document, in order. -/
structure Document where
  entries : List Entry
  headers : List Key
deriving Inhabited

/-- A reader of the start of a text: what it found, and the text behind it. -/
abbrev Reader (α : Type) := Text → Option (α × Text)

/-- White space inside a line. -/
def isGap (c : Char) : Bool :=
  c == ' ' || c == '\t'

/-- Characters that can stand in no string and no comment. -/
def isControl (c : Char) : Bool :=
  (c.toNat < 0x20 && c != '\t') || c.toNat == 0x7F

/-- The text without the white space at its start. -/
def skipGap (text : Text) : Text :=
  text.dropWhile isGap

/-- Moves behind a line break. -/
def lineBreak? : Text → Option Text
  | '\n' :: rest => some rest
  | '\r' :: '\n' :: rest => some rest
  | _ => none

/-- The text of a comment up to the end of its line, which is not part of it. None if it holds
a control character.
-/
def comment? : Text → Option Text
  | [] => some []
  | '\n' :: rest => some ('\n' :: rest)
  | '\r' :: '\n' :: rest => some ('\r' :: '\n' :: rest)
  | c :: rest => if isControl c then none else comment? rest

theorem comment?_length {text rest : Text} (h : comment? text = some rest)
    : rest.length ≤ text.length := by
  fun_induction comment? text with
  | case1 => simp_all
  | case2 => simp_all
  | case3 => simp_all
  | case4 => simp at h
  | case5 c tail _ _ _ ih =>
      have shorter := ih h
      simp only [List.length_cons]
      omega

/-- Moves behind white space, line breaks and comments. -/
def skipTrivia (text : Text) : Option Text :=
  match text with
  | ' ' :: rest => skipTrivia rest
  | '\t' :: rest => skipTrivia rest
  | '\n' :: rest => skipTrivia rest
  | '\r' :: '\n' :: rest => skipTrivia rest
  | '#' :: rest =>
      match _ : comment? rest with
      | some behind => skipTrivia behind
      | none => none
  | _ => some text
termination_by text.length
decreasing_by
  all_goals simp only [List.length_cons]
  all_goals first
    | omega
    | (have shorter := comment?_length (by assumption)
       omega)

/-- Moves behind the end of a line: white space, a comment, and a line break or the end of the
document.
-/
def lineEnd? (text : Text) : Option Text :=
  let rest? :=
    match skipGap text with
    | '#' :: rest => comment? rest
    | rest => some rest
  match rest? with
  | some [] => some []
  | some rest => lineBreak? rest
  | none => none

/-- A literal string behind its opening quote. -/
def literal : Reader Text
  | [] => none
  | '\'' :: rest => some ([], rest)
  | c :: rest =>
      if isControl c then none else (literal rest).map fun (text, behind) => (c :: text, behind)

/-- The value of a hexadecimal digit. -/
def hexDigit? (c : Char) : Option Nat :=
  if c.isDigit then some (c.toNat - '0'.toNat)
  else if 'a' ≤ c && c ≤ 'f' then some (c.toNat - 'a'.toNat + 10)
  else if 'A' ≤ c && c ≤ 'F' then some (c.toNat - 'A'.toNat + 10)
  else none

/-- The character with a code point in hexadecimal digits. -/
def codePoint? (digits : Text) (count : Nat) : Option Char := do
  guard (digits.length = count)
  let values ← digits.mapM hexDigit?
  let point := values.foldl (fun sum digit => sum * 16 + digit) 0
  guard point.isValidChar
  return Char.ofNat point

/-- The character that an escape of one letter stands for. -/
def escaped? : Char → Option Char
  | 'b' => some '\x08'
  | 't' => some '\t'
  | 'n' => some '\n'
  | 'f' => some '\x0c'
  | 'r' => some '\r'
  | 'e' => some '\x1b'
  | '"' => some '"'
  | '\\' => some '\\'
  | _ => none

/-- How many hexadecimal digits follow the letter of an escape that gives a code point. -/
def escapeDigits? : Char → Option Nat
  | 'x' => some 2
  | 'u' => some 4
  | 'U' => some 8
  | _ => none

/-- A basic string behind its opening quote. -/
def basic (text : Text) : Option (Text × Text) :=
  match text with
  | [] => none
  | '"' :: rest => some ([], rest)
  | '\\' :: letter :: rest =>
      match escapeDigits? letter with
      | some count => do
          let c ← codePoint? (rest.take count) count
          let (tail, behind) ← basic (rest.drop count)
          return (c :: tail, behind)
      | none => do
          let c ← escaped? letter
          let (tail, behind) ← basic rest
          return (c :: tail, behind)
  | c :: rest =>
      if isControl c || c == '\\' then
        none
      else
        (basic rest).map fun (tail, behind) => (c :: tail, behind)
termination_by text.length
decreasing_by all_goals (simp only [List.length_cons, List.length_drop]; omega)

/-- Digits in groups divided by underscores, as a number in the given base. -/
def digits? (base : Nat) (text : Text) : Option Nat := do
  let groups := Text.pieces '_' text
  guard (!groups.any List.isEmpty)
  let values ← groups.flatten.mapM hexDigit?
  guard (values.all (· < base))
  return values.foldl (fun sum digit => sum * base + digit) 0

/-- A decimal number without a sign; only zero itself starts with zero. -/
def decimal? : Text → Option Nat
  | ['0'] => some 0
  | '0' :: _ => none
  | text => digits? 10 text

/-- An integer: decimal with an optional sign, hexadecimal, octal or binary. -/
def integer? : Text → Option Int
  | '+' :: rest => (decimal? rest).map Int.ofNat
  | '-' :: rest => (decimal? rest).map fun n => -Int.ofNat n
  | '0' :: 'x' :: rest => (digits? 16 rest).map Int.ofNat
  | '0' :: 'o' :: rest => (digits? 8 rest).map Int.ofNat
  | '0' :: 'b' :: rest => (digits? 2 rest).map Int.ofNat
  | text => (decimal? text).map Int.ofNat

/-- Whether 128 bits hold an integer, with a sign if it is negative. -/
def inRange (number : Int) : Bool :=
  -0x80000000000000000000000000000000 ≤ number && number ≤ 0xFFFFFFFFFFFFFFFFFFFFFFFFFFFFFFFF

/-- Characters of a bare key. -/
def isBare (c : Char) : Bool :=
  c.isAlphanum || c == '_' || c == '-'

/-- A boolean or an integer. -/
def plainValue : Reader Value := fun text =>
  let word := text.takeWhile fun c => isBare c || c == '+' || c == '.' || c == ':'
  let behind := text.drop word.length
  if word = "true".toList then
    some (.boolean true, behind)
  else if word = "false".toList then
    some (.boolean false, behind)
  else do
    let number ← integer? word
    guard (inRange number)
    return (.integer number, behind)

/-- The items of an array behind its opening bracket or a comma, with `item` as the reader of
one. A comma can precede the closing bracket.
-/
def arrayItems (item : Reader Value) : Nat → Reader (List Value)
  | 0, _ => none
  | fuel + 1, text => do
      match ← skipTrivia text with
      | ']' :: rest => return ([], rest)
      | start =>
          let (value, behind) ← item start
          match ← skipTrivia behind with
          | ']' :: rest => return ([value], rest)
          | ',' :: rest =>
              let (values, last) ← arrayItems item fuel rest
              return (value :: values, last)
          | _ => none

/-- A value that holds no others: a string, a boolean or an integer. -/
def scalar : Reader Value
  | '\'' :: rest => (literal rest).map fun (text, behind) => (.text text, behind)
  | '"' :: rest => (basic rest).map fun (text, behind) => (.text text, behind)
  | text => plainValue text

/-- A value in which arrays nest at most `depth` deep. -/
def valueWithin : Nat → Reader Value
  | depth + 1, '[' :: rest =>
      (arrayItems (valueWithin depth) (rest.length + 1) rest).map fun (items, behind) =>
        (.array items, behind)
  | _, text => scalar text

/-- How deep arrays can nest. -/
def maxDepth : Nat := 80

/-- A value. -/
def value : Reader Value :=
  valueWithin maxDepth

/-- One part of a key: bare or quoted. -/
def keyPart : Reader Text
  | '\'' :: rest => literal rest
  | '"' :: rest => basic rest
  | text =>
      let word := text.takeWhile isBare
      if word.isEmpty then none else some (word, text.drop word.length)

/-- A key of at most `fuel` parts, and the text behind it and its white space. -/
def keyWithin : Nat → Reader Key
  | 0, _ => none
  | fuel + 1, text => do
      let (part, behind) ← keyPart (skipGap text)
      match skipGap behind with
      | '.' :: rest =>
          let (parts, last) ← keyWithin fuel rest
          return (part :: parts, last)
      | rest => return ([part], rest)

/-- A key. -/
def key : Reader Key := fun text =>
  keyWithin (text.length + 1) text

/-- A line: empty, a header, or an entry under the given header. -/
inductive Line where
  | blank
  | header (key : Key)
  | entry (key : Key) (value : Value)

/-- The line at the start of a text. -/
def line : Reader Line := fun text => do
  match skipGap text with
  | '[' :: rest =>
      match ← key rest with
      | (name, ']' :: behind) => return (.header name, ← lineEnd? behind)
      | _ => none
  | start =>
      match lineEnd? start with
      | some rest => return (.blank, rest)
      | none =>
          match ← key start with
          | (name, '=' :: behind) =>
              let (content, last) ← value (skipGap behind)
              return (.entry name content, ← lineEnd? last)
          | _ => none

/-- Whether one key leads to another, or is the same. -/
def leadsTo (left right : Key) : Bool :=
  left.isPrefixOf right

/-- Whether an entry can follow the others: its key is new, no other key passes through it,
and it passes through no other key and no table that a header opened. The table that a key with
dots puts its value in is none that a header passes through.
-/
def Document.admits (document : Document) (entry : Entry) : Bool :=
  !document.entries.any (fun other =>
      leadsTo other.path entry.path || leadsTo entry.path other.path)
    && !document.headers.any (fun header =>
      header != entry.header && entry.header.length < header.length
        && (leadsTo entry.path header || leadsTo header entry.path
          || (1 < entry.key.length && leadsTo entry.path.dropLast header)))

/-- Whether a header can follow: it is new, it passes through no key, and keys with dots have
not made its table.
-/
def Document.admitsHeader (document : Document) (header : Key) : Bool :=
  !document.headers.contains header
    && !document.entries.any (fun entry =>
      leadsTo entry.path header
        || (entry.header.length < header.length && leadsTo header entry.path))

/-- Reads lines under a header into a document. -/
def linesWithin : Nat → Document → Key → Text → Option Document
  | 0, _, _, _ => none
  | _, document, _, [] => some document
  | fuel + 1, document, header, text => do
      match ← line text with
      | (.blank, rest) => linesWithin fuel document header rest
      | (.header next, rest) =>
          if document.admitsHeader next then
            linesWithin fuel { document with headers := document.headers ++ [next] } next rest
          else
            none
      | (.entry key value, rest) =>
          let entry : Entry := ⟨header, key, value⟩
          if document.admits entry then
            linesWithin fuel { document with entries := document.entries ++ [entry] } header rest
          else
            none

/-- Reads a document. A byte order mark can precede it. -/
def document? (text : Text) : Option Document :=
  let content := if text.head? = some '\ufeff' then text.drop 1 else text
  linesWithin (content.length + 1) ⟨[], []⟩ [] content

/-- What a document says about a key of its top table. -/
inductive Setting where
  | absent
  | value (value : Value)
  | table

/-- Looks up a key of the top table. -/
def Document.setting (document : Document) (name : Text) : Setting :=
  match document.entries.find? fun entry => entry.path == [name] with
  | some entry => .value entry.value
  | none =>
      if document.headers.any (leadsTo [name]) || document.entries.any (leadsTo [name] ·.path)
      then .table
      else .absent

end Toml

end ImportHeader
