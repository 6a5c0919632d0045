import ImportHeader.Symbol.Index
import Std.Data.HashSet

/-! Names that never need an import, whatever the case of their letters. -/

namespace ImportHeader

/-- Classes that every program has. -/
def builtinClasses : List Text :=
  List.map String.toList
    ["ArgumentCountError", "ArithmeticError", "ArrayAccess", "ArrayIterator", "ArrayObject",
      "AssertionError", "Attribute", "BackedEnum", "BadFunctionCallException",
      "BadMethodCallException", "CachingIterator", "Closure", "Countable", "DateInterval",
      "DatePeriod", "DateTime", "DateTimeImmutable", "DateTimeInterface", "DateTimeZone",
      "DivisionByZeroError", "DomainException", "Error", "ErrorException", "Exception", "Fiber",
      "FilesystemIterator", "Generator", "InvalidArgumentException", "Iterator",
      "IteratorAggregate", "IteratorIterator", "JsonException", "JsonSerializable",
      "LengthException", "LogicException", "OutOfBoundsException", "OutOfRangeException",
      "OverflowException", "PDO", "PDOException", "PDOStatement", "RangeException",
      "RecursiveArrayIterator", "RecursiveDirectoryIterator", "RecursiveIteratorIterator",
      "ReflectionClass", "ReflectionException", "ReflectionMethod", "ReflectionProperty",
      "ReturnTypeWillChange", "RuntimeException", "SensitiveParameter", "Serializable",
      "SplFileInfo", "SplFileObject", "SplObjectStorage", "SplQueue", "SplStack", "Stringable",
      "Throwable", "Traversable", "TypeError", "UnderflowException", "UnexpectedValueException",
      "UnitEnum", "ValueError", "WeakMap", "WeakReference", "stdClass"]

/-- A set of names, kept in lower case. -/
structure IgnoreSet where
  names : Std.HashSet Text

namespace IgnoreSet

/-- The set without names. -/
def empty : IgnoreSet :=
  ⟨∅⟩

instance : Inhabited IgnoreSet := ⟨empty⟩

/-- Adds a name. -/
def insert (ignored : IgnoreSet) (name : Text) : IgnoreSet :=
  ⟨ignored.names.insert (Text.lower name)⟩

/-- Adds several names. -/
def insertAll (ignored : IgnoreSet) (names : List Text) : IgnoreSet :=
  names.foldl insert ignored

/-- The set to start from, with or without the built-in classes. -/
def start (builtins : Bool) : IgnoreSet :=
  if builtins then empty.insertAll builtinClasses else empty

/-- Whether a name is in the set. -/
def contains (ignored : IgnoreSet) (name : Name) : Bool :=
  ignored.names.contains (Text.lower name.joined)

/-- The number of names. -/
def size (ignored : IgnoreSet) : Nat :=
  ignored.names.size

/-- Adds what a file reaches without an import: the classes that it declares, and those of
its own namespace as seen from there.
-/
def addScope (ignored : IgnoreSet) (declared : List Text) (space? : Option Name)
    (index : SymbolIndex) : IgnoreSet :=
  (ignored.insertAll declared).insertAll ((index.relativeTo space?).map Name.joined)

end IgnoreSet

end ImportHeader
