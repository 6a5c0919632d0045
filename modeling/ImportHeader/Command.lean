import ImportHeader.Fix
import ImportHeader.Project.Load

/-! The command: one file is fixed, and the result is printed or written back. -/

namespace ImportHeader

/-- What is asked for: the file, whether to write it back, and the root of its project if it
is not to be searched for.
-/
structure Options where
  file : Path
  write : Bool
  root? : Option Path
deriving DecidableEq, Inhabited

namespace Options

/-- Arguments read so far. -/
structure Draft where
  file? : Option Path := none
  write : Bool := false
  root? : Option Path := none

/-- Adds the file, of which there is one. -/
def Draft.withFile? (options : Draft) (text : Text) : Option Draft :=
  if options.file?.isSome then none else some { options with file? := some ⟨text⟩ }

/-- Adds the root, which is given at most once. -/
def Draft.withRoot? (options : Draft) (text : Text) : Option Draft :=
  if options.root?.isSome then none else some { options with root? := some ⟨text⟩ }

/-- Whether an argument only asks for more to be logged. -/
def isVerbosity (argument : Text) : Bool :=
  argument = "--verbose".toList
    || (argument.head? == some '-' && argument.length > 1 && (argument.drop 1).all (· == 'v'))

/-- Reads arguments. Behind two dashes everything is a file. -/
def readArguments (options : Draft) : List Text → Option Draft
  | [] => some options
  | argument :: rest =>
      if argument = "--".toList then
        rest.foldlM Draft.withFile? options
      else if argument = "--write".toList then
        if options.write then none else readArguments { options with write := true } rest
      else if argument = "--root".toList then
        match rest with
        | value :: others => do readArguments (← options.withRoot? value) others
        | [] => none
      else if isVerbosity argument then
        readArguments options rest
      else
        match Text.after? "--root=" argument with
        | some value => do readArguments (← options.withRoot? value) rest
        | none =>
            if argument.head? = some '-' && argument.length > 1 then
              none
            else do
              readArguments (← options.withFile? argument) rest

/-- Reads the arguments of a command; there has to be a file. -/
def ofArguments? (arguments : List Text) : Option Options := do
  let options ← readArguments {} arguments
  return ⟨← options.file?, options.write, options.root?⟩

end Options

/-- The result of a command: its exit code, what it prints, and the text to write back. -/
structure Report where
  exitCode : Nat
  stdout : Text
  stderr : Text
  written? : Option Text
deriving DecidableEq, Inhabited

namespace Report

/-- The report of a run that stops. A syntax error is shown with its place in the source. -/
def failure (file : Path) (source : Text) (error : Error) : Report :=
  let place : Text :=
    match error with
    | .parse syntaxError =>
        let position := (LineIndex.ofText source).positionAt syntaxError.span.start
        "  --> " ++ file.text ++ ":" ++ position.display ++ "\n"
    | _ => []
  let message : Text := "error: " ++ file.text ++ ": " ++ error.message ++ "\n"
  ⟨error.exitCode, [], place ++ message, none⟩

/-- The line that shows a warning. -/
def warningLine (file : Path) (diagnostic : Diagnostic) : Text :=
  file.text ++ ": " ++ diagnostic.display ++ "\n"

/-- The report of a run that ends well: the warnings, and the text printed, or written back
if it has changed.
-/
def success (options : Options) (outcome : Outcome) : Report :=
  let warnings := outcome.warnings.flatMap (warningLine options.file)
  if options.write then
    ⟨0, [], warnings, if outcome.changed then some outcome.text else none⟩
  else
    ⟨0, outcome.text, warnings, none⟩

end Report

namespace FileTree

/-- The root of the project of a command. -/
def rootFor (tree : FileTree) (options : Options) : Except ProjectError Path :=
  match options.root? with
  | some root => return root
  | none =>
      match tree.findRoot? options.file with
      | some root => return root
      | none => throw (.missingRoot options.file)

/-- The settings and classes for a command. -/
def projectFor (tree : FileTree) (options : Options)
    : Except ProjectError (Config × ProjectIndex) := do
  let root ← tree.rootFor options
  let config ← tree.loadProjectConfig root
  return (config, ← tree.loadIndex root config)

/-- Runs a command on a tree of files. -/
def run (tree : FileTree) (options : Options) : Report :=
  match tree.readFor options.file with
  | .error error => .failure options.file [] (.project error)
  | .ok source =>
      match tree.projectFor options with
      | .error error => .failure options.file source (.project error)
      | .ok (config, index) =>
          match fixImports source index.symbols config with
          | .error error => .failure options.file source error
          | .ok outcome => .success options outcome

end FileTree

end ImportHeader
