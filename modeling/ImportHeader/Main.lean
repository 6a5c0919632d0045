import ImportHeader.Command

/-! The program. It reads into memory what the command can look at, runs the command there,
and writes the result out.
-/

namespace ImportHeader

namespace Program

/-- The location that a path leads to, without looking at the tree. -/
def target (current : Location) (path : Path) : Location :=
  path.components.foldl
    (fun location component =>
      match component with
      | .root => []
      | .current => location
      | .parent => location.dropLast
      | .normal name => location ++ [name])
    current

/-- Reads the file or notes the directory at a path, if there is one. -/
def load (tree : FileTree) (path : Path) : IO FileTree := do
  let place := (← IO.currentDir) / String.ofList path.text
  if ← place.isDir then
    return tree.putDirectory (target tree.current path)
  else if ← place.pathExists then
    return tree.put (target tree.current path) (← IO.FS.readBinFile place)
  else
    return tree

/-- Reads the sources below a directory. -/
partial def loadSources (tree : FileTree) (directory : Path) : IO FileTree := do
  let place := (← IO.currentDir) / String.ofList directory.text
  if !(← place.isDir) then
    return tree
  let mut tree := tree.putDirectory (target tree.current directory)
  for entry in ← place.readDir do
    let name := entry.fileName.toList
    let path := directory.join ⟨name⟩
    if ← entry.path.isDir then
      if !FileTree.isExcluded name then
        tree ← loadSources tree path
    else if FileTree.isSource name then
      tree ← load tree path
  return tree

/-- Reads what a command can look at: the file, the marks of a project above it, and the
settings and classes of the project.
-/
def snapshot (options : Options) : IO FileTree := do
  let current := target [] ⟨(← IO.currentDir).toString.toList⟩
  let mut tree ← load (.empty current) options.file
  for directory in options.file.ancestors do
    for mark in [packageName, configName] do
      tree ← load tree (directory.join mark)
  match tree.rootFor options with
  | .error _ => return tree
  | .ok root =>
      tree ← load tree (root.join configName)
      tree ← load tree (root.join classmapName)
      match tree.loadProjectConfig root with
      | .error _ => return tree
      | .ok config =>
          for directory in config.sourceDirs do
            tree ← loadSources tree (root.join directory)
          return tree

end Program

end ImportHeader

open ImportHeader in
/-- Fixes the imports of the file that the arguments name. -/
def main (arguments : List String) : IO UInt32 := do
  match Options.ofArguments? (arguments.map String.toList) with
  | none =>
      (← IO.getStderr).putStrLn "usage: [--write] [--root DIR] [-v] FILE"
      return 2
  | some options =>
      let report := (← Program.snapshot options).run options
      (← IO.getStderr).putStr (String.ofList report.stderr)
      (← IO.getStdout).putStr (String.ofList report.stdout)
      if let some text := report.written? then
        IO.FS.writeFile (String.ofList options.file.text) (String.ofList text)
      return report.exitCode.toUInt32
