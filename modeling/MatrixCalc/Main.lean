import MatrixCalc.Shell.Console

/-!
# The program

The console on the real standard streams and files. Before a line runs, the files that it names are
loaded into the tree of files; after it has run, the files that changed are written back.
-/

namespace MatrixCalc.Main

open Text

/-- The paths on the way to a path: it, the one before its last slash, and so on. -/
def ancestors (path : String) : List String :=
  let names := (FileTree.splitNames path.toList).map String.ofList
  (List.range names.length).map fun i => "/".intercalate (names.take (i + 1))

/-- The action does not fail. -/
def succeeds {α : Type} (action : IO α) : IO Bool :=
  try discard action; pure true catch _ => pure false

/-- Loads the directories on the way to a path. Only a directory can be opened with a dot behind
it. -/
def loadDirectories (files : FileTree) (path : String) : IO FileTree := do
  let mut t := files
  for dir in ancestors path do
    if ← succeeds (IO.FS.Handle.mk (dir ++ "/.") .read) then t := t.addDirectory dir
  return t

/-- Loads the file at a path, and the files that its lines run in turn, but for those already
loaded. -/
partial def loadFiles (loaded : List String) (files : FileTree) (path : String) :
    IO (List String × FileTree) := do
  if path ∈ loaded then return (loaded, files)
  let mut t ← loadDirectories files path
  let mut seen := path :: loaded
  let content? ← try some <$> IO.FS.readBinFile path catch _ => pure none
  if let some bytes := content? then
    t := t.addFile path (.ofBytes bytes)
    for line in (Content.ofBytes bytes).lines do
      if let .runFile next := Command.ofLine line then
        (seen, t) ← loadFiles seen t next
  return (seen, t)

/-- The tree of the files that a line names. -/
def filesFor (line : String) : IO FileTree :=
  match Console.redirection? line, Command.ofLine line with
  | some path, _ => do
    let t ← loadDirectories .empty path
    if ← succeeds (IO.FS.readBinFile path) then return t.addFile path (.broken [])
    return t
  | none, .runFile path => do return (← loadFiles [] .empty path).2
  | none, _ => pure .empty

/-- Writes back the files that hold another text than before. -/
def writeBack (before after : FileTree) : IO Unit := do
  for (p, e) in after.entries do
    if let .file (.text s) := e then
      if before.find? p ≠ some e then IO.FS.writeFile p.text s

/-- Closes the file that results go to, on the real file too. -/
def close (c : Console) : IO Console := do
  let closed := c.closeSink
  writeBack c.files closed.files
  return closed

/-- Reads lines until one asks to quit or they end. -/
partial def loop (input output errors : IO.FS.Stream) (c : Console) : IO Unit := do
  output.putStr Console.prompt
  output.flush
  let line ← input.getLine
  if line.isEmpty then
    output.putStr "\n"
    discard (close c)
  else
    let c ← if (Console.redirection? line).isSome then close c else pure c
    let files ← filesFor line
    let (c, status) := { c with files, out := "", err := "" }.take line
    writeBack files c.files
    output.putStr c.out
    output.flush
    errors.putStr c.err
    match status with
    | .goOn => loop input output errors c
    | .quit => discard (close c)
    | .crash crash => do
      discard (close c)
      throw (IO.userError (match crash with
        | .undecodableFile => "the file stops being a text"
        | .nullInPath => "a path holds the null character"))

end MatrixCalc.Main

def main : IO Unit := do
  let output ← IO.getStdout
  output.putStr MatrixCalc.Console.banner
  MatrixCalc.Main.loop (← IO.getStdin) output (← IO.getStderr)
    (.start (.ofStore .empty) .empty)
