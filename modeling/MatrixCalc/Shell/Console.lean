import MatrixCalc.Shell.Line

/-!
# The console

The console prompts for lines and runs them. Results go to the standard output, or to a file from
the line that redirects them on. A file is emptied when it is opened; what is written to it is held
back until it is closed, by the next redirection or at the end.
-/

namespace MatrixCalc

open Text

/-- A file that results go to, and what has been written and held back. -/
structure Sink where
  place : Place
  held : String

/-- The state of a console. -/
structure Console where
  session : Session
  files : FileTree
  sink : Option Sink
  out : String
  err : String

namespace Console

/-- The line that greets. -/
def banner : String :=
  "MathLang REPL  (:q to quit  |  :vars  :reset  |  ? <expr>  inspect(<expr>))\n"

/-- The text in front of each line that is read. -/
def prompt : String := "MATH> "

/-- The console before its first line. -/
def start (s : Session) (files : FileTree) : Console := ⟨s, files, none, banner, ""⟩

/-- Writes to the standard output. -/
def print (c : Console) (s : String) : Console := { c with out := c.out ++ s }

/-- Writes results to the file they go to, or to the standard output. -/
def write (c : Console) (s : String) : Console :=
  match c.sink with
  | none => c.print s
  | some sink => { c with sink := some { sink with held := sink.held ++ s } }

/-- Closes the file that results go to. -/
def closeSink (c : Console) : Console :=
  match c.sink with
  | none => c
  | some sink => { c with files := c.files.write sink.place sink.held, sink := none }

/-- Opens a file for results; if it cannot be opened they go to the standard output. -/
def openSink (c : Console) (path : String) : Console :=
  match c.files.placeToWrite path with
  | .ok p => { c with files := c.files.write p "", sink := some ⟨p, ""⟩ }
  | .error f =>
    { c with err := c.err ++ "Error opening '" ++ path ++ "': " ++ f.message path ++ "\n" }

/-- The path of a line that redirects results, empty if they go back to the standard output. -/
def redirection? (line : String) : Option String :=
  let s := stripChars line.toList
  if s = "?>>".toList then some ""
  else ("?>> ".toList.isPrefixOf? s).map fun path => String.ofList (stripChars path)

/-- Redirects results. -/
def redirect (c : Console) (path : String) : Console × Status :=
  if path = "" then (c.closeSink, .goOn)
  else if Shell.holdsNull path then (c.closeSink, .crash .nullInPath)
  else (c.closeSink.openSink path, .goOn)

/-- Runs a line of the shell. -/
def runLine (c : Console) (line : String) : Console × Status :=
  let r := Shell.runLine c.files line c.session
  ({ c with session := r.session, err := c.err ++ r.err }.write r.out, r.status)

/-- Takes a line that was read. -/
def take (c : Console) (line : String) : Console × Status :=
  match redirection? line with
  | some path => c.redirect path
  | none => c.runLine line

/-- The end of a console: its state, how many entries it did not read, and what ended it before its
time, if anything did. -/
structure Ending where
  console : Console
  unread : Nat
  crash : Option Crash

/-- Reads entries until one asks to quit or they end. An entry that is missing is an interrupt at the
prompt. -/
def run (c : Console) : List (Option String) → Ending
  | [] => ⟨((c.print prompt).print "\n").closeSink, 0, none⟩
  | none :: entries => run ((c.print prompt).print "\n") entries
  | some line :: entries =>
    match (c.print prompt).take line with
    | (c, .goOn) => run c entries
    | (c, .quit) => ⟨c.closeSink, entries.length, none⟩
    | (c, .crash crash) => ⟨c.closeSink, entries.length, some crash⟩

end Console

end MatrixCalc
