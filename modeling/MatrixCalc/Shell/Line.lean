import MatrixCalc.Session
import MatrixCalc.Shell.Command
import MatrixCalc.Shell.Files
import MatrixCalc.Text.Join

/-!
# Running a line

A line is read as a command and run against a session. The reply holds what the command writes to
the destination of results and to the channel of errors, and whether the session goes on. A file is
run line by line; its lines may run further files, as deep as there are files, since a deeper
inclusion would be circular.
-/

namespace MatrixCalc

open Text

/-- What ends the whole shell at once. -/
inductive Crash where
  /-- A file was read that stops being a text. -/
  | undecodableFile
  /-- A path holds the null character. -/
  | nullInPath
deriving DecidableEq, Repr

/-- Whether the session goes on. -/
inductive Status where
  | goOn
  | quit
  | crash (c : Crash)
deriving DecidableEq, Repr

/-- What a line leaves behind. The texts are what the program itself writes to the destination and to the
error channel; warnings that floating-point arithmetic may print on its own are not among them. -/
structure Reply where
  session : Session
  out : String
  err : String
  status : Status

namespace Reply

/-- Nothing is written. -/
def silent (s : Session) : Reply := ⟨s, "", "", .goOn⟩

/-- A text and a line end are written to the destination. -/
def say (s : Session) (text : String) : Reply := ⟨s, text ++ "\n", "", .goOn⟩

/-- An error is reported. -/
def refuse (s : Session) (e : Error) : Reply := ⟨s, "", "Error: " ++ e.message ++ "\n", .goOn⟩

/-- What was written before comes first. -/
def after (out err : String) (r : Reply) : Reply := { r with out := out ++ r.out, err := err ++ r.err }

end Reply

namespace Shell

/-- Shows the value of a text by one of the renderings. -/
def showValue (rendering : Value → String) (s : Session) (text : String) : Reply :=
  match s.valueOf text with
  | (.ok v, s) => .say s (rendering v)
  | (.error e, s) => .refuse s e

/-- Runs statements up to the first that fails, and writes what is printed. -/
def runTrees (s : Session) : List Tree → Reply
  | [] => .silent s
  | t :: ts =>
    match s.run t with
    | (.ok v, s) => (runTrees s ts).after (if t.isPrint then v.render ++ "\n" else "") ""
    | (.error f, s) => .refuse s (.fault f)

/-- Runs the statements of a text. -/
def runText (s : Session) (text : String) : Reply :=
  match parseProgram text with
  | .error e => .refuse s (.parse e)
  | .ok ts => runTrees s ts

/-- The line of a variable in the listing. -/
def variableLine (width : Nat) (b : String × Value) : String :=
  "  " ++ padRight width b.1 ++ " : " ++ padRight 6 b.2.kind.text ++ " = " ++ b.2.render ++ "\n"

/-- The listing of all variables, the names padded to the longest. -/
def variablesText (s : Store) : String :=
  if s.bindings.isEmpty then "  (no variables defined)\n"
  else
    let width := (s.names.map String.length).foldl max 0
    concat (s.bindings.map (variableLine width))

/-- Runs lines in order. A line that asks to quit does not end them; a crash does. -/
def runLines (run : String → Session → Reply) : List String → Session → Reply
  | [], s => .silent s
  | line :: lines, s =>
    let r := run line s
    match r.status with
    | .crash _ => r
    | _ => (runLines run lines r.session).after r.out r.err

/-- Reports why a file cannot be read. -/
def refuseFile (s : Session) (path : String) (f : FileFault) : Reply :=
  ⟨s, "", "Error reading '" ++ path ++ "': " ++ f.message path ++ "\n", .goOn⟩

/-- The path holds the null character, which no path can. -/
def holdsNull (path : String) : Bool := path.toList.any fun c => c.toNat == 0

/-- The reply to a file's lines: bytes that are no text end the shell. -/
def endFile (c : Content) (r : Reply) : Reply :=
  match c, r.status with
  | .broken _, .goOn => { r with status := .crash .undecodableFile }
  | _, _ => r

/-- Runs a line that may run files, these again files, and so on to the given depth. -/
def runLineWithin (files : FileTree) : (depth : Nat) → (line : String) → Session → Reply
  | depth, line, s =>
    match Command.ofLine line with
    | .skip => .silent s
    | .quit => ⟨s, "", "", .quit⟩
    | .variables => ⟨s, variablesText s.store, "", .goOn⟩
    | .reset => .silent s.reset
    | .runFile path =>
      if holdsNull path then ⟨s, "", "", .crash .nullInPath⟩
      else
        match files.read path, depth with
        | .error f, _ => refuseFile s path f
        | .ok _, 0 => refuseFile s path .tooManyOpen
        | .ok content, depth + 1 =>
          endFile content (runLines (runLineWithin files depth) content.lines s)
    | .inspect text => showValue Value.inspect s text
    | .display text => showValue Value.inline s text
    | .statements text => runText s text

/-- Runs a line. -/
def runLine (files : FileTree) (line : String) (s : Session) : Reply :=
  runLineWithin files (files.fileCount + 1) line s

end Shell

end MatrixCalc
