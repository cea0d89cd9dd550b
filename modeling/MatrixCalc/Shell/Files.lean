import MatrixCalc.Shell.Content
import MatrixCalc.Text.Quoted

/-!
# The tree of files

The shell reads files and writes into them. The tree holds what stands in and around the working
directory: directories, and files with their contents. A path is walked name by name from the
working directory, or from the root if a slash stands first; empty names and single dots stay where
they are, and two dots go up. Only directories can be walked through.

The working directory has no name from outside: a path that goes up and comes down again, or starts at
the root, does not lead back into it. Every place has one way to it, because there are no links, and
every file can be read and written, because there are no permissions.
-/

namespace MatrixCalc

/-- A place in the tree: the names on the way to it, the last one first. The way starts at the
working directory, or above it with two dots for each step up, or with a slash at the root. -/
abbrev Place := List String

namespace Place

/-- The working directory. -/
def working : Place := []

/-- The root. -/
def root : Place := ["/"]

/-- The place one step up. The root is above itself. -/
def up : Place → Place
  | [] => [".."]
  | ["/"] => ["/"]
  | ".." :: p => ".." :: ".." :: p
  | _ :: p => p

/-- The place is the root, or the working directory or one above it. -/
def isGiven (p : Place) : Bool := p == root || p.all (· == "..")

/-- The place is inside the working directory. -/
def isInside (p : Place) : Bool := p.all fun name => name != ".." && name != "/"

/-- A path to a place. -/
def text : Place → String
  | [] => "."
  | [name] => name
  | name :: p => text p ++ "/" ++ name

end Place

/-- What stands at a place. -/
inductive Entry where
  | directory
  | file (c : Content)
deriving DecidableEq, Repr

/-- Why a file cannot be opened. -/
inductive FileFault where
  | notFound
  | notADirectory
  | isADirectory
  | tooManyOpen
  | nameTooLong
deriving DecidableEq, Repr

/-- The message of a fault, for a path as it was typed. -/
def FileFault.message (f : FileFault) (path : String) : String :=
  (match f with
    | .notFound => "[Errno 2] No such file or directory: "
    | .notADirectory => "[Errno 20] Not a directory: "
    | .isADirectory => "[Errno 21] Is a directory: "
    | .tooManyOpen => "[Errno 24] Too many open files: "
    | .nameTooLong => "[Errno 36] File name too long: ") ++ Text.quoted path

/-- Directories and files by their places, with no place twice. -/
structure FileTree where
  entries : List (Place × Entry)

namespace FileTree

/-- A tree without files. -/
def empty : FileTree := ⟨[]⟩

/-- What stands at a place. -/
def find? (t : FileTree) (p : Place) : Option Entry :=
  if p.isGiven then some .directory else t.entries.lookup p

/-- The entries with one of them replaced, or added at the end. -/
def putIn (p : Place) (e : Entry) : List (Place × Entry) → List (Place × Entry)
  | [] => [(p, e)]
  | x :: xs => if x.1 = p then (p, e) :: xs else x :: putIn p e xs

/-- Puts an entry at a place. -/
def put (t : FileTree) (p : Place) (e : Entry) : FileTree := ⟨putIn p e t.entries⟩

/-- The names of a path: the stretches between slashes. -/
def splitNames : List Char → List (List Char)
  | [] => [[]]
  | c :: s =>
    match splitNames s with
    | [] => [[c]]
    | name :: names => if c = '/' then [] :: name :: names else (c :: name) :: names

/-- The names to walk, without those that stay where they are. -/
def steps (path : String) : List String :=
  ((splitNames path.toList).map String.ofList).filter fun name => name != ""

/-- The place where a walk starts. -/
def startOf (path : String) : Place :=
  if path.toList.head? = some '/' then Place.root else Place.working

/-- The path ends in a slash, so it can only name a directory. -/
def endsInSlash (path : String) : Bool := path.toList.getLast? == some '/'

/-- What a path leads to. -/
inductive Target where
  | directory
  | file (p : Place) (c : Content)
  | missing (p : Place)
  /-- The last name is longer than any that a directory holds. -/
  | overlong

/-- The most bytes that a name may have. -/
def maxNameBytes : Nat := 255

/-- The most bytes that a path may have. -/
def maxPathBytes : Nat := 4095

/-- Walks from a place. -/
def walk (t : FileTree) : Place → List String → Except FileFault Target
  | _, [] => .ok .directory
  | p, name :: names =>
    if name = "." then t.walk p names
    else if name = ".." then t.walk p.up names
    else if maxNameBytes < name.utf8ByteSize then
      if names = [] then .ok .overlong else .error .nameTooLong
    else
      match t.find? (name :: p) with
      | some .directory => t.walk (name :: p) names
      | some (.file c) => if names = [] then .ok (.file (name :: p) c) else .error .notADirectory
      | none => if names = [] then .ok (.missing (name :: p)) else .error .notFound

/-- What a path leads to. -/
def resolve (t : FileTree) (path : String) : Except FileFault Target :=
  if maxPathBytes < path.utf8ByteSize then .error .nameTooLong
  else t.walk (startOf path) (steps path)

/-- The content of the file at a path. -/
def read (t : FileTree) (path : String) : Except FileFault Content :=
  match t.resolve path with
  | .error f => .error f
  | .ok .directory => .error .isADirectory
  | .ok (.missing _) => .error .notFound
  | .ok .overlong => .error .nameTooLong
  | .ok (.file _ c) => if endsInSlash path then .error .notADirectory else .ok c

/-- The place at which a file is opened for writing. -/
def placeToWrite (t : FileTree) (path : String) : Except FileFault Place :=
  match t.resolve path with
  | .error f => .error f
  | .ok .directory => .error .isADirectory
  | .ok (.missing p) => if endsInSlash path then .error .isADirectory else .ok p
  | .ok .overlong => if endsInSlash path then .error .isADirectory else .error .nameTooLong
  | .ok (.file p _) => if endsInSlash path then .error .isADirectory else .ok p

/-- Writes the whole text of a file. -/
def write (t : FileTree) (p : Place) (s : String) : FileTree := t.put p (.file (.text s))

/-- The place of a path, whatever stands on the way. -/
def placeOf (path : String) : Place :=
  (steps path).foldl
    (fun p name => if name = "." then p else if name = ".." then p.up else name :: p)
    (startOf path)

/-- Makes a directory, and those on the way to it. -/
def makeDirectory (t : FileTree) : Place → FileTree
  | [] => t
  | name :: p =>
    if Place.isGiven (name :: p) then t else (t.makeDirectory p).put (name :: p) .directory

/-- The tree with a directory at a path. -/
def addDirectory (t : FileTree) (path : String) : FileTree := t.makeDirectory (placeOf path)

/-- The tree with a file at a path. -/
def addFile (t : FileTree) (path : String) (c : Content) : FileTree :=
  (t.makeDirectory (placeOf path).up).put (placeOf path) (.file c)

/-- The number of files in the tree. -/
def fileCount (t : FileTree) : Nat :=
  t.entries.countP fun e =>
    match e.2 with
    | .file _ => true
    | .directory => false

/-- The files inside the working directory that are new or hold another text than before, by their
paths. -/
def changesFrom (t before : FileTree) : List (String × String) :=
  t.entries.filterMap fun (p, e) =>
    match e with
    | .file (.text s) =>
      if p.isInside ∧ before.find? p ≠ some (.file (.text s)) then some (p.text, s) else none
    | _ => none

end FileTree

end MatrixCalc
