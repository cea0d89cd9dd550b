import MatrixCalc.Eval
import MatrixCalc.Source.Parser

/-!
# Sessions

A session keeps the store, the values of all statements that succeeded since the last reset, and the
value of the latest one. A session is driven by requests; a request that fails leaves the session as
far as its statements got.
-/

namespace MatrixCalc

/-- Why a request fails: its text is no program, or a tree has no value. -/
inductive Error where
  | parse (e : ParseError)
  | fault (f : Fault)
deriving DecidableEq, Repr

/-- The message of an error. -/
def Error.message : Error → String
  | .parse e => e.message
  | .fault f => f.message

/-- The state of a session. -/
structure Session where
  store : Store
  results : List Value
  last : Option Value

namespace Session

/-- The session that starts with the given variables. -/
def ofStore (s : Store) : Session := ⟨s, [], none⟩

/-- The session with one more result. -/
def record (s : Session) (v : Value) : Session := ⟨s.store, s.results ++ [v], some v⟩

/-- Evaluates a statement and records its value. -/
def run (s : Session) (t : Tree) : Except Fault Value × Session :=
  match t.eval s.store with
  | (.ok v, store) => (.ok v, { s with store }.record v)
  | (.error f, store) => (.error f, { s with store })

/-- Runs statements in order up to the first that fails. -/
def runAll (s : Session) : List Tree → Except Fault Unit × Session
  | [] => (.ok (), s)
  | t :: ts =>
    match s.run t with
    | (.ok _, s) => s.runAll ts
    | (.error f, s) => (.error f, s)

/-- Runs a program. A program without statements forgets the latest value. -/
def merge (s : Session) (ts : List Tree) : Except Fault Unit × Session :=
  runAll (if ts.isEmpty then { s with last := none } else s) ts

/-- Runs the program that a text holds, and gives its latest value. -/
def evalText (s : Session) (text : String) : Except Error (Option Value) × Session :=
  match parseProgram text with
  | .error e => (.error (.parse e), s)
  | .ok ts =>
    match s.merge ts with
    | (.ok _, s) => (.ok s.last, s)
    | (.error f, s) => (.error (.fault f), s)

/-- The value of the statement that a text holds. A printed expression is evaluated and not
recorded; an assignment is run. -/
def valueOf (s : Session) (text : String) : Except Error Value × Session :=
  match parseStatement text with
  | .error e => (.error (.parse e), s)
  | .ok (.print t) =>
    let (r, store) := t.eval s.store
    (r.mapError .fault, { s with store })
  | .ok t =>
    let (r, s) := s.run t
    (r.mapError .fault, s)

/-- The session without variables and results. -/
def reset (_ : Session) : Session := ofStore .empty

end Session

/-- What can be asked of a session. -/
inductive Request where
  | eval (text : String)
  | valueOf (text : String)
  | run (t : Tree)
  | merge (ts : List Tree)
  | reset

/-- The answer to a request, a value if there is one, and the session behind it. -/
def Session.answer (s : Session) : Request → Except Error (Option Value) × Session
  | .eval text => s.evalText text
  | .valueOf text =>
    let (r, s) := s.valueOf text
    (r.map some, s)
  | .run t =>
    let (r, s) := s.run t
    ((r.mapError .fault).map some, s)
  | .merge ts =>
    let (r, s) := s.merge ts
    ((r.mapError .fault).map fun _ => none, s)
  | .reset => (.ok none, s.reset)

end MatrixCalc
