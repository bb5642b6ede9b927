import TaskBasic.World.Tick

/-
Sessions: several evaluations one after the other.

The globals, the heap and the loaded modules stay from one evaluation to the
next, whether it succeeds or not.
-/

namespace TaskBasic

/-- What stays from one evaluation to the next. -/
structure Session where
  shared : Shared := {}
  program : ProgramState := {}

namespace Session

/-- The milliseconds after which an evaluation counts as waiting for ever. -/
def patience : Nat := 1000000000

/-- Runs a compiled program, with at most `fuel` steps.  In the round that the program begins
in, timed work has been done `done` times already. -/
def run (fuel : Nat) (s : Session) (c : Compiled) (done : Nat) :
    Session × Except EvalError Value :=
  let w : World :=
    { shared := s.shared, limit := s.shared.env.now + patience, allowance := roundAllowance - done }
  match (w.start c s.program none).run fuel with
  | .ended w program result => ({ shared := w.shared, program := program }, result)
  | .going w => ({ s with shared := w.shared }, .error .hang)
  | .hang w => ({ s with shared := w.shared }, .error .hang)

/-- Evaluates a text.  If `interactive` holds, the result is the value of its last statement,
should that be an expression. -/
def eval (fuel : Nat) (s : Session) (source : String) (interactive : Bool) :
    Session × Except EvalError Value :=
  match compileText source interactive s.shared.heap.functions.size with
  | .error e => (s, .error e)
  | .ok c => s.run fuel c 0

def globalsDict (s : Session) : Session × Value :=
  let (h, dict) := s.shared.heap.newDict s.program.globals
  ({ s with shared := { s.shared with heap := h } }, .dict dict)

/-- Runs the compiled program of the file with a canonical path, in the round in which the
file has been read.  Meanwhile imports start from its directory, and it counts as a module
being loaded. -/
def runFile (fuel : Nat) (s : Session) (path : String) (c : Compiled) :
    Session × Except EvalError Value :=
  let (h, loading) := s.shared.heap.newPromise {}
  let inside : Session := {
    shared := { s.shared with heap := h, modules := s.shared.modules.begin path loading }
    program := { s.program with baseDir := Path.directory path, path := some path } }
  let (after, result) := inside.run fuel c 1
  let (after, outcome) := match result with
    | .ok _ =>
      let (after, globals) := after.globalsDict
      (after, Except.ok globals)
    | .error e => (after, Except.error e.text)
  ({ shared := { after.shared with
      heap := after.shared.heap.modifyPromise loading (·.settle outcome)
      modules := after.shared.modules.erase path }
     program := { after.program with baseDir := s.program.baseDir, path := s.program.path } },
    result)

def evalFile (fuel : Nat) (s : Session) (path : String) : Session × Except EvalError Value :=
  let files := s.shared.env.files
  match files.read path with
  | .error e => (s, .error (.file ("Failed to read " ++ path ++ ": " ++ e.message)))
  | .ok source =>
    match compileText source false s.shared.heap.functions.size with
    | .error e => (s, .error e)
    | .ok c =>
      match files.canonical path with
      | .error e => (s, .error (.file e.message))
      | .ok canonical => s.runFile fuel canonical c

def evalFiles (fuel : Nat) (s : Session) (paths : List String) :
    Session × List (Except EvalError Value) :=
  let (s, results) := paths.foldl (fun (s, results) path =>
    let (s, result) := s.evalFile fuel path
    (s, result :: results)) (s, [])
  (s, results.reverse)

def setGlobal (s : Session) (name : String) (v : Value) : Session :=
  { s with program := { s.program with globals := s.program.globals.insert name v } }

def clearGlobals (s : Session) : Session :=
  { s with program := { s.program with globals := ∅ } }

def setBaseDir (s : Session) (dir : String) : Session :=
  { s with program := { s.program with baseDir := dir } }

def modifyFiles (s : Session) (f : Files → Files) : Session :=
  { s with
    shared := { s.shared with env := { s.shared.env with files := f s.shared.env.files } } }

end Session

end TaskBasic
