import TaskBasic.Code.Fragment
import TaskBasic.Token.Cursor

/-
The errors that an evaluation can end with.
-/

namespace TaskBasic

structure TraceEntry where
  function : String
  line : Nat
deriving Repr, DecidableEq

/-- A run-time error that no `try` statement has caught. -/
structure UncaughtError where
  message : String
  line : Option Nat := none
  /-- The functions it arose in, innermost first. -/
  trace : List TraceEntry := []
deriving Repr, DecidableEq

namespace UncaughtError

def text (e : UncaughtError) : String :=
  match e.line with
  | some line => "Runtime error (line " ++ toString line ++ "): " ++ e.message
  | none => "Runtime error: " ++ e.message

/-- The trace as text, one function per line. -/
def traceText (e : UncaughtError) : String :=
  "\n".intercalate (e.trace.map fun t =>
    "  at " ++ t.function ++ " (line " ++ toString t.line ++ ")")

end UncaughtError

inductive EvalError
  | parsing (e : SyntaxError)
  | compiling (e : CompileError)
  | running (e : UncaughtError)
  | exit (code : Int32)
  | file (message : String)
  /-- The program compares values that contain themselves, which does not end. -/
  | endless
  /-- The program waits for something that does not happen. -/
  | hang

def EvalError.text : EvalError → String
  | parsing e => "Syntax error (line " ++ toString e.line ++ "): " ++ e.cause.message
  | compiling e => "Compile error (line " ++ toString e.line ++ "): " ++ e.cause.message
  | running e => e.text
  | exit code => "Program exited with code " ++ toString code.toInt
  | file message => "IO error: " ++ message
  | endless => "Endless comparison"
  | hang => "Endless wait"

end TaskBasic
