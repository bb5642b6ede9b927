import TaskBasic.Operator
import TaskBasic.Value

/-
Causes of run-time errors.

Everything that can go wrong while a program runs, other than the program
asking to exit, is a `Failure`: a cause with the facts that its message names.
`Failure.message` is the text that a `catch` clause sees.
-/

namespace TaskBasic

inductive Failure
  -- operators
  | overflow
  | divisionByZero
  | operandKinds (op : BinaryOp) (left right : Kind)
  | negatedKind (kind : Kind)
  | notAnOrdering (op : BinaryOp)
  -- subscripts and iteration
  | noLength (kind : Kind)
  | indexKind (kind : Kind)
  | indexRange (index : Int64) (length : Nat)
  | missingKey (key : String)
  | keyKind (kind : Kind)
  | notIndexable (kind : Kind)
  | emptySubscript
  | immutableString
  | notAssignable (kind : Kind)
  | notIterable (kind : Kind)
  | arraySize (shown : String)
  -- names and calls
  | undefinedVariable (name : String)
  | notAFunction (shown : String)
  | arity (name : String) (expected : String) (given : Nat)
  | asyncCall (name : String)
  | callDepth (limit : Nat)
  -- builtin functions
  | appendTo (kind : Kind)
  | keysOf (kind : Kind)
  | assertion (message : Option String)
  | cannotConvert (shown : String) (target : Kind)
  | exitRange (code : Int64)
  | exitKind (kind : Kind)
  | sleepLength (shown : String)
  -- byte code that no compiler produces
  | stackUnderflow
  | noFrame
  | invalidSlot (slot : Nat)
  | invalidConstant (index : Nat)
  | notAName (kind : Kind)
  | outsideCode
  | unknownOpcode (byte : UInt8)
  | truncatedInstruction
  -- data, tasks and modules
  | outOfData
  | cannotMerge (kind : Kind)
  | stillPending
  | deadlock
  | circularImport (path : String)
  | cannotImport (request reason : String)
  | inModule (text path : String)
  /-- An error raised by the program, or the error of an awaited task. -/
  | raised (message : String)
deriving Repr, DecidableEq

def Failure.message : Failure → String
  | overflow => "Integer overflow"
  | divisionByZero => "Division by zero"
  | operandKinds op left right =>
    "Type mismatch: cannot apply '" ++ op.symbol ++ "' to " ++ left.name ++ " and " ++ right.name
  | negatedKind kind => "Type mismatch: cannot apply '-' to " ++ kind.name
  | notAnOrdering op => "'" ++ op.symbol ++ "' is not an ordering comparison"
  | noLength kind => "Cannot take the length of " ++ kind.name
  | indexKind kind => "Index must be an integer, found " ++ kind.name
  | indexRange index length =>
    "Index " ++ toString index.toInt ++ " out of range for length " ++ toString length
  | missingKey key => "Key '" ++ key ++ "' not found in dictionary"
  | keyKind kind => "Dictionary keys must be strings, found " ++ kind.name
  | notIndexable kind => "Cannot index into " ++ kind.name
  | emptySubscript => "Empty subscript"
  | immutableString => "Strings are immutable"
  | notAssignable kind => "Cannot assign into " ++ kind.name
  | notIterable kind => "Cannot iterate over " ++ kind.name
  | arraySize shown => "Array size must be a non-negative integer, found " ++ shown
  | undefinedVariable name => "Variable '" ++ name ++ "' is not defined."
  | notAFunction shown => "'" ++ shown ++ "' is not a function."
  | arity name expected given =>
    "Function '" ++ name ++ "' expected " ++ expected ++ " arguments, but got " ++ toString given
  | asyncCall name =>
    "Cannot call async function '" ++ name ++ "' synchronously; use await or spawn"
  | callDepth limit => "Stack overflow: maximum call depth of " ++ toString limit ++ " exceeded"
  | appendTo kind => "append() expects an array, found " ++ kind.name
  | keysOf kind => "keys() expects a dictionary, found " ++ kind.name
  | assertion none => "Assertion failed"
  | assertion (some message) => "Assertion failed: " ++ message
  | cannotConvert shown target => "Cannot convert " ++ shown ++ " to " ++ target.name
  | exitRange code => "Exit code " ++ toString code.toInt ++ " out of range"
  | exitKind kind => "exit() expects an int, found " ++ kind.name
  | sleepLength shown =>
    "sleep() expects a non-negative number of milliseconds, found " ++ shown
  | stackUnderflow => "Stack underflow"
  | noFrame => "No active call frame"
  | invalidSlot slot => "Invalid local slot " ++ toString slot
  | invalidConstant index => "Invalid constant index " ++ toString index
  | notAName kind => "Expected a name constant, found " ++ kind.name
  | outsideCode => "Instruction pointer out of bounds"
  | unknownOpcode byte => "Unknown opcode " ++ toString byte.toNat
  | truncatedInstruction => "Truncated instruction"
  | outOfData => "Out of DATA"
  | cannotMerge kind => "Cannot merge " ++ kind.name ++ " into globals"
  | stillPending => "Awaited future is still pending"
  | deadlock => "Deadlock: all tasks are waiting"
  | circularImport path => "Circular import of '" ++ path ++ "'"
  | cannotImport request reason => "Cannot import '" ++ request ++ "': " ++ reason
  | inModule text path => text ++ " (in module '" ++ path ++ "')"
  | raised message => message

/-- What stops a computation before it has a result. -/
inductive Fault
  /-- An ordinary failure, which a `try` statement can catch. -/
  | failure (cause : Failure)
  | exit (code : Int32)
  /-- The computation has no result: it compares values that contain themselves. -/
  | endless
deriving Repr, DecidableEq

end TaskBasic
