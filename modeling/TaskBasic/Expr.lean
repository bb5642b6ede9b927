import TaskBasic.Operator
import TaskBasic.Number.Double

/-
Expressions of the program tree.

Names are in lower case.  `true` and `false` are the ints 1 and 0.
-/

namespace TaskBasic

mutual

inductive Expr
  | int (n : Int64)
  | float (x : Double)
  | str (s : String)
  | fstring (parts : List FPart)
  /-- The literal `none`. -/
  | absent
  | var (name : String)
  | binary (op : BinaryOp) (left right : Expr)
  | neg (operand : Expr)
  | not (operand : Expr)
  | and (left right : Expr)
  | or (left right : Expr)
  | call (callee : Expr) (args : List Expr)
  | index (object : Expr) (keys : List Expr)
  | array (items : List Expr)
  | dict (entries : List (Expr × Expr))
  | await (operand : Expr)
  /-- A call that runs as a task of its own. -/
  | spawn (callee : Expr) (args : List Expr)

inductive FPart
  | text (s : String)
  | code (e : Expr)

end

inductive Target
  | var (name : String)
  | index (object : Expr) (keys : List Expr)

namespace Expr

def target? : Expr → Option Target
  | var name => some (.var name)
  | index object keys => some (.index object keys)
  | _ => none

def isNumberLiteral : Expr → Bool
  | int _ | float _ | neg (int _) | neg (float _) => true
  | _ => false

end Expr

end TaskBasic
