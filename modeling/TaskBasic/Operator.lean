/-
The binary operators.
-/

namespace TaskBasic

/-- The operators that take two values and always evaluate both. -/
inductive BinaryOp
  | add | sub | mul | div | mod
  | eq | ne | lt | le | gt | ge
deriving Repr, DecidableEq

namespace BinaryOp

def symbol : BinaryOp → String
  | add => "+"
  | sub => "-"
  | mul => "*"
  | div => "/"
  | mod => "%"
  | eq => "=="
  | ne => "!="
  | lt => "<"
  | le => "<="
  | gt => ">"
  | ge => ">="

def all : List BinaryOp := [add, sub, mul, div, mod, eq, ne, lt, le, gt, ge]

/-- Whether an ordering comparison holds for two values that stand in the order `o`;
`none` for the operators that do not compare by order. -/
def accepts? (op : BinaryOp) (o : Ordering) : Option Bool :=
  match op with
  | lt => some (o == .lt)
  | le => some (o != .gt)
  | gt => some (o == .gt)
  | ge => some (o != .lt)
  | _ => none

end BinaryOp

end TaskBasic
