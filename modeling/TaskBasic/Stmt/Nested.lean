import TaskBasic.Stmt

/-
The statements inside a statement.
-/

namespace TaskBasic

mutual

/-- A statement and all statements in its blocks, in reading order of the blocks; the bodies
of functions count only if `deep` holds. -/
def Stmt.nested (deep : Bool) : Stmt → List Stmt
  | .mk line kind => .mk line kind :: kind.nested deep

def StmtKind.nested (deep : Bool) : StmtKind → List Stmt
  | .ifChain branches none => branchesNested deep branches
  | .ifChain branches (some body) => branchesNested deep branches ++ blockNested deep body
  | .whileLoop _ body => blockNested deep body
  | .countLoop _ _ _ _ body => blockNested deep body
  | .eachLoop _ _ body => blockNested deep body
  | .function _ _ _ _ body => if deep then blockNested deep body else []
  | .tryBlock body handler cleanup =>
    blockNested deep body ++
      (match handler with
        | some (_, body) => blockNested deep body
        | none => []) ++
      (match cleanup with
        | some body => blockNested deep body
        | none => [])
  | .switchBlock _ cases none => casesNested deep cases
  | .switchBlock _ cases (some body) => casesNested deep cases ++ blockNested deep body
  | _ => []

def blockNested (deep : Bool) : List Stmt → List Stmt
  | [] => []
  | s :: rest => s.nested deep ++ blockNested deep rest

def branchesNested (deep : Bool) : List (Expr × List Stmt) → List Stmt
  | [] => []
  | (_, body) :: rest => blockNested deep body ++ branchesNested deep rest

def casesNested (deep : Bool) : List (List Expr × List Stmt) → List Stmt
  | [] => []
  | (_, body) :: rest => blockNested deep body ++ casesNested deep rest

end

namespace Stmt

def isReturn (s : Stmt) : Bool :=
  match s.kind with
  | .ret _ => true
  | _ => false

/-- True for `try` statements that hold a `return` of the same function. -/
def isTryWithReturn (s : Stmt) : Bool :=
  match s.kind with
  | .tryBlock _ _ _ => (s.nested false).any isReturn
  | _ => false

end Stmt

end TaskBasic
