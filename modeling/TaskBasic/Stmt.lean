import TaskBasic.Expr

/-
Statements of the program tree.

A program is a list of statements.  Every statement knows the line it begins
on; names are in lower case.
-/

namespace TaskBasic

mutual

inductive Stmt
  | mk (line : Nat) (kind : StmtKind)

inductive StmtKind
  | eval (e : Expr)
  | assign (target : Target) (value : Expr)
  /-- A declaration without a value. -/
  | declare (name : String)
  | print (items : List Expr)
  | input (target : Target) (prompt : Option Expr)
  /-- Runs the block of the first condition that holds. -/
  | ifChain (branches : List (Expr × List Stmt)) (otherwise : Option (List Stmt))
  | whileLoop (condition : Expr) (body : List Stmt)
  | countLoop (var : String) (start stop : Expr) (step : Option Expr) (body : List Stmt)
  | eachLoop (var : String) (items : Expr) (body : List Stmt)
  | function (name : String) (params : List String) (isAsync isNative : Bool) (body : List Stmt)
  | ret (value : Option Expr)
  | dim (arrays : List (String × List Expr))
  | data (items : List Expr)
  | read (targets : List Target)
  | restore
  | breakLoop
  | continueLoop
  /-- The block, the catch variable with its block, and the block that always runs. -/
  | tryBlock (body : List Stmt) (handler : Option (String × List Stmt))
      (cleanup : Option (List Stmt))
  | switchBlock (subject : Expr) (cases : List (List Expr × List Stmt))
      (otherwise : Option (List Stmt))
  | importModule (path : String)
  /-- Starts a call as a task of its own and forgets its future. -/
  | spawn (callee : Expr) (args : List Expr)
  | global (names : List String)
  | raise (e : Expr)
  /-- Prints an expression's value behind its source text. -/
  | debug (e : Expr) (text : String)

end

namespace Stmt

def line : Stmt → Nat
  | mk line _ => line

def kind : Stmt → StmtKind
  | mk _ kind => kind

end Stmt

abbrev Program := List Stmt

end TaskBasic
