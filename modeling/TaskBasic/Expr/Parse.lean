import TaskBasic.Expr
import TaskBasic.Token.Cursor

/-
From tokens to expressions.

Operators bind, from loosest to tightest: `or`; `and`; `not`; comparisons; `+`
and `-`; `*`, `/` and `%`; the signs; `await` and `spawn`; calls and
subscripts.  All binary operators group to the left.  A `Level` says how
tightly the outermost operator of an expression has to bind.

The functions recurse on a bound of the nesting depth, which `parseFuel`
computes from the length of the text.
-/

namespace TaskBasic

/-- How tightly an operator binds, from loosest to tightest. -/
inductive Level
  | disjunction | conjunction | negation | comparison | sum | product | sign | task | suffix
deriving Repr, DecidableEq

namespace Level

def operator? (level : Level) (kind : TokenKind) : Option (Expr → Expr → Expr) :=
  match level, kind with
  | disjunction, .keyword .kwOr => some .or
  | conjunction, .keyword .kwAnd => some .and
  | comparison, .mark .equalEqual => some (.binary .eq)
  | comparison, .mark .bangEqual => some (.binary .ne)
  | comparison, .mark .less => some (.binary .lt)
  | comparison, .mark .lessEqual => some (.binary .le)
  | comparison, .mark .greater => some (.binary .gt)
  | comparison, .mark .greaterEqual => some (.binary .ge)
  | sum, .mark .plus => some (.binary .add)
  | sum, .mark .minus => some (.binary .sub)
  | product, .mark .star => some (.binary .mul)
  | product, .mark .slash => some (.binary .div)
  | product, .mark .percent => some (.binary .mod)
  | _, _ => none

end Level

def literal? : TokenKind → Option Expr
  | .int n => some (.int n)
  | .float x => some (.float x)
  | .str s => some (.str s)
  | .keyword .kwTrue => some (.int 1)
  | .keyword .kwFalse => some (.int 0)
  | .keyword .kwNone => some .absent
  | .name s => some (.var s)
  | _ => none

def leastInt : Int64 := Int64.ofInt (-9223372036854775808)

mutual

/-- Reads an expression whose outermost operator binds at least as tightly as `level`. -/
def parseExprAt : Nat → Level → Parse Expr
  | 0, _ => do Parse.fail (← Parse.line) .tooDeep
  | fuel + 1, level =>
    match level with
    | .disjunction => do parseChain fuel .disjunction .conjunction (← parseExprAt fuel .conjunction)
    | .conjunction => do parseChain fuel .conjunction .negation (← parseExprAt fuel .negation)
    | .negation => do
      if ← Parse.acceptKeyword .kwNot then return .not (← parseExprAt fuel .negation)
      else parseExprAt fuel .comparison
    | .comparison => do parseChain fuel .comparison .sum (← parseExprAt fuel .sum)
    | .sum => do parseChain fuel .sum .product (← parseExprAt fuel .product)
    | .product => do parseChain fuel .product .sign (← parseExprAt fuel .sign)
    | .sign => do
      if ← Parse.acceptMark .minus then
        match ← Parse.kind with
        | .leastMagnitude =>
          Parse.advance
          return .int leastInt
        | _ => return .neg (← parseExprAt fuel .sign)
      else if ← Parse.acceptMark .plus then parseExprAt fuel .sign
      else parseExprAt fuel .task
    | .task => do
      if ← Parse.acceptKeyword .kwAwait then return .await (← parseExprAt fuel .task)
      else if ← Parse.acceptKeyword .kwSpawn then
        let line ← Parse.line
        match ← parseExprAt fuel .suffix with
        | .call callee args => return .spawn callee args
        | _ => Parse.fail line .spawnWithoutCall
      else parseExprAt fuel .suffix
    | .suffix => do parseSuffixes fuel (← parsePrimary fuel)

/-- Reads the operators of `level` behind a first operand, with their right operands, which
bind at least as tightly as `tighter`. -/
def parseChain : Nat → Level → Level → Expr → Parse Expr
  | 0, _, _, _ => do Parse.fail (← Parse.line) .tooDeep
  | fuel + 1, level, tighter, left => do
    match level.operator? (← Parse.kind) with
    | some op =>
      Parse.advance
      let right ← parseExprAt fuel tighter
      parseChain fuel level tighter (op left right)
    | none => return left

/-- Reads the calls and subscripts behind an expression. -/
def parseSuffixes : Nat → Expr → Parse Expr
  | 0, _ => do Parse.fail (← Parse.line) .tooDeep
  | fuel + 1, e => do
    if ← Parse.acceptMark .leftParen then
      let args ← if ← Parse.atMark .rightParen then pure [] else parseExprList fuel []
      Parse.expectMark .rightParen "')'"
      parseSuffixes fuel (.call e args)
    else if ← Parse.acceptMark .leftBracket then
      let keys ← parseExprList fuel []
      Parse.expectMark .rightBracket "']'"
      parseSuffixes fuel (.index e keys)
    else return e

/-- Reads a literal, a name, or an expression in brackets. -/
def parsePrimary : Nat → Parse Expr
  | 0 => do Parse.fail (← Parse.line) .tooDeep
  | fuel + 1 => do
    match ← Parse.kind with
    | .leastMagnitude =>
      Parse.fail (← Parse.line) (.scan (.tooLarge (toString leastMagnitude)))
    | .fstring pieces =>
      let line ← Parse.line
      Parse.advance
      return .fstring (← parseFParts fuel line [] pieces)
    | .mark .leftParen =>
      Parse.advance
      let e ← parseExprAt fuel .disjunction
      Parse.expectMark .rightParen "')'"
      return e
    | .mark .leftBracket =>
      Parse.advance
      let items ← if ← Parse.atMark .rightBracket then pure [] else parseExprList fuel []
      Parse.expectMark .rightBracket "']'"
      return .array items
    | .mark .leftBrace =>
      Parse.advance
      let entries ← if ← Parse.atMark .rightBrace then pure [] else parseEntries fuel []
      Parse.expectMark .rightBrace "'\x7d'"
      return .dict entries
    | kind =>
      match literal? kind with
      | some e =>
        Parse.advance
        return e
      | none => Parse.unexpected "an expression"

/-- Reads expressions between commas; `done` are those read so far, last one first. -/
def parseExprList : Nat → List Expr → Parse (List Expr)
  | 0, _ => do Parse.fail (← Parse.line) .tooDeep
  | fuel + 1, done => do
    let e ← parseExprAt fuel .disjunction
    if ← Parse.acceptMark .comma then parseExprList fuel (e :: done)
    else return (e :: done).reverse

def parseEntries : Nat → List (Expr × Expr) → Parse (List (Expr × Expr))
  | 0, _ => do Parse.fail (← Parse.line) .tooDeep
  | fuel + 1, done => do
    let key ← parseExprAt fuel .disjunction
    Parse.expectMark .colon "':'"
    let value ← parseExprAt fuel .disjunction
    if ← Parse.acceptMark .comma then parseEntries fuel ((key, value) :: done)
    else return ((key, value) :: done).reverse

/-- Reads the expressions in the pieces of an f-string that begins on `line`; `done` are the
parts read so far, last one first. -/
def parseFParts : Nat → Nat → List FPart → List FPiece → Parse (List FPart)
  | 0, _, _, _ => do Parse.fail (← Parse.line) .tooDeep
  | fuel + 1, line, done, pieces =>
    match pieces with
    | [] => return done.reverse
    | .text s :: pieces => parseFParts fuel line (.text s :: done) pieces
    | .code source _ :: pieces => do
      if Text.isBlankText source then Parse.fail line (.scan .emptyCode)
      match parseExprAt fuel .disjunction (Cursor.ofText source line) with
      | .error e => throw e
      | .ok (e, inner) =>
        if inner.current.kind.isEof then parseFParts fuel line (.code e :: done) pieces
        else throw (inner.unexpected "'\x7d' in f-string")

end

/-- Enough for every text with `n` characters: each token is read within so many levels. -/
def parseFuel (n : Nat) : Nat := 16 * (n + 2)

def parseExpr (fuel : Nat) : Parse Expr :=
  parseExprAt fuel .disjunction

def Expr.ofText (source : String) : Except SyntaxError Expr :=
  (parseExpr (parseFuel source.length) (Cursor.ofText source 1)).map (·.1)

end TaskBasic
