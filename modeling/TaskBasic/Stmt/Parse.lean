import TaskBasic.Expr.Parse
import TaskBasic.Stmt

/-
From tokens to statements.

Statements end at a newline, a semicolon, a colon or the end of the text.
Blocks run up to a keyword that closes them or opens their next part.

As for expressions, the functions recurse on a bound of the nesting depth.
-/

namespace TaskBasic

/-- The first place, from the given one on, that no newline or colon stands behind. -/
def Cursor.pastSeparators (c : Cursor) (previous current : Token) : List Token → Cursor
  | [] => { c with previous := previous, current := current, rest := [] }
  | next :: rest =>
    match current.kind with
    | .newline | .mark .colon => c.pastSeparators current next rest
    | _ => { c with previous := previous, current := current, rest := next :: rest }

namespace Parse

def skipSeparators : Parse Unit :=
  modify fun c => c.pastSeparators c.previous c.current c.rest

/-- Passes over the end of a statement, which has to stand here. -/
def expectTerminator : Parse Unit := do
  if ← atTerminator then skipSeparators else unexpected "end of line"

def acceptElseIf : Parse Bool := do
  if ← acceptKeyword .kwElseIf then return true
  else if ← atKeyword .kwElse then
    match (← get).rest.head? with
    | some next =>
      if next.kind.isKeyword .kwIf then
        advance
        advance
        return true
      else return false
    | none => return false
  else return false

def target (fuel : Nat) : Parse Target := do
  let line ← line
  match (← parseExprAt fuel .suffix).target? with
  | some t => return t
  | none => fail line .invalidTarget

/-- Reads targets between commas; `done` are those read so far, last one first. -/
def targets : Nat → List Target → Parse (List Target)
  | 0, _ => do fail (← line) .tooDeep
  | fuel + 1, done => do
    let t ← target fuel
    if ← acceptMark .comma then targets fuel (t :: done) else return (t :: done).reverse

/-- Reads names between commas; `done` are those read so far, last one first. -/
def names : Nat → List String → Parse (List String)
  | 0, _ => do fail (← line) .tooDeep
  | fuel + 1, done => do
    let s ← expectName
    if ← acceptMark .comma then names fuel (s :: done) else return (s :: done).reverse

/-- Reads arrays with their sizes between commas; `done` are those read so far, last one
first. -/
def arrays : Nat → List (String × List Expr) → Parse (List (String × List Expr))
  | 0, _ => do fail (← line) .tooDeep
  | fuel + 1, done => do
    let name ← expectName
    let closing ← if ← acceptMark .leftBracket then pure Mark.rightBracket
      else do
        expectMark .leftParen "'[' or '('"
        pure Mark.rightParen
    let sizes ← parseExprList fuel []
    expectMark closing "closing bracket"
    if ← acceptMark .comma then arrays fuel ((name, sizes) :: done)
    else return ((name, sizes) :: done).reverse

/-- Reads the words `async` and `native` before a function. -/
def functionFlags : Nat → Bool → Bool → Parse (Bool × Bool)
  | 0, _, _ => do fail (← line) .tooDeep
  | fuel + 1, isAsync, isNative => do
    if ← acceptKeyword .kwAsync then functionFlags fuel true isNative
    else if ← acceptKeyword .kwNative then functionFlags fuel isAsync true
    else return (isAsync, isNative)

def next (var : String) : Parse Unit := do
  expectKeyword .kwNext "'next'"
  match ← kind with
  | .name s => if s == var then advance else fail (← line) (.nextMismatch var s)
  | _ => return ()

def declaration (fuel : Nat) : Parse StmtKind := do
  let t ← target fuel
  if ← acceptMark .assign then return .assign t (← parseExpr fuel)
  else
    match t with
    | .var name => return .declare name
    | .index _ _ => unexpected "'='"

def evaluation (fuel : Nat) : Parse StmtKind := do
  let e ← parseExpr fuel
  if ← atMark .assign then
    match e.target? with
    | some t =>
      advance
      return .assign t (← parseExpr fuel)
    | none => fail (← line) .invalidTarget
  else return .eval e

def importPath : Parse StmtKind := do
  match ← kind with
  | .str path =>
    advance
    return .importModule path
  | _ => unexpected "a module path string"

def spawning (fuel : Nat) : Parse StmtKind := do
  match ← parseExpr fuel with
  | .spawn callee args => return .spawn callee args
  | e => return .eval e

/-- Reads the expression behind `debug` and keeps its source text. -/
def debugging (fuel : Nat) : Parse StmtKind := do
  let start := (← get).current.start
  let e ← parseExpr fuel
  let c ← get
  return .debug e (Text.trim (Text.slice c.source start c.previous.stop))

def inputting (fuel : Nat) : Parse StmtKind := do
  let t ← target fuel
  if ← acceptMark .comma then return .input t (some (← parseExpr fuel)) else return .input t none

def functionHead (fuel : Nat) : Parse (String × List String) := do
  expectKeyword .kwFunction "'function'"
  let name ← expectName
  expectMark .leftParen "'('"
  let params ← if ← atMark .rightParen then pure [] else names fuel []
  expectMark .rightParen "')'"
  return (name, params)

def simple (fuel : Nat) : Parse StmtKind := do
  match ← kind with
  | .keyword .kwLet => advance; declaration fuel
  | .keyword .kwPrint =>
    advance
    if ← atTerminator then return .print [] else return .print (← parseExprList fuel [])
  | .keyword .kwInput => advance; inputting fuel
  | .keyword .kwReturn =>
    advance
    if ← atTerminator then return .ret none else return .ret (some (← parseExpr fuel))
  | .keyword .kwDim => advance; return .dim (← arrays fuel [])
  | .keyword .kwData => advance; return .data (← parseExprList fuel [])
  | .keyword .kwRead => advance; return .read (← targets fuel [])
  | .keyword .kwRestore => advance; return .restore
  | .keyword .kwBreak => advance; return .breakLoop
  | .keyword .kwContinue => advance; return .continueLoop
  | .keyword .kwImport => advance; importPath
  | .keyword .kwSpawn => spawning fuel
  | .keyword .kwGlobal => advance; return .global (← names fuel [])
  | .keyword .kwRaise => advance; return .raise (← parseExpr fuel)
  | .keyword .kwDebug => advance; debugging fuel
  | _ => evaluation fuel

mutual

/-- Reads statements up to one of the keywords `closing` or the end of the text; `done` are
those read so far, last one first. -/
def block : Nat → List Keyword → List Stmt → Parse (List Stmt)
  | 0, _, _ => do fail (← line) .tooDeep
  | fuel + 1, closing, done => do
    skipSeparators
    let kind ← kind
    if kind.isEof || closing.any kind.isKeyword then return done.reverse
    else
      let s ← statement fuel
      expectTerminator
      block fuel closing (s :: done)

def statement : Nat → Parse Stmt
  | 0 => do fail (← line) .tooDeep
  | fuel + 1 => do
    let line ← line
    match ← kind with
    | .keyword .kwIf =>
      advance
      return .mk line (← conditional fuel)
    | .keyword .kwWhile =>
      advance
      let condition ← parseExpr fuel
      let body ← block fuel [.kwWend] []
      expectKeyword .kwWend "'wend'"
      return .mk line (.whileLoop condition body)
    | .keyword .kwFor =>
      advance
      return .mk line (← forLoop fuel)
    | .keyword .kwFunction | .keyword .kwAsync | .keyword .kwNative =>
      let (isAsync, isNative) ← functionFlags fuel false false
      let (name, params) ← functionHead fuel
      let body ← block fuel [.kwEndFunction] []
      expectKeyword .kwEndFunction "'end function'"
      return .mk line (.function name params isAsync isNative body)
    | .keyword .kwTry =>
      advance
      return .mk line (← guarded fuel)
    | .keyword .kwSwitch =>
      advance
      let subject ← parseExpr fuel
      let (cases, otherwise) ← arms fuel [] none
      return .mk line (.switchBlock subject cases otherwise)
    | _ => return .mk line (← simple fuel)

def conditional : Nat → Parse StmtKind
  | 0 => do fail (← line) .tooDeep
  | fuel + 1 => do
    let condition ← parseExpr fuel
    let _ ← acceptKeyword .kwThen
    if ← atTerminator then
      let body ← block fuel [.kwElseIf, .kwElse, .kwEndIf] []
      let (branches, otherwise) ← branches fuel [(condition, body)]
      return .ifChain branches otherwise
    else
      let s ← statement fuel
      if ← acceptKeyword .kwElse then
        return .ifChain [(condition, [s])] (some [← statement fuel])
      else return .ifChain [(condition, [s])] none

/-- Reads the further branches of an `if` in block form; `done` are those read so far, last
one first. -/
def branches : Nat → List (Expr × List Stmt) →
    Parse (List (Expr × List Stmt) × Option (List Stmt))
  | 0, _ => do fail (← line) .tooDeep
  | fuel + 1, done => do
    if ← acceptElseIf then
      let condition ← parseExpr fuel
      let _ ← acceptKeyword .kwThen
      let body ← block fuel [.kwElseIf, .kwElse, .kwEndIf] []
      branches fuel ((condition, body) :: done)
    else if ← acceptKeyword .kwElse then
      let body ← block fuel [.kwEndIf] []
      expectKeyword .kwEndIf "'end if'"
      return (done.reverse, some body)
    else
      expectKeyword .kwEndIf "'end if'"
      return (done.reverse, none)

def forLoop : Nat → Parse StmtKind
  | 0 => do fail (← line) .tooDeep
  | fuel + 1 => do
    if ← acceptKeyword .kwEach then
      let var ← expectName
      expectKeyword .kwIn "'in'"
      let items ← parseExpr fuel
      let body ← block fuel [.kwNext] []
      next var
      return .eachLoop var items body
    else
      let var ← expectName
      expectMark .assign "'='"
      let start ← parseExpr fuel
      expectKeyword .kwTo "'to'"
      let stop ← parseExpr fuel
      let step ← if ← acceptKeyword .kwStep then some <$> parseExpr fuel else pure none
      let body ← block fuel [.kwNext] []
      next var
      return .countLoop var start stop step body

def guarded : Nat → Parse StmtKind
  | 0 => do fail (← line) .tooDeep
  | fuel + 1 => do
    let body ← block fuel [.kwCatch, .kwFinally, .kwEndTry] []
    let handler ← if ← acceptKeyword .kwCatch then do
        let var ← expectName
        let handler ← block fuel [.kwFinally, .kwEndTry] []
        pure (some (var, handler))
      else pure none
    let cleanup ← if ← acceptKeyword .kwFinally then some <$> block fuel [.kwEndTry] []
      else pure none
    if handler.isNone && cleanup.isNone then unexpected "'catch' or 'finally'"
    else
      expectKeyword .kwEndTry "'end try'"
      return .tryBlock body handler cleanup

/-- Reads the arms of a `switch`; `done` are those read so far, last one first. -/
def arms : Nat → List (List Expr × List Stmt) → Option (List Stmt) →
    Parse (List (List Expr × List Stmt) × Option (List Stmt))
  | 0, _, _ => do fail (← line) .tooDeep
  | fuel + 1, done, otherwise => do
    skipSeparators
    if ← acceptKeyword .kwCase then
      let values ← parseExprList fuel []
      let body ← block fuel [.kwCase, .kwDefault, .kwEndSwitch] []
      arms fuel ((values, body) :: done) otherwise
    else if ← acceptKeyword .kwDefault then
      if otherwise.isSome then fail (← get).previous.line .duplicateDefault
      else
        let body ← block fuel [.kwCase, .kwDefault, .kwEndSwitch] []
        arms fuel done (some body)
    else
      expectKeyword .kwEndSwitch "'case', 'default' or 'end switch'"
      return (done.reverse, otherwise)

end

def program (fuel : Nat) : Parse Program := do
  let body ← block fuel [] []
  if ← atEof then return body else unexpected "a statement"

end Parse

def Program.ofText (source : String) : Except SyntaxError Program :=
  (Parse.program (parseFuel source.length) (Cursor.ofText source 1)).map (·.1)

end TaskBasic
