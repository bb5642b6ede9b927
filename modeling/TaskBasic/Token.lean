import TaskBasic.Number.Shortest

/-
Tokens.

A token is a stretch of the source text with the line it begins on: a literal,
a name, a keyword, a mark, the end of a line or of the text, or a mistake.
-/

namespace TaskBasic

/-- The keywords.  `end if` and the like count as one keyword, as does `endif`. -/
inductive Keyword
  | kwLet | kwPrint | kwInput | kwIf | kwThen | kwElse | kwElseIf | kwEndIf | kwWhile
  | kwWend | kwFor | kwEach | kwIn | kwTo | kwStep | kwNext | kwFunction | kwEndFunction
  | kwReturn | kwAsync | kwNative | kwDim | kwData | kwRead | kwRestore | kwBreak
  | kwContinue | kwTry | kwCatch | kwFinally | kwEndTry | kwSwitch | kwCase | kwDefault
  | kwEndSwitch | kwImport | kwSpawn | kwAwait | kwGlobal | kwRaise | kwDebug | kwAnd | kwOr
  | kwNot | kwTrue | kwFalse | kwNone | kwEnd
deriving Repr, DecidableEq

namespace Keyword

def name : Keyword → String
  | kwLet => "Let"
  | kwPrint => "Print"
  | kwInput => "Input"
  | kwIf => "If"
  | kwThen => "Then"
  | kwElse => "Else"
  | kwElseIf => "ElseIf"
  | kwEndIf => "EndIf"
  | kwWhile => "While"
  | kwWend => "Wend"
  | kwFor => "For"
  | kwEach => "Each"
  | kwIn => "In"
  | kwTo => "To"
  | kwStep => "Step"
  | kwNext => "Next"
  | kwFunction => "Function"
  | kwEndFunction => "EndFunction"
  | kwReturn => "Return"
  | kwAsync => "Async"
  | kwNative => "Native"
  | kwDim => "Dim"
  | kwData => "Data"
  | kwRead => "Read"
  | kwRestore => "Restore"
  | kwBreak => "Break"
  | kwContinue => "Continue"
  | kwTry => "Try"
  | kwCatch => "Catch"
  | kwFinally => "Finally"
  | kwEndTry => "EndTry"
  | kwSwitch => "Switch"
  | kwCase => "Case"
  | kwDefault => "Default"
  | kwEndSwitch => "EndSwitch"
  | kwImport => "Import"
  | kwSpawn => "Spawn"
  | kwAwait => "Await"
  | kwGlobal => "Global"
  | kwRaise => "Raise"
  | kwDebug => "Debug"
  | kwAnd => "And"
  | kwOr => "Or"
  | kwNot => "Not"
  | kwTrue => "True"
  | kwFalse => "False"
  | kwNone => "NoneLiteral"
  | kwEnd => "End"

def words : List (String × Keyword) := [
  ("let", kwLet), ("print", kwPrint), ("input", kwInput), ("if", kwIf), ("then", kwThen),
  ("else", kwElse), ("elseif", kwElseIf), ("endif", kwEndIf), ("while", kwWhile),
  ("wend", kwWend), ("for", kwFor), ("each", kwEach), ("in", kwIn), ("to", kwTo),
  ("step", kwStep), ("next", kwNext), ("function", kwFunction),
  ("endfunction", kwEndFunction), ("return", kwReturn), ("async", kwAsync),
  ("native", kwNative), ("dim", kwDim), ("data", kwData), ("read", kwRead),
  ("restore", kwRestore), ("break", kwBreak), ("continue", kwContinue), ("try", kwTry),
  ("catch", kwCatch), ("finally", kwFinally), ("endtry", kwEndTry), ("switch", kwSwitch),
  ("case", kwCase), ("default", kwDefault), ("endswitch", kwEndSwitch), ("import", kwImport),
  ("spawn", kwSpawn), ("await", kwAwait), ("global", kwGlobal), ("raise", kwRaise),
  ("debug", kwDebug), ("and", kwAnd), ("or", kwOr), ("not", kwNot), ("true", kwTrue),
  ("false", kwFalse), ("none", kwNone), ("end", kwEnd)]

def ofWord? (word : String) : Option Keyword :=
  words.lookup word

/-- The keyword that `end` and a second word form. -/
def ofEndWord? (word : String) : Option Keyword :=
  match word with
  | "if" => some kwEndIf
  | "function" => some kwEndFunction
  | "while" => some kwWend
  | "switch" => some kwEndSwitch
  | "try" => some kwEndTry
  | _ => none

end Keyword

inductive Mark
  | leftParen | rightParen | leftBracket | rightBracket | leftBrace | rightBrace | comma
  | colon | plus | minus | star | slash | percent | assign | equalEqual | bangEqual | less
  | lessEqual | greater | greaterEqual
deriving Repr, DecidableEq

def Mark.name : Mark → String
  | leftParen => "LeftParen"
  | rightParen => "RightParen"
  | leftBracket => "LeftBracket"
  | rightBracket => "RightBracket"
  | leftBrace => "LeftBrace"
  | rightBrace => "RightBrace"
  | comma => "Comma"
  | colon => "Colon"
  | plus => "Plus"
  | minus => "Minus"
  | star => "Star"
  | slash => "Slash"
  | percent => "Percent"
  | assign => "Assign"
  | equalEqual => "EqualEqual"
  | bangEqual => "BangEqual"
  | less => "Less"
  | lessEqual => "LessEqual"
  | greater => "Greater"
  | greaterEqual => "GreaterEqual"

inductive ScanError
  | unexpected (c : Char)
  | unterminatedString
  | unterminatedFString
  | emptyCode
  | singleBrace
  | tooLarge (digits : String)
deriving Repr, DecidableEq

def ScanError.message : ScanError → String
  | unexpected c => "Unexpected character '" ++ String.singleton c ++ "'"
  | unterminatedString => "Unterminated string literal"
  | unterminatedFString => "Unterminated f-string literal"
  | emptyCode => "Empty expression in f-string"
  | singleBrace => "Single '\x7d' is not allowed in f-string"
  | tooLarge digits => "Integer literal '" ++ digits ++ "' is too large"

inductive FPiece
  /-- Literal text, with the escapes resolved. -/
  | text (s : String)
  /-- The source of an expression, and where it begins in the text being scanned. -/
  | code (source : String) (offset : Nat)
deriving Repr, DecidableEq

inductive TokenKind
  | int (n : Int64)
  /-- The magnitude of the least int, which may only stand behind a minus. -/
  | leastMagnitude
  | float (x : Double)
  | str (s : String)
  | fstring (pieces : List FPiece)
  /-- A name, in lower case. -/
  | name (s : String)
  | keyword (k : Keyword)
  | mark (m : Mark)
  /-- The end of a line, or a semicolon. -/
  | newline
  | eof
  | error (cause : ScanError)
deriving Repr

def leastMagnitude : Nat := 9223372036854775808

namespace TokenKind

def isKeyword (kind : TokenKind) (k : Keyword) : Bool :=
  match kind with
  | keyword l => decide (l = k)
  | _ => false

def isMark (kind : TokenKind) (m : Mark) : Bool :=
  match kind with
  | mark n => decide (n = m)
  | _ => false

def isEof : TokenKind → Bool
  | eof => true
  | _ => false

/-- The token as error messages name it. -/
def describe : TokenKind → String
  | int n => "number " ++ toString n.toInt
  | leastMagnitude => "number " ++ toString TaskBasic.leastMagnitude
  | float x => "number " ++ FloatFormat.plain.write x
  | str _ => "string"
  | fstring _ => "string"
  | name s => "'" ++ s ++ "'"
  | keyword k => k.name.toLower
  | mark m => m.name.toLower
  | newline => "end of line"
  | eof => "end of file"
  | error cause => cause.message

end TokenKind

/-- A token: its kind, the bytes of the source text it covers, and its line. -/
structure Token where
  kind : TokenKind
  start : Nat
  /-- The offset behind its last byte. -/
  stop : Nat
  line : Nat
deriving Repr

end TaskBasic
