import TaskBasic.Number.Numeral
import TaskBasic.Text.Blank
import TaskBasic.Text.Lowercase
import TaskBasic.Text.Word
import TaskBasic.Token

/-
Scanning: from source text to tokens.

The scan goes through the characters once.  Each step passes over the gap
before the next token (blanks, comments, and newlines while a bracket is open)
and reads the longest token from there.  Words are read without regard to
case.

* `Scanner.next` reads one token.
* `tokens` reads all tokens of a text; the last one is the end of the text.
-/

namespace TaskBasic

/-- A place in the source text.  Lines are counted in 32 bits. -/
structure Place where
  offset : Nat
  line : UInt32
deriving Repr, DecidableEq

namespace Place

def after (p : Place) (c : Char) : Place :=
  { offset := p.offset + c.utf8Size, line := if c = '\n' then p.line + 1 else p.line }

def afterAll (p : Place) (cs : List Char) : Place :=
  cs.foldl after p

end Place

/-- What is left of the source text, and where it begins. -/
structure Rest where
  chars : List Char
  place : Place
deriving Repr

namespace Rest

/-- What is left behind a prefix `cs` of the text. -/
def skip (r : Rest) (cs : List Char) : Rest :=
  { chars := r.chars.drop cs.length, place := r.place.afterAll cs }

end Rest

/-- Passes over blanks, comments and, while `nested`, newlines.  `inComment` holds between
`//` and the end of the line. -/
def skipGap (nested : Bool) (inComment : Bool) : List Char → Place → Rest
  | [], p => ⟨[], p⟩
  | c :: cs, p =>
    if inComment && c != '\n' then skipGap nested true cs (p.after c)
    else if c == ' ' || c == '\t' || c == '\r' || (c == '\n' && nested) then
      skipGap nested false cs (p.after c)
    else if c == '/' && cs.head? == some '/' then skipGap nested true cs (p.after c)
    else ⟨c :: cs, p⟩

/-- The character that an escape stands for, by the character behind the backslash. -/
def escaped (c : Char) : Char :=
  if c == 'n' then '\n'
  else if c == 't' then '\t'
  else if c == 'r' then '\r'
  else if c == '0' then Char.ofNat 0
  else c

/-- Reads a string behind its opening quote; `done` is its text so far, last character
first. -/
def scanString (quote : Char) (done : List Char) : List Char → Place → TokenKind × Rest
  | [], p => (.error .unterminatedString, ⟨[], p⟩)
  | c :: cs, p =>
    if c == '\n' then (.error .unterminatedString, ⟨cs, p.after c⟩)
    else if c == quote then (.str (String.ofList done.reverse), ⟨cs, p.after c⟩)
    else if c == '\\' then
      match cs with
      | [] => (.error .unterminatedString, ⟨[], p.after c⟩)
      | e :: cs => scanString quote (escaped e :: done) cs ((p.after c).after e)
    else scanString quote (c :: done) cs (p.after c)

/-- Adds literal text, last character first, to the pieces of an f-string, last piece
first. -/
def pushText (pieces : List FPiece) (text : List Char) : List FPiece :=
  if text.isEmpty then pieces else .text (String.ofList text.reverse) :: pieces

mutual

/-- Reads the literal text of an f-string; `text` is the text since the last piece, last
character first. -/
def scanFText (quote : Char) (pieces : List FPiece) (text : List Char) :
    List Char → Place → TokenKind × Rest
  | [], p => (.error .unterminatedFString, ⟨[], p⟩)
  | c :: cs, p =>
    if c == '\n' then (.error .unterminatedFString, ⟨cs, p.after c⟩)
    else if c == quote then (.fstring (pushText pieces text).reverse, ⟨cs, p.after c⟩)
    else if c == '\\' then
      match cs with
      | [] => (.error .unterminatedFString, ⟨[], p.after c⟩)
      | e :: cs => scanFText quote pieces (escaped e :: text) cs ((p.after c).after e)
    else if c == '\x7b' then
      match cs with
      | '\x7b' :: cs => scanFText quote pieces ('\x7b' :: text) cs ((p.after c).after '\x7b')
      | cs => scanFCode quote (pushText pieces text) (p.after c).offset 0 none [] cs (p.after c)
    else if c == '\x7d' then
      match cs with
      | '\x7d' :: cs => scanFText quote pieces ('\x7d' :: text) cs ((p.after c).after '\x7d')
      | cs => (.error .singleBrace, ⟨cs, p.after c⟩)
    else scanFText quote pieces (c :: text) cs (p.after c)

/-- Reads the source of an expression in an f-string up to the brace that closes it.
`depth` counts the braces opened inside it, `inner` is the quote of a string inside it. -/
def scanFCode (quote : Char) (pieces : List FPiece) (start depth : Nat) (inner : Option Char)
    (code : List Char) : List Char → Place → TokenKind × Rest
  | [], p => (.error .unterminatedFString, ⟨[], p⟩)
  | c :: cs, p =>
    if c == '\n' then (.error .unterminatedFString, ⟨c :: cs, p⟩)
    else if inner == some c then scanFCode quote pieces start depth none (c :: code) cs (p.after c)
    else if inner.isSome then scanFCode quote pieces start depth inner (c :: code) cs (p.after c)
    else if (c == '"' || c == '\'') && c != quote then
      scanFCode quote pieces start depth (some c) (c :: code) cs (p.after c)
    else if c == quote then (.error .unterminatedFString, ⟨c :: cs, p⟩)
    else if c == '\x7b' then
      scanFCode quote pieces start (depth + 1) none (c :: code) cs (p.after c)
    else if c == '\x7d' then
      match depth with
      | 0 =>
        if code.all Text.isBlank then (.error .emptyCode, ⟨cs, p.after c⟩)
        else
          scanFText quote (.code (String.ofList code.reverse) start :: pieces) [] cs (p.after c)
      | depth + 1 => scanFCode quote pieces start depth none (c :: code) cs (p.after c)
    else scanFCode quote pieces start depth none (c :: code) cs (p.after c)

end

/-- The characters of the number that `cs` begins with, and whether it is a float. -/
def numberText (cs : List Char) : List Char × Bool :=
  let whole := cs.takeWhile Char.isDigit
  match cs.dropWhile Char.isDigit with
  | '.' :: d :: more =>
    if d.isDigit then (whole ++ '.' :: (d :: more).takeWhile Char.isDigit, true) else (whole, false)
  | _ => (whole, false)

def numberKind (text : List Char) (isFloat : Bool) : TokenKind :=
  if isFloat then .float ((Numeral.decimal? false text).getD (.zero false))
  else
    let n := Numeral.digitsValue text
    if n < leastMagnitude then .int (Int64.ofNat n)
    else if n = leastMagnitude then .leastMagnitude
    else .error (.tooLarge (String.ofList text))

def scanNumber (r : Rest) : TokenKind × Rest :=
  let (text, isFloat) := numberText r.chars
  (numberKind text isFloat, r.skip text)

/-- The keyword that `end` forms with the word behind it on the same line. -/
def scanEndWord? (r : Rest) : Option (TokenKind × Rest) :=
  let blanks := r.chars.takeWhile fun c => c == ' ' || c == '\t'
  let word := (r.chars.drop blanks.length).takeWhile Text.isWordPart
  (Keyword.ofEndWord? (Text.lowercase (String.ofList word))).map fun k =>
    (.keyword k, r.skip (blanks ++ word))

def scanWord (r : Rest) : TokenKind × Rest :=
  let text := r.chars.takeWhile Text.isWordPart
  let word := Text.lowercase (String.ofList text)
  let behind := r.skip text
  let plain := match Keyword.ofWord? word with
    | some k => TokenKind.keyword k
    | none => .name word
  if word == "end" then (scanEndWord? behind).getD (plain, behind) else (plain, behind)

/-- The mark that a character forms with the one behind it, and whether it takes both. -/
def markOf? (c : Char) (next : Option Char) : Option (Mark × Bool) :=
  if c == '(' then some (.leftParen, false)
  else if c == ')' then some (.rightParen, false)
  else if c == '[' then some (.leftBracket, false)
  else if c == ']' then some (.rightBracket, false)
  else if c == '\x7b' then some (.leftBrace, false)
  else if c == '\x7d' then some (.rightBrace, false)
  else if c == ',' then some (.comma, false)
  else if c == ':' then some (.colon, false)
  else if c == '+' then some (.plus, false)
  else if c == '-' then some (.minus, false)
  else if c == '*' then some (.star, false)
  else if c == '/' then some (.slash, false)
  else if c == '%' then some (.percent, false)
  else if c == '=' then if next == some '=' then some (.equalEqual, true) else some (.assign, false)
  else if c == '!' then if next == some '=' then some (.bangEqual, true) else none
  else if c == '<' then
    if next == some '=' then some (.lessEqual, true)
    else if next == some '>' then some (.bangEqual, true)
    else some (.less, false)
  else if c == '>' then
    if next == some '=' then some (.greaterEqual, true) else some (.greater, false)
  else none

def scanFrom (c : Char) (cs : List Char) (p : Place) : TokenKind × Rest :=
  let behind := p.after c
  if c == '\n' || c == ';' then (.newline, ⟨cs, behind⟩)
  else
    match markOf? c cs.head? with
    | some (m, false) => (.mark m, ⟨cs, behind⟩)
    | some (m, true) => (.mark m, (Rest.mk cs behind).skip (cs.take 1))
    | none =>
      if c == '"' || c == '\'' then scanString c [] cs behind
      else if c.isDigit || (c == '.' && (cs.head?.map Char.isDigit).getD false) then
        scanNumber ⟨c :: cs, p⟩
      else
        match cs with
        | q :: more =>
          if (c == 'f' || c == 'F') && (q == '"' || q == '\'') then
            scanFText q [] [] more (behind.after q)
          else if Text.isWordStart c then scanWord ⟨c :: cs, p⟩
          else (.error (.unexpected c), ⟨cs, behind⟩)
        | [] =>
          if Text.isWordStart c then scanWord ⟨c :: cs, p⟩
          else (.error (.unexpected c), ⟨cs, behind⟩)

/-- A scan that has come to some place: what is left, and how many brackets are open. -/
structure Scanner where
  rest : Rest
  nesting : Nat
deriving Repr

namespace Scanner

def ofText (source : String) (line : Nat) : Scanner :=
  { rest := ⟨source.toList, ⟨0, .ofNat line⟩⟩, nesting := 0 }

/-- The number of open brackets behind a token. -/
def nestingAfter (nesting : Nat) : TokenKind → Nat
  | .mark .leftParen | .mark .leftBracket | .mark .leftBrace => nesting + 1
  | .mark .rightParen | .mark .rightBracket | .mark .rightBrace => nesting - 1
  | _ => nesting

def next (s : Scanner) : Token × Scanner :=
  let r := skipGap (decide (0 < s.nesting)) false s.rest.chars s.rest.place
  match r.chars with
  | [] => (⟨.eof, r.place.offset, r.place.offset, r.place.line.toNat⟩, { s with rest := r })
  | c :: cs =>
    let (kind, behind) := scanFrom c cs r.place
    (⟨kind, r.place.offset, behind.place.offset, r.place.line.toNat⟩,
      { rest := behind, nesting := nestingAfter s.nesting kind })

/-- The tokens from here on, at most `steps` before the end of the text; `found` are those
read so far, last one first. -/
def collect : (steps : Nat) → List Token → Scanner → List Token
  | 0, found, s => (s.next.1 :: found).reverse
  | steps + 1, found, s =>
    let (token, s') := s.next
    if token.kind.isEof then (token :: found).reverse else collect steps (token :: found) s'

end Scanner

/-- All tokens of a text whose first line has the number `line`.  Every token but the last
takes at least one character. -/
def tokens (source : String) (line : Nat) : List Token :=
  let s := Scanner.ofText source line
  Scanner.collect s.rest.chars.length [] s

end TaskBasic
