import TaskBasic.Toml.Number

/-
Keys and values of settings.
-/

namespace TaskBasic.Toml

/-- The text behind spaces and tabs. -/
def skipBlanks (cs : List Char) : List Char :=
  cs.dropWhile fun c => c == ' ' || c == '\t'

/-- The text behind the end of a line, if the text begins with one. -/
def afterNewline? : List Char → Option (List Char)
  | '\n' :: rest => some rest
  | '\r' :: '\n' :: rest => some rest
  | _ => none

/-- The text behind blanks, ends of lines and comments; `fuel` is at least its length. -/
def skipGap : (fuel : Nat) → List Char → List Char
  | 0, cs => cs
  | fuel + 1, cs =>
    let cs := skipBlanks cs
    match afterNewline? cs with
    | some rest => skipGap fuel rest
    | none =>
      match cs with
      | '#' :: rest =>
        match afterNewline? (rest.dropWhile isPrintable) with
        | some rest => skipGap fuel rest
        | none => cs
      | _ => cs

/-- The characters of keys that are written without marks. -/
def isKeyChar (c : Char) : Bool :=
  c.isAlphanum || c == '-' || c == '_'

def simpleKey (cs : List Char) : Except Mistake (Key × List Char) :=
  match cs with
  | [] => .error { rest := [], subject := some "key", isFinal := false }
  | c :: rest =>
    if c == '"' || c == '\'' then
      (Literal.readLine c rest).map fun (name, rest) => (⟨name, cs, rest⟩, rest)
    else
      let name := cs.takeWhile isKeyChar
      let rest := cs.dropWhile isKeyChar
      if name.isEmpty then .error { rest := cs, subject := some "key", isFinal := false }
      else .ok (⟨String.ofList name, cs, rest⟩, rest)

/-- Reads the keys behind a first one, with a dot before each; `found` holds the keys so far,
last one first.  A dot that no key follows is left.  `fuel` is at least the length of the
text. -/
def keysFrom : (fuel : Nat) → (found : List Key) → List Char →
    Except Mistake (List Key × List Char)
  | 0, found, cs => .ok (found.reverse, cs)
  | fuel + 1, found, cs =>
    match cs with
    | '.' :: rest =>
      match simpleKey (skipBlanks rest) with
      | .ok (key, rest) => keysFrom fuel (key :: found) (skipBlanks rest)
      | .error m => if m.isFinal then .error m else .ok (found.reverse, cs)
    | _ => .ok (found.reverse, cs)

/-- The greatest number of keys with dots between them, and of values inside each other. -/
def depthLimit : Nat := 79

/-- Reads keys with dots between them: all but the last one, and the last one. -/
def keyPath (cs : List Char) : Except Mistake ((List Key × Key) × List Char) := do
  let (key, rest) ← simpleKey (skipBlanks cs)
  let (keys, rest) ← keysFrom rest.length [key] (skipBlanks rest)
  if depthLimit < keys.length then
    throw { rest := cs, cause := some "recursion limit exceeded", isFinal := false }
  return ((keys.dropLast, keys.getLast?.getD key), rest)

def equalSign (cs : List Char) : Except Mistake (List Char) :=
  if cs.head? == some '=' then .ok cs.tail else .error { rest := cs, expected := ["`.`", "`=`"] }

def openArray (cs : List Char) : Mistake :=
  { rest := cs, subject := some "array", expected := ["`]`"] }

/-- Reads the next value of an array, with the comma before it: the text behind it, and
whether the array has ended instead.  `isFirst` holds before the first value. -/
def arrayItem (value : List Char → Except Mistake (Value × List Char)) (isFirst : Bool)
    (cs : List Char) :
    Except Mistake (Bool × List Char) :=
  let cs := skipGap cs.length cs
  if cs.head? == some ']' then .ok (true, cs.tail)
  else if !isFirst && cs.head? != some ',' then .error (openArray cs)
  else
    let cs := if isFirst then cs else skipGap cs.length cs.tail
    match value cs with
    | .ok (_, rest) => .ok (false, rest)
    | .error m =>
      if m.isFinal then .error m
      else if cs.head? == some ']' && !isFirst then .ok (true, cs.tail)
      else .error (openArray cs)

/-- Reads the rest of an array: the text behind it.  `fuel` is more than the length of the
text. -/
def arrayRest (value : List Char → Except Mistake (Value × List Char)) :
    (fuel : Nat) → (isFirst : Bool) → List Char → Except Mistake (List Char)
  | 0, _, cs => .error (openArray cs)
  | fuel + 1, isFirst, cs =>
    match arrayItem value isFirst cs with
    | .ok (true, rest) => .ok rest
    | .ok (false, rest) => arrayRest value fuel false rest
    | .error m => .error m

/-- The end of a table in braces: the text behind it. -/
def tableEnd (cs : List Char) : Except Mistake (List Char) :=
  let cs := skipBlanks cs
  if cs.head? == some '\x7d' then .ok cs.tail
  else .error { rest := cs, subject := some "inline table", expected := ["`\x7d`"] }

/-- Reads the next key with its value of a table in braces, with the comma before it; there
may be none.  `start` is the text behind the brace, and `isFirst` holds before the first
key. -/
def tableItem (value : List Char → Except Mistake (Value × List Char)) (start : List Char)
    (isFirst : Bool) (tree : Tree) (cs : List Char) : Except Mistake (Option Tree × List Char) :=
  if !isFirst && cs.head? != some ',' then .ok (none, cs)
  else
    match keyPath (if isFirst then cs else cs.tail) with
    | .error m => if m.isFinal then .error m else .ok (none, cs)
    | .ok ((path, key), rest) => do
      let rest := skipBlanks (← equalSign rest)
      let (v, after) ← (value rest).mapError fun m => { m with isFinal := true }
      match tree.assign [] none path key v rest after with
      | .error conflict => throw { rest := start, cause := some conflict.message }
      | .ok tree => return (some tree, skipBlanks after)

/-- Reads the rest of a table in braces: the text behind it.  `fuel` is more than the length
of the text. -/
def tableRest (value : List Char → Except Mistake (Value × List Char)) (start : List Char) :
    (fuel : Nat) → (isFirst : Bool) → Tree → List Char → Except Mistake (List Char)
  | 0, _, _, cs => tableEnd cs
  | fuel + 1, isFirst, tree, cs =>
    match tableItem value start isFirst tree cs with
    | .ok (some tree, rest) => tableRest value start fuel false tree rest
    | .ok (none, rest) => tableEnd rest
    | .error m => .error m

def noValue (cs : List Char) (isFinal : Bool) : Mistake :=
  { rest := cs, subject := some "string", expected := ["`\"`", "`'`"], isFinal := isFinal }

def wordValue (word : String) (v : Value) (isFinal : Bool) (cs : List Char) :
    Except Mistake (Value × List Char) :=
  if word.toList.isPrefixOf cs then .ok (v, cs.drop word.length) else .error (noValue cs isFinal)

/-- Reads a value with at most `levels` values inside each other. -/
def value : (levels : Nat) → List Char → Except Mistake (Value × List Char)
  | _, [] => .error { rest := [], isFinal := false }
  | levels, c :: rest =>
    let cs := c :: rest
    if c == '"' || c == '\'' then
      (Literal.read c rest).map fun (s, rest) => (.string s, rest)
    else if c == '[' then
      match levels with
      | 0 => .error { rest := cs, cause := some "recursion limit exceeded", isFinal := false }
      | levels + 1 => (arrayRest (value levels) cs.length true rest).map fun rest => (.array, rest)
    else if c == '\x7b' then
      match levels with
      | 0 => .error { rest := cs, cause := some "recursion limit exceeded", isFinal := false }
      | levels + 1 =>
        (tableRest (value levels) rest cs.length true [] rest).map fun rest => (.table, rest)
    else if c == '+' || c == '-' || c.isDigit then number cs
    else if c == '_' then
      .error
        { rest := cs, subject := some "integer", expected := ["leading digit"], isFinal := false }
    else if c == '.' then
      .error
        { rest := cs, subject := some floatSubject, expected := ["leading digit"],
          isFinal := false }
    else if c == 't' then wordValue "true" (.boolean true) true cs
    else if c == 'f' then wordValue "false" (.boolean false) true cs
    else if c == 'i' then wordValue "inf" (.float (.infinity false)) false cs
    else if c == 'n' then wordValue "nan" (.float (.notANumber false)) false cs
    else .error (noValue cs false)

end TaskBasic.Toml
