import TaskBasic.Toml.Value

/-
Documents of settings.

A document is a sequence of lines: keys with values, headers of tables,
comments and empty lines.
-/

namespace TaskBasic.Toml

structure Document where
  tree : Tree := []
  /-- The place of the table that keys belong to. -/
  place : List Step := []
  /-- The keys of its header. -/
  table : List String := []

/-- The text behind the rest of a line, where only a comment may stand. -/
def lineRest (cs : List Char) : Except Mistake (List Char) :=
  let cs := skipBlanks cs
  let cs := if cs.head? == some '#' then cs.tail.dropWhile isPrintable else cs
  match afterNewline? cs with
  | some rest => .ok rest
  | none => if cs.isEmpty then .ok [] else .error { rest := cs }

/-- The text behind the rest of a line that holds something. -/
def filledLineRest (cs : List Char) : Except Mistake (List Char) :=
  (lineRest cs).mapError fun m => { m with expected := ["newline", "`#`"] }

namespace Document

def assignment (d : Document) (cs : List Char) : Except Mistake (Document × List Char) := do
  let ((path, key), rest) ← keyPath cs
  let start := skipBlanks (← equalSign rest)
  let (v, stop) ← value depthLimit start
  let rest ← filledLineRest stop
  match d.tree.assign d.place (some d.table) path key v start stop with
  | .ok tree => return ({ d with tree := tree }, rest)
  | .error conflict => throw { rest := cs, cause := some conflict.message }

def header (d : Document) (cs : List Char) : Except Mistake (Document × List Char) := do
  if cs.length < 2 then throw { rest := cs }
  let isItem := ['[', '['].isPrefixOf cs
  let bracket := if isItem then "]]" else "]"
  let ((path, key), stop) ← keyPath (cs.drop bracket.length)
  if !bracket.toList.isPrefixOf stop then
    throw { rest := stop, expected := ["`.`", "`" ++ bracket ++ "`"] }
  let stop := stop.drop bracket.length
  let rest ← filledLineRest stop
  let added := if isItem then d.tree.addItem path key cs stop else d.tree.addTable path key cs stop
  match added with
  | .ok (tree, place) =>
    return (⟨tree, place, (path ++ [key]).map (·.name)⟩, rest)
  | .error conflict => throw { rest := cs, cause := some conflict.message }

/-- Reads one line behind its first blanks. -/
def line (d : Document) (cs : List Char) : Except Mistake (Document × List Char) :=
  match afterNewline? cs with
  | some rest => .ok (d, rest)
  | none =>
    match cs with
    | '#' :: _ => (lineRest cs).map fun rest => (d, rest)
    | '[' :: _ => (d.header cs).mapError fun m =>
        { m with subject := m.subject <|> some "table header" }
    | '\r' :: _ => .error { rest := cs }
    | _ => d.assignment cs

/-- Reads the lines of a document; `fuel` is more than the length of the text. -/
def linesFrom : (fuel : Nat) → Document → List Char → Except Mistake Document
  | 0, d, _ => .ok d
  | fuel + 1, d, cs =>
    let cs := skipBlanks cs
    if cs.isEmpty then .ok d
    else
      match d.line cs with
      | .ok (d, rest) => linesFrom fuel d rest
      | .error m => .error m

/-- The tree of a document.  A byte order mark at its beginning does not count. -/
def read (source : String) : Except Mistake Tree :=
  let cs := source.toList
  let cs := if cs.head? == some '\ufeff' then cs.tail else cs
  (linesFrom (cs.length + 1) {} cs).map (·.tree)

end Document

end TaskBasic.Toml
