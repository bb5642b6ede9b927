import TaskBasic.Text.Quoted
import TaskBasic.Number.Double

/-
The tree of tables and values of a document, and the rules by which it grows.

A table may be defined once by a header, or by keys with dots, but not by
both; a value is never defined twice.
-/

namespace TaskBasic.Toml

/-- The values of settings.  What arrays and tables hold does not matter. -/
inductive Value
  | string (s : String)
  | integer (n : Int)
  | float (x : Double)
  | boolean (b : Bool)
  | dateTime
  | array
  | table

def Value.kind : Value → String
  | string _ => "string"
  | integer _ => "integer"
  | float _ => "float"
  | boolean _ => "boolean"
  | dateTime => "datetime"
  | array => "array"
  | table => "inline table"

/-- One step from a table to what it holds, or from a list of tables to one of them. -/
inductive Step
  | key (name : String)
  | item (index : Nat)
deriving Repr, DecidableEq

inductive Node
  | value (v : Value)
  /-- A table.  It is implicit until a header defines it, and dotted if a key with dots has
  made it. -/
  | table (isImplicit isDotted : Bool)
  | tables (count : Nat)

/-- A key, with the text from its beginning on and from its end on. -/
structure Key where
  name : String
  start : List Char
  stop : List Char

/-- A place of the tree, what stands there, and where it is written. -/
structure Entry where
  place : List Step
  node : Node
  start : List Char
  stop : List Char

/-- A tree, by its entries in the order of their definition. -/
abbrev Tree := List Entry

inductive Conflict
  /-- The key is taken, in the table with the given keys if that is known. -/
  | duplicate (key : String) (table : Option (List String))
  | notATable (keys : List String) (kind : String)

def keyText (name : String) : String :=
  let isBare (c : Char) : Bool := c.isAlphanum || c == '-' || c == '_'
  if !name.isEmpty && name.toList.all isBare then name else Text.quote name

def Conflict.message : Conflict → String
  | duplicate key none => "duplicate key `" ++ key ++ "`"
  | duplicate key (some []) => "duplicate key `" ++ key ++ "` in document root"
  | duplicate key (some keys) =>
    "duplicate key `" ++ key ++ "` in table `" ++ ".".intercalate (keys.map keyText) ++ "`"
  | notATable keys kind =>
    "dotted key `" ++ ".".intercalate (keys.map keyText)
      ++ "` attempted to extend non-table type (" ++ kind ++ ")"

namespace Tree

def node? (t : Tree) (place : List Step) : Option Node :=
  (t.find? fun e => e.place == place).map (·.node)

def modify (t : Tree) (place : List Step) (f : Entry → Entry) : Tree :=
  t.map fun e => if e.place == place then f e else e

/-- Follows keys from the table at a place and makes the tables that are missing.  If `dotted`
holds, the keys belong to a key with dots, which leads into no table that a header has
defined.  `followed` holds the keys before, last one first. -/
def descend (t : Tree) (dotted : Bool) (place : List Step) (followed : List String) :
    List Key → Except Conflict (Tree × List Step)
  | [] => .ok (t, place)
  | k :: keys =>
    let next := place ++ [.key k.name]
    match t.node? next with
    | none =>
      let made : Entry := ⟨next, .table true dotted, k.start, k.stop⟩
      descend (t ++ [made]) dotted next (k.name :: followed) keys
    | some (.value v) => .error (.notATable (k.name :: followed).reverse v.kind)
    | some (.tables count) =>
      descend t dotted (next ++ [.item (count - 1)]) (k.name :: followed) keys
    | some (.table isImplicit _) =>
      if dotted && !isImplicit then .error (.duplicate k.name none)
      else descend t dotted next (k.name :: followed) keys

def isDotted (t : Tree) (place : List Step) : Bool :=
  match t.node? place with
  | some (.table _ dotted) => dotted
  | _ => false

/-- Defines a value in the table at `place`.  `path` leads to `key`, and `table` holds the keys
of the table, should a conflict name them. -/
def assign (t : Tree) (place : List Step) (table : Option (List String)) (path : List Key)
    (key : Key) (v : Value) (start stop : List Char) : Except Conflict Tree := do
  let (t, inner) ← t.descend true place [] path
  if t.isDotted inner == path.isEmpty then throw (.duplicate key.name none)
  let next := inner ++ [.key key.name]
  if (t.node? next).isSome then throw (.duplicate key.name table)
  -- A table reaches to its last value.
  let t := t.modify place fun e => { e with stop := stop }
  let t := match place.getLast? with
    | some (.item _) => t.modify place.dropLast fun e => { e with stop := stop }
    | _ => t
  return t ++ [⟨next, .value v, start, stop⟩]

/-- Defines the table of a header, and gives its place. -/
def addTable (t : Tree) (path : List Key) (key : Key) (start stop : List Char) :
    Except Conflict (Tree × List Step) := do
  let (t, inner) ← t.descend false [] [] path
  let next := inner ++ [.key key.name]
  let defined : Entry := ⟨next, .table false false, start, stop⟩
  match t.node? next with
  | none => return (t ++ [defined], next)
  | some (.table true false) => return (t.modify next fun _ => defined, next)
  | some _ => throw (.duplicate key.name (some (path.map (·.name))))

/-- Appends a table to a list of tables, and gives its place. -/
def addItem (t : Tree) (path : List Key) (key : Key) (start stop : List Char) :
    Except Conflict (Tree × List Step) := do
  let (t, inner) ← t.descend false [] [] path
  let next := inner ++ [.key key.name]
  let item (index : Nat) : Entry := ⟨next ++ [.item index], .table false false, start, stop⟩
  match t.node? next with
  | none => return (t ++ [⟨next, .tables 1, start, stop⟩, item 0], (item 0).place)
  | some (.tables count) =>
    let t := t.modify next fun e => { e with node := .tables (count + 1), stop := stop }
    return (t ++ [item count], (item count).place)
  | some _ => throw (.duplicate key.name (some (path.map (·.name))))

end Tree

end TaskBasic.Toml
