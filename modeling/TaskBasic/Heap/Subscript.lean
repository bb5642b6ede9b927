import TaskBasic.Heap.Text

/-
Subscripts, lengths and iteration.

An array or a text is indexed by an int, from the end if it is negative, and a
dictionary by a text.  A tuple as a key walks through nested containers, one
key after the other.
-/

namespace TaskBasic

/-- The position that an index denotes among `length` elements. -/
def position (key : Value) (length : Nat) : Except Failure Nat :=
  match key with
  | .int i =>
    let resolved := if i.toInt < 0 then (length : Int) + i.toInt else i.toInt
    if resolved < 0 ∨ (length : Int) ≤ resolved then .error (.indexRange i length)
    else .ok resolved.toNat
  | other => .error (.indexKind other.kind)

namespace Heap

/-- The number of elements, characters, entries or items. -/
def length (h : Heap) : Value → Except Failure Nat
  | .array r => .ok (h.array r).size
  | .dict r => .ok (h.dict r).size
  | .str s => .ok s.length
  | .tuple items => .ok items.length
  | other => .error (.noLength other.kind)

def getOne (h : Heap) (object key : Value) : Except Failure Value :=
  match object with
  | .array r => do
    let items := h.array r
    let i ← position key items.size
    return items[i]?.getD .absent
  | .dict r =>
    match key with
    | .str name =>
      match (h.dict r)[name]? with
      | some value => .ok value
      | none => .error (.missingKey name)
    | other => .error (.keyKind other.kind)
  | .str s => do
    let i ← position key s.length
    match s.toList[i]? with
    | some c => return .str (String.singleton c)
    | none => return .absent
  | other => .error (.notIndexable other.kind)

mutual

def get (h : Heap) (object : Value) : (key : Value) → Except Failure Value
  | .tuple keys => getEach h object keys
  | key => getOne h object key

/-- The element reached by one key after the other. -/
def getEach (h : Heap) (object : Value) : (keys : List Value) → Except Failure Value
  | [] => .ok object
  | key :: rest =>
    match get h object key with
    | .ok inner => getEach h inner rest
    | .error cause => .error cause

end

/-- Stores a value at a single key.  Dictionaries grow, arrays do not. -/
def setOne (h : Heap) (object key value : Value) : Except Failure Heap :=
  match object with
  | .array r => do
    let i ← position key (h.array r).size
    return h.modifyArray r (·.setIfInBounds i value)
  | .dict r =>
    match key with
    | .str name => .ok (h.modifyDict r (·.insert name value))
    | other => .error (.keyKind other.kind)
  | .str _ => .error .immutableString
  | other => .error (.notAssignable other.kind)

mutual

def set (h : Heap) (object : Value) (value : Value) : (key : Value) → Except Failure Heap
  | .tuple keys => setEach h object value keys
  | key => setOne h object key value

/-- Stores a value at the last key, in the container reached by the ones before it. -/
def setEach (h : Heap) (object : Value) (value : Value) : (keys : List Value) → Except Failure Heap
  | [] => .error .emptySubscript
  | [key] => set h object value key
  | key :: rest =>
    match h.get object key with
    | .ok inner => setEach h inner value rest
    | .error cause => .error cause

end

/-- The element that `for each` visits at an index: an element of an array or tuple, a
character of a text, or a key of a dictionary in the order of the keys. -/
def iterValue (h : Heap) (collection index : Value) : Except Failure Value :=
  match collection with
  | .dict r => do
    let keys := (h.dict r).keys
    let i ← position index keys.length
    match keys[i]? with
    | some key => return .str key
    | none => return .absent
  | .tuple items => do
    let i ← position index items.length
    return items[i]?.getD .absent
  | .array _ => h.get collection index
  | .str _ => h.get collection index
  | other => .error (.notIterable other.kind)

def replicateM (make : Heap → Except Failure (Heap × Value)) :
    (count : Nat) → Heap → Array Value → Except Failure (Heap × Array Value)
  | 0, h, items => .ok (h, items)
  | count + 1, h, items =>
    match make h with
    | .ok (h, item) => replicateM make count h (items.push item)
    | .error cause => .error cause

/-- Nested arrays of absent values with the given sizes, the outermost first. -/
def dim (h : Heap) : (sizes : List Value) → Except Failure (Heap × Value)
  | [] => .ok (h.newArray #[])
  | size :: rest =>
    match size with
    | .int n =>
      if n.toInt < 0 then .error (.arraySize (h.repr size))
      else
        match rest with
        | [] => .ok (h.newArray (Array.replicate n.toInt.toNat .absent))
        | inner :: more =>
          match replicateM (fun h => dim h (inner :: more)) n.toInt.toNat h #[] with
          | .ok (h, items) => .ok (h.newArray items)
          | .error cause => .error cause
    | other => .error (.arraySize (h.repr other))

end Heap

/-- The arguments that a subscript key stands for when a function is subscripted. -/
def keyArguments : Value → List Value
  | .tuple items => items
  | key => [key]

end TaskBasic
