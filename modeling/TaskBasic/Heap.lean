import TaskBasic.Chunk
import Std.Data.TreeMap

/-
The heap: everything that values refer to.

Arrays and dictionaries change; functions do not; a promise goes once from
pending to settled.  Nothing is ever removed, so a reference that was given out
stays valid.  Dictionaries are ordered by key, code point by code point, which
is also the order of the keys' UTF-8 bytes.
-/

namespace TaskBasic

/-- Entries by name, in the order of the names. -/
abbrev Dict := Std.TreeMap String Value

structure Function where
  name : String
  arity : Nat
  chunk : Chunk
  /-- Can only be spawned or awaited, not called. -/
  isAsync : Bool := false
  isNative : Bool := false
deriving Inhabited

inductive Promise.State
  | pending
  | resolved (value : Value)
  | rejected (message : String)
deriving Inhabited

structure Promise where
  state : Promise.State := .pending
  /-- Whether its outcome has been looked at. -/
  observed : Bool := false
deriving Inhabited

namespace Promise

def ofValue (value : Value) : Promise := { state := .resolved value }

def isSettled (p : Promise) : Bool :=
  match p.state with
  | .pending => false
  | _ => true

def outcome? (p : Promise) : Option (Except String Value) :=
  match p.state with
  | .pending => none
  | .resolved value => some (.ok value)
  | .rejected message => some (.error message)

/-- Settles the promise; a second settlement changes nothing. -/
def settle (p : Promise) (outcome : Except String Value) : Promise :=
  match p.state, outcome with
  | .pending, .ok value => { p with state := .resolved value }
  | .pending, .error message => { p with state := .rejected message }
  | _, _ => p

def observe (p : Promise) : Promise :=
  if p.isSettled then { p with observed := true } else p

/-- The message of a rejection that nobody has looked at. -/
def unobservedFailure? (p : Promise) : Option String :=
  match p.observed, p.state with
  | false, .rejected message => some message
  | _, _ => none

end Promise

structure Heap where
  arrays : Array (Array Value) := #[]
  dicts : Array Dict := #[]
  functions : Array Function := #[]
  promises : Array Promise := #[]
deriving Inhabited

namespace Heap

def array (h : Heap) (r : ArrayRef) : Array Value :=
  h.arrays[r.index]?.getD #[]

def dict (h : Heap) (r : DictRef) : Dict :=
  h.dicts[r.index]?.getD ∅

def function (h : Heap) (r : FunctionRef) : Function :=
  h.functions[r.index]?.getD default

def promise (h : Heap) (r : PromiseRef) : Promise :=
  h.promises[r.index]?.getD default

def newArray (h : Heap) (items : Array Value) : Heap × Value :=
  ({ h with arrays := h.arrays.push items }, .array ⟨h.arrays.size⟩)

def newDict (h : Heap) (entries : Dict) : Heap × DictRef :=
  ({ h with dicts := h.dicts.push entries }, ⟨h.dicts.size⟩)

def newFunction (h : Heap) (f : Function) : Heap × FunctionRef :=
  ({ h with functions := h.functions.push f }, ⟨h.functions.size⟩)

def newPromise (h : Heap) (p : Promise) : Heap × PromiseRef :=
  ({ h with promises := h.promises.push p }, ⟨h.promises.size⟩)

def modifyArray (h : Heap) (r : ArrayRef) (f : Array Value → Array Value) : Heap :=
  { h with arrays := h.arrays.modify r.index f }

def modifyDict (h : Heap) (r : DictRef) (f : Dict → Dict) : Heap :=
  { h with dicts := h.dicts.modify r.index f }

def modifyPromise (h : Heap) (r : PromiseRef) (f : Promise → Promise) : Heap :=
  { h with promises := h.promises.modify r.index f }

def isTrue (h : Heap) : Value → Bool
  | .absent => false
  | .int n => n != 0
  | .float x => !x.isZero
  | .str s => !s.isEmpty
  | .array r => !(h.array r).isEmpty
  | .dict r => !(h.dict r).isEmpty
  | .tuple items => !items.isEmpty
  | .function _ => true
  | .future _ => true

end Heap

end TaskBasic
