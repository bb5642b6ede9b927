import TaskBasic.Instr

/-
Chunks: the code of one function.

A chunk holds the bytes of its instructions, the pool of constants they refer
to, and for each byte the source line it was written for, as runs of equal
lines.
-/

namespace TaskBasic

structure Chunk where
  code : Array UInt8 := #[]
  constants : Array Value := #[]
  /-- Runs of bytes written for the same line: the line and the number of bytes, which is
  counted in 32 bits. -/
  lines : Array (Nat × UInt32) := #[]
deriving Inhabited

/-- Whether two constants are the same int, float or text.  Floats are compared bit by
bit, so that `0.0` and `-0.0` stay apart. -/
def sameConstant : Value → Value → Bool
  | .int x, .int y => x == y
  | .float x, .float y => x == y
  | .str x, .str y => x == y
  | _, _ => false

/-- Adds a constant to a pool unless it is there already; the position it has then. -/
def poolInsert (pool : Array Value) (value : Value) : Array Value × Nat :=
  match pool.findIdx? (sameConstant · value) with
  | some index => (pool, index)
  | none => (pool.push value, pool.size)

/-- The index of a pool position, as long as instructions can name it. -/
def poolIndex? (position : Nat) : Option UInt16 :=
  if position < 65536 then some (UInt16.ofNat position) else none

/-- Adds one byte for `line` to runs of lines. -/
def pushLine (lines : Array (Nat × UInt32)) (line : Nat) : Array (Nat × UInt32) :=
  match lines.back? with
  | some (last, count) =>
    if last = line then lines.pop.push (last, count + 1) else lines.push (line, 1)
  | none => lines.push (line, 1)

/-- The line of the byte at `offset`, in runs that begin at offset 0; behind the last run,
the line `last`. -/
def lineInRuns (last offset : Nat) : List (Nat × UInt32) → Nat
  | [] => last
  | (line, count) :: rest =>
    if offset < count.toNat then line else lineInRuns line (offset - count.toNat) rest

namespace Chunk

def size (c : Chunk) : Nat :=
  c.code.size

def write (c : Chunk) (byte : UInt8) (line : Nat) : Chunk :=
  { c with code := c.code.push byte, lines := pushLine c.lines line }

def writeBytes (c : Chunk) (bytes : List UInt8) (line : Nat) : Chunk :=
  bytes.foldl (fun c byte => c.write byte line) c

def writeOpcode (c : Chunk) (op : Opcode) (line : Nat) : Chunk :=
  c.write op.toByte line

def writeWide (c : Chunk) (n : UInt16) (line : Nat) : Chunk :=
  c.writeBytes (Instr.wideBytes n) line

def writeInstr (c : Chunk) (i : Instr) (line : Nat) : Chunk :=
  c.writeBytes i.encode line

def patchWide (c : Chunk) (offset : Nat) (n : UInt16) : Chunk :=
  { c with
    code := (c.code.setIfInBounds offset (UInt8.ofNat (n.toNat / 256))).setIfInBounds (offset + 1)
      (UInt8.ofNat (n.toNat % 256)) }

def readWide (c : Chunk) (offset : Nat) : UInt16 :=
  wideOfBytes (c.code[offset]?.getD 0) (c.code[offset + 1]?.getD 0)

/-- Adds a constant and gives its index, that of an equal int, float or text if there is
one; no index when the pool is full. -/
def addConstant (c : Chunk) (value : Value) : Chunk × Option UInt16 :=
  let (pool, position) := poolInsert c.constants value
  ({ c with constants := pool }, poolIndex? position)

def lineAt (c : Chunk) (offset : Nat) : Nat :=
  lineInRuns 0 offset c.lines.toList

end Chunk

end TaskBasic
