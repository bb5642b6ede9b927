import TaskBasic.Failure

/-
Instructions and their bytes.

An instruction is an opcode byte followed by its operands; operands of two
bytes have the high byte first.  `Opcode` lists the opcodes in the order of
their bytes, `Instr` is an instruction with its operands by meaning, and
`decode` reads the instruction at an offset of a byte array.
-/

namespace TaskBasic

/-- The opcodes, in the order of their bytes. -/
inductive Opcode
  | constant | pushAbsent | pop | dup | getLocal | setLocal | getGlobal | setGlobal | add
  | sub | mul | div | mod | neg | logicNot | toBool | eq | ne | lt | le | gt | ge | jump
  | jumpIfFalse | jumpIfTrue | loop | call | callNamed | ret | buildArray | buildDict
  | buildTuple | buildString | newArray | getIndex | setIndex | len | iterValue | readData
  | restoreData | print | debug | input | spawn | spawnNamed | await | importModule
  | mergeGlobals | tryBegin | tryEnd | raise
deriving Repr, DecidableEq

namespace Opcode

/-- All opcodes; an opcode stands at the position that its byte gives. -/
def all : List Opcode := [
  constant, pushAbsent, pop, dup, getLocal, setLocal, getGlobal, setGlobal, add, sub, mul,
  div, mod, neg, logicNot, toBool, eq, ne, lt, le, gt, ge, jump, jumpIfFalse, jumpIfTrue,
  loop, call, callNamed, ret, buildArray, buildDict, buildTuple, buildString, newArray,
  getIndex, setIndex, len, iterValue, readData, restoreData, print, debug, input, spawn,
  spawnNamed, await, importModule, mergeGlobals, tryBegin, tryEnd, raise]

def ofByte? (byte : UInt8) : Option Opcode :=
  all[byte.toNat]?

def toByte : Opcode → UInt8
  | constant => 0
  | pushAbsent => 1
  | pop => 2
  | dup => 3
  | getLocal => 4
  | setLocal => 5
  | getGlobal => 6
  | setGlobal => 7
  | add => 8
  | sub => 9
  | mul => 10
  | div => 11
  | mod => 12
  | neg => 13
  | logicNot => 14
  | toBool => 15
  | eq => 16
  | ne => 17
  | lt => 18
  | le => 19
  | gt => 20
  | ge => 21
  | jump => 22
  | jumpIfFalse => 23
  | jumpIfTrue => 24
  | loop => 25
  | call => 26
  | callNamed => 27
  | ret => 28
  | buildArray => 29
  | buildDict => 30
  | buildTuple => 31
  | buildString => 32
  | newArray => 33
  | getIndex => 34
  | setIndex => 35
  | len => 36
  | iterValue => 37
  | readData => 38
  | restoreData => 39
  | print => 40
  | debug => 41
  | input => 42
  | spawn => 43
  | spawnNamed => 44
  | await => 45
  | importModule => 46
  | mergeGlobals => 47
  | tryBegin => 48
  | tryEnd => 49
  | raise => 50

/-- The number of operand bytes. -/
def width : Opcode → Nat
  | .call | .buildTuple | .newArray | .print | .input | .spawn => 1
  | .constant | .getLocal | .setLocal | .getGlobal | .setGlobal | .jump | .jumpIfFalse
  | .jumpIfTrue | .loop | .buildArray | .buildDict | .buildString | .debug | .importModule
  | .tryBegin => 2
  | .callNamed | .spawnNamed => 3
  | _ => 0

def name : Opcode → String
  | constant => "Constant"
  | pushAbsent => "None"
  | pop => "Pop"
  | dup => "Dup"
  | getLocal => "GetLocal"
  | setLocal => "SetLocal"
  | getGlobal => "GetGlobal"
  | setGlobal => "SetGlobal"
  | add => "Add"
  | sub => "Sub"
  | mul => "Mul"
  | div => "Div"
  | mod => "Mod"
  | neg => "Neg"
  | logicNot => "Not"
  | toBool => "ToBool"
  | eq => "Eq"
  | ne => "Ne"
  | lt => "Lt"
  | le => "Le"
  | gt => "Gt"
  | ge => "Ge"
  | jump => "Jump"
  | jumpIfFalse => "JumpIfFalse"
  | jumpIfTrue => "JumpIfTrue"
  | loop => "Loop"
  | call => "Call"
  | callNamed => "CallNamed"
  | ret => "Return"
  | buildArray => "BuildArray"
  | buildDict => "BuildDict"
  | buildTuple => "BuildTuple"
  | buildString => "BuildString"
  | newArray => "NewArray"
  | getIndex => "GetIndex"
  | setIndex => "SetIndex"
  | len => "Len"
  | iterValue => "IterValue"
  | readData => "ReadData"
  | restoreData => "RestoreData"
  | print => "Print"
  | debug => "Debug"
  | input => "Input"
  | spawn => "Spawn"
  | spawnNamed => "SpawnNamed"
  | await => "Await"
  | importModule => "Import"
  | mergeGlobals => "MergeGlobals"
  | tryBegin => "TryBegin"
  | tryEnd => "TryEnd"
  | raise => "Raise"

end Opcode

def BinaryOp.opcode : BinaryOp → Opcode
  | add => .add
  | sub => .sub
  | mul => .mul
  | div => .div
  | mod => .mod
  | eq => .eq
  | ne => .ne
  | lt => .lt
  | le => .le
  | gt => .gt
  | ge => .ge

inductive Instr
  | constant (index : UInt16)
  | pushAbsent
  | pop
  | dup
  | getLocal (slot : UInt16)
  | setLocal (slot : UInt16)
  /-- Push a global; the operand is the constant that holds its name. -/
  | getGlobal (name : UInt16)
  /-- Store the top into a global, keeping it. -/
  | setGlobal (name : UInt16)
  | binary (op : BinaryOp)
  | neg
  | logicNot
  /-- Replace the top by 1 or 0. -/
  | toBool
  | jump (distance : UInt16)
  | jumpIfFalse (distance : UInt16)
  | jumpIfTrue (distance : UInt16)
  | loop (distance : UInt16)
  | call (count : UInt8)
  | callNamed (name : UInt16) (count : UInt8)
  | ret
  | buildArray (count : UInt16)
  | buildDict (count : UInt16)
  | buildTuple (count : UInt8)
  | buildString (count : UInt16)
  | newArray (count : UInt8)
  | getIndex
  | setIndex
  | len
  | iterValue
  | readData
  | restoreData
  | print (count : UInt8)
  /-- Print a label and the value on top. -/
  | debug (label : UInt16)
  /-- Read a line; a prompt lies on the stack unless the operand is zero. -/
  | input (prompted : UInt8)
  | spawn (count : UInt8)
  | spawnNamed (name : UInt16) (count : UInt8)
  | await
  /-- Start loading a module and push a future of its globals. -/
  | importModule (path : UInt16)
  | mergeGlobals
  | tryBegin (distance : UInt16)
  | tryEnd
  | raise
deriving Repr, DecidableEq

namespace Instr

def opcode : Instr → Opcode
  | constant _ => .constant
  | pushAbsent => .pushAbsent
  | pop => .pop
  | dup => .dup
  | getLocal _ => .getLocal
  | setLocal _ => .setLocal
  | getGlobal _ => .getGlobal
  | setGlobal _ => .setGlobal
  | neg => .neg
  | logicNot => .logicNot
  | toBool => .toBool
  | jump _ => .jump
  | jumpIfFalse _ => .jumpIfFalse
  | jumpIfTrue _ => .jumpIfTrue
  | loop _ => .loop
  | call _ => .call
  | callNamed _ _ => .callNamed
  | ret => .ret
  | buildArray _ => .buildArray
  | buildDict _ => .buildDict
  | buildTuple _ => .buildTuple
  | buildString _ => .buildString
  | newArray _ => .newArray
  | getIndex => .getIndex
  | setIndex => .setIndex
  | len => .len
  | iterValue => .iterValue
  | readData => .readData
  | restoreData => .restoreData
  | print _ => .print
  | debug _ => .debug
  | input _ => .input
  | spawn _ => .spawn
  | spawnNamed _ _ => .spawnNamed
  | await => .await
  | importModule _ => .importModule
  | mergeGlobals => .mergeGlobals
  | tryBegin _ => .tryBegin
  | tryEnd => .tryEnd
  | raise => .raise
  | binary op => op.opcode

def wideBytes (n : UInt16) : List UInt8 :=
  [UInt8.ofNat (n.toNat / 256), UInt8.ofNat (n.toNat % 256)]

def operands : Instr → List UInt8
  | constant n => wideBytes n
  | getLocal n => wideBytes n
  | setLocal n => wideBytes n
  | getGlobal n => wideBytes n
  | setGlobal n => wideBytes n
  | jump n => wideBytes n
  | jumpIfFalse n => wideBytes n
  | jumpIfTrue n => wideBytes n
  | loop n => wideBytes n
  | call n => [n]
  | callNamed name n => wideBytes name ++ [n]
  | buildArray n => wideBytes n
  | buildDict n => wideBytes n
  | buildTuple n => [n]
  | buildString n => wideBytes n
  | newArray n => [n]
  | print n => [n]
  | debug n => wideBytes n
  | input n => [n]
  | spawn n => [n]
  | spawnNamed name n => wideBytes name ++ [n]
  | importModule n => wideBytes n
  | tryBegin n => wideBytes n
  | _ => []

def encode (i : Instr) : List UInt8 :=
  i.opcode.toByte :: i.operands

def size (i : Instr) : Nat :=
  1 + i.opcode.width

def build (op : Opcode) (wide : UInt16) (narrow : UInt8) : Instr :=
  match op with
  | .constant => .constant wide
  | .pushAbsent => .pushAbsent
  | .pop => .pop
  | .dup => .dup
  | .getLocal => .getLocal wide
  | .setLocal => .setLocal wide
  | .getGlobal => .getGlobal wide
  | .setGlobal => .setGlobal wide
  | .add => .binary .add
  | .sub => .binary .sub
  | .mul => .binary .mul
  | .div => .binary .div
  | .mod => .binary .mod
  | .neg => .neg
  | .logicNot => .logicNot
  | .toBool => .toBool
  | .eq => .binary .eq
  | .ne => .binary .ne
  | .lt => .binary .lt
  | .le => .binary .le
  | .gt => .binary .gt
  | .ge => .binary .ge
  | .jump => .jump wide
  | .jumpIfFalse => .jumpIfFalse wide
  | .jumpIfTrue => .jumpIfTrue wide
  | .loop => .loop wide
  | .call => .call narrow
  | .callNamed => .callNamed wide narrow
  | .ret => .ret
  | .buildArray => .buildArray wide
  | .buildDict => .buildDict wide
  | .buildTuple => .buildTuple narrow
  | .buildString => .buildString wide
  | .newArray => .newArray narrow
  | .getIndex => .getIndex
  | .setIndex => .setIndex
  | .len => .len
  | .iterValue => .iterValue
  | .readData => .readData
  | .restoreData => .restoreData
  | .print => .print narrow
  | .debug => .debug wide
  | .input => .input narrow
  | .spawn => .spawn narrow
  | .spawnNamed => .spawnNamed wide narrow
  | .await => .await
  | .importModule => .importModule wide
  | .mergeGlobals => .mergeGlobals
  | .tryBegin => .tryBegin wide
  | .tryEnd => .tryEnd
  | .raise => .raise

end Instr

def wideOfBytes (high low : UInt8) : UInt16 :=
  UInt16.ofNat (high.toNat * 256 + low.toNat)

/-- The instruction that an opcode and the operand bytes behind it form. -/
def Opcode.withOperands? (op : Opcode) (bytes : List UInt8) : Option Instr :=
  match op.width, bytes with
  | 0, _ => some (Instr.build op 0 0)
  | 1, n :: _ => some (Instr.build op 0 n)
  | 2, high :: low :: _ => some (Instr.build op (wideOfBytes high low) 0)
  | 3, high :: low :: n :: _ => some (Instr.build op (wideOfBytes high low) n)
  | _, _ => none

/-- The instruction at the offset `ip` of the code, and the offset behind it. -/
def decode (code : Array UInt8) (ip : Nat) : Except Failure (Instr × Nat) :=
  match code[ip]? with
  | none => .error .outsideCode
  | some byte =>
    match Opcode.ofByte? byte with
    | none => .error (.unknownOpcode byte)
    | some op =>
      match op.withOperands? (code.extract (ip + 1) (ip + 1 + op.width)).toList with
      | none => .error .truncatedInstruction
      | some i => .ok (i, ip + 1 + op.width)

end TaskBasic
