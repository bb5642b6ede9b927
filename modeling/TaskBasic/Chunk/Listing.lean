import TaskBasic.Heap.Text
import TaskBasic.Text.Pad

/-
Listings: the text of a chunk, one instruction per line.

A listing shows the offset, the source line where it changes, the opcode and
its operands, with the constants and the jump targets they stand for.  The
functions among the constants follow, each with its own listing.
-/

namespace TaskBasic

namespace Chunk

def constantText (h : Heap) (c : Chunk) (index : UInt16) : String :=
  match c.constants[index.toNat]? with
  | some v => h.repr v
  | none => "?"

def byteAt (c : Chunk) (offset : Nat) : Nat :=
  (c.code[offset]?.getD 0).toNat

def wideOperandText (h : Heap) (c : Chunk) (op : Opcode) (offset : Nat) : String :=
  let operand := c.readWide offset
  let n := operand.toNat
  match op with
  | .jump | .jumpIfFalse | .jumpIfTrue | .tryBegin =>
    toString n ++ " -> " ++ toString (offset + 2 + n)
  | .loop => toString n ++ " -> " ++ toString (offset + 2 - n)
  | .constant | .getGlobal | .setGlobal | .debug | .importModule =>
    toString n ++ " " ++ c.constantText h operand
  | _ => toString n

def instrText (h : Heap) (c : Chunk) (op : Opcode) (offset : Nat) : String :=
  let name := Text.padRight 14 op.name
  match op.width with
  | 0 => op.name
  | 1 => name ++ " " ++ toString (c.byteAt offset)
  | 2 => name ++ " " ++ c.wideOperandText h op offset
  | _ =>
    let index := c.readWide offset
    name ++ " " ++ toString index.toNat ++ " " ++ c.constantText h index ++ " (" ++
      toString (c.byteAt (offset + 2)) ++ " args)"

/-- The lines for the instructions from `offset` on, at most `fuel` of them, behind the lines
`done`, last one first.  `shown` is the source line of the last instruction. -/
def instrLines (h : Heap) (c : Chunk) :
    (fuel : Nat) → (shown : Option Nat) → (offset : Nat) → List String → List String
  | 0, _, _, done => done
  | fuel + 1, shown, offset, done =>
    match c.code[offset]? with
    | none => done
    | some byte =>
      let line := c.lineAt offset
      let column := if shown = some line then "   |" else Text.padLeft 4 ' ' (toString line)
      let front := Text.padLeft 4 '0' (toString offset) ++ " " ++ column ++ " "
      match Opcode.ofByte? byte with
      | none =>
        instrLines h c fuel (some line) (offset + 1)
          ((front ++ "<bad opcode " ++ toString byte.toNat ++ ">") :: done)
      | some op =>
        instrLines h c fuel (some line) (offset + 1 + op.width)
          ((front ++ c.instrText h op (offset + 1)) :: done)

def functions (c : Chunk) : List FunctionRef :=
  c.constants.toList.filterMap fun
    | .function f => some f
    | _ => none

/-- The lines of the listing of a chunk and of the functions in it, down to the given depth.
An empty line stands before each function. -/
def listing (h : Heap) : (depth : Nat) → (name : String) → Chunk → List String
  | 0, _, _ => []
  | depth + 1, name, c =>
    ("== " ++ name ++ " ==") :: (instrLines h c (c.size + 1) none 0 []).reverse ++
      c.functions.flatMap fun f =>
        let g := h.function f
        "" :: listing h depth g.name g.chunk

end Chunk

namespace Heap

/-- The lines of the listing of a chunk with all functions in it.  A function only refers to
older ones, so they are not nested more deeply than there are functions. -/
def listing (h : Heap) (name : String) (c : Chunk) : List String :=
  c.listing h (h.functions.size + 1) name

def listingText (h : Heap) (name : String) (c : Chunk) : String :=
  String.join ((h.listing name c).map (· ++ "\n"))

end Heap

end TaskBasic
