import TaskBasic.Heap
import TaskBasic.Text.Quoted
import TaskBasic.Number.Shortest

/-
Texts of values.

A text value is its own text, but is quoted inside a container and wherever a
value is shown for inspection (`repr`).  What lies more than 32 levels deep is
left out, so that containers that contain themselves have a text, too.
-/

namespace TaskBasic

/-- The number of levels of a text, the outermost one included. -/
def textLevels : Nat := 33

namespace Heap

/-- The text of a value in at most `levels` levels. -/
def render (h : Heap) : (levels : Nat) → (quoted : Bool) → Value → String
  | 0, _, _ => "..."
  | levels + 1, quoted, value =>
    match value with
    | .absent => "None"
    | .int n => toString n.toInt
    | .float x => FloatFormat.value.write x
    | .str s => if quoted then Text.quote s else s
    | .array r => "[" ++ ", ".intercalate ((h.array r).toList.map (h.render levels true)) ++ "]"
    | .tuple items => "(" ++ ", ".intercalate (items.map (h.render levels true)) ++ ")"
    | .dict r =>
      let entries := (h.dict r).toList.map fun (key, item) =>
        Text.quote key ++ ": " ++ h.render levels true item
      "\x7b" ++ ", ".intercalate entries ++ "\x7d"
    | .function r => "<function " ++ (h.function r).name ++ ">"
    | .future _ => "<future>"

def text (h : Heap) (value : Value) : String :=
  h.render textLevels false value

/-- The text of a value for inspection: texts are quoted. -/
def repr (h : Heap) (value : Value) : String :=
  h.render textLevels true value

end Heap

end TaskBasic
