import TaskBasic.EvalError
import TaskBasic.Heap.Text
import TaskBasic.Text.Split
import TaskBasic.Text.Style

/-
How values and errors are shown in colours.
-/

namespace TaskBasic

open Text (Style)

def Heap.styledText (h : Heap) (v : Value) : String :=
  match v with
  | .absent => Style.dimmed.paint (Style.blue.paint "none")
  | .int _ | .float _ => Style.yellow.paint (h.text v)
  | .str _ => Style.green.paint (h.repr v)
  | .function _ | .future _ => Style.magenta.paint (h.text v)
  | .array _ | .tuple _ | .dict _ => h.repr v

def Text.alarm (kind : String) : String :=
  Style.bold.paint (Style.red.paint kind)

/-- The lines that an error is shown with: its text, the kind up to the first colon in bold,
and its trace, if there is one. -/
def EvalError.styledLines (e : EvalError) : List String :=
  let heading := match Text.splitOnce? ':' e.text with
    | some (kind, message) => Text.alarm kind ++ ":" ++ message
    | none => Style.red.paint e.text
  match e with
  | .running r => if r.trace.isEmpty then [heading] else [heading, Style.dimmed.paint r.traceText]
  | _ => [heading]

end TaskBasic
