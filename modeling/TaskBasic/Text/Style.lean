/-
Styled text.

A terminal shows a text in a style if one escape sequence stands before it and
another behind it.
-/

namespace TaskBasic.Text

inductive Style
  | red | green | yellow | blue | magenta | cyan | white | brightYellow | brightCyan
  | bold | dimmed
deriving Repr, DecidableEq

namespace Style

def on : Style → Nat
  | bold => 1
  | dimmed => 2
  | red => 31
  | green => 32
  | yellow => 33
  | blue => 34
  | magenta => 35
  | cyan => 36
  | white => 37
  | brightYellow => 93
  | brightCyan => 96

/-- The number that switches a style off: one for the weights, one for the colours. -/
def off : Style → Nat
  | bold | dimmed => 0
  | _ => 39

def escape (code : Nat) : String :=
  "\x1b[" ++ toString code ++ "m"

def paint (style : Style) (s : String) : String :=
  escape style.on ++ s ++ escape style.off

end Style

/-- A stretch of text with its styles, innermost first. -/
structure Span where
  text : String
  styles : List Style := []
deriving Repr, DecidableEq

/-- The stretch as a terminal is to get it, if `paint` is how it gets a text in a style. -/
def Span.render (paint : Style → String → String) (s : Span) : String :=
  s.styles.foldl (fun text style => paint style text) s.text

end TaskBasic.Text
