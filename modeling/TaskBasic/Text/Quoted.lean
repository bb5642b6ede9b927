import TaskBasic.Text.Printable

/-
Texts between double quotes.

`quote` writes a text so that every character of it can be seen: the quote,
the backslash and the four common controls by a short escape, any other
character that is not printable by its code in braces.
-/

namespace TaskBasic.Text

/-- The digits of `n` in base sixteen, in lower case. -/
def hexDigits (n : Nat) : String :=
  String.ofList (Nat.toDigits 16 n)

def quoteChar (c : Char) : String :=
  if c == '"' then "\\\""
  else if c == '\\' then "\\\\"
  else if c == '\n' then "\\n"
  else if c == '\r' then "\\r"
  else if c == '\t' then "\\t"
  else if c.toNat == 0 then "\\0"
  else if isPrintable c then String.singleton c
  else "\\u\x7b" ++ hexDigits c.toNat ++ "\x7d"

/-- The text between double quotes, with what cannot be seen written out. -/
def quote (s : String) : String :=
  s.toList.foldl (fun out c => out ++ quoteChar c) "\"" ++ "\""

end TaskBasic.Text
