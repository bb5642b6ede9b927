import TaskBasic.Number.Numeral
import TaskBasic.Toml.Literal
import TaskBasic.Toml.Tree

/-
Numbers, dates and times of settings.

Which of them a text is shows early: four digits and a hyphen begin a date, two
digits and a colon a time; a point or an exponent behind the first digits makes
a float.
-/

namespace TaskBasic.Toml

/-- The digits of a number; single underscores between them do not count.  If no digit
follows an underscore, the error is the text behind it. -/
def digitsFrom (isDigit : Char → Bool) (reversed : List Char) :
    List Char → Except (List Char) (List Char × List Char)
  | [] => .ok (reversed.reverse, [])
  | c :: cs =>
    if c == '_' then
      if (cs.head?.map isDigit).getD false then digitsFrom isDigit reversed cs else .error cs
    else if isDigit c then digitsFrom isDigit (c :: reversed) cs
    else .ok (reversed.reverse, c :: cs)

/-- Reads one or more digits.  Mistakes concern `subject`; `first` and `further` are what they
expect in place of the first digit and of a digit behind an underscore. -/
def digits (isDigit : Char → Bool) (subject : String) (first further : List String)
    (cs : List Char) : Except Mistake (List Char × List Char) :=
  if (cs.head?.map isDigit).getD false then
    (digitsFrom isDigit [] cs).mapError fun rest =>
      { rest := rest, subject := some subject, expected := further }
  else .error { rest := cs, subject := some subject, expected := first }

/-- An integer of 64 bits, written from `start` on. -/
def checkedInteger (start : List Char) (n : Int) : Except Mistake Value :=
  if Int64.maxValue.toInt < n then
    .error { rest := start, cause := some "number too large to fit in target type" }
  else if n < Int64.minValue.toInt then
    .error { rest := start, cause := some "number too small to fit in target type" }
  else .ok (.integer n)

/-- Reads an integer in another base, behind its mark. -/
def basedInteger (base : Nat) (subject : String) (start cs : List Char) :
    Except Mistake (Value × List Char) := do
  let isDigit (c : Char) : Bool := ((hexDigit? c).map fun d => decide (d < base)).getD false
  let (ds, rest) ← digits isDigit subject [] ["digit"] cs
  let n := ds.foldl (fun n c => base * n + (hexDigit? c).getD 0) 0
  return (← checkedInteger start n, rest)

def floatSubject : String := "floating-point number"

/-- Reads the exponent of a float, if there is one: its characters. -/
def exponentPart (cs : List Char) : Except Mistake (List Char × List Char) :=
  match cs with
  | c :: rest =>
    if c == 'e' || c == 'E' then do
      let (sign, rest) := match rest with
        | '+' :: more => ([], more)
        | '-' :: more => (['-'], more)
        | _ => ([], rest)
      let (ds, rest) ← digits Char.isDigit floatSubject [] ["digit"] rest
      return ('e' :: sign ++ ds, rest)
    else .ok ([], cs)
  | [] => .ok ([], [])

/-- Reads the rest of a float behind its first digits.  A float too large is a mistake at
`start`. -/
def floatRest (negative : Bool) (start whole cs : List Char) :
    Except Mistake (Value × List Char) := do
  let (fraction, rest) ← match cs with
    | '.' :: more => do
      let (ds, rest) ← digits Char.isDigit floatSubject ["digit"] ["digit", "digit"] more
      pure ('.' :: ds, rest)
    | _ => pure ([], cs)
  let (exponent, rest) ← exponentPart rest
  match Numeral.decimal? negative (whole ++ fraction ++ exponent) with
  | some x =>
    if x.isInfinite && !negative then throw { rest := start, subject := some floatSubject }
    else return (.float x, rest)
  | none => throw { rest := start, subject := some floatSubject }

def twoDigits (subject : String) (least greatest : Nat) (cs : List Char) :
    Except Mistake (Nat × List Char) :=
  match cs with
  | a :: b :: rest =>
    if a.isDigit && b.isDigit then
      let n := Numeral.digitsValue [a, b]
      if least ≤ n ∧ n ≤ greatest then .ok (n, rest)
      else .error { rest := cs, subject := some subject, cause := some "value is out of range" }
    else .error { rest := cs, subject := some subject }
  | _ => .error { rest := cs, subject := some subject }

def separator (subject : String) (c : Char) (cs : List Char) : Except Mistake (List Char) :=
  if cs.head? == some c then .ok cs.tail else .error { rest := cs, subject := some subject }

/-- The text behind a fraction of a second, if there is one. -/
def afterFraction (cs : List Char) : List Char :=
  match cs with
  | '.' :: more =>
    if (more.head?.map Char.isDigit).getD false then more.dropWhile Char.isDigit else cs
  | _ => cs

/-- The text behind an hour and a colon, if the text begins with them. -/
def afterHour? (cs : List Char) : Option (List Char) :=
  match twoDigits "" 0 23 cs with
  | .ok (_, ':' :: rest) => some rest
  | _ => none

/-- Reads minutes and seconds: the text behind them. -/
def timeRest (subject : String) (cs : List Char) : Except Mistake (List Char) := do
  let (_, cs) ← twoDigits subject 0 59 cs
  let cs ← separator subject ':' cs
  let (_, cs) ← twoDigits subject 0 60 cs
  return afterFraction cs

/-- Reads the offset of a time zone, if there is one: the text behind it. -/
def offsetRest (cs : List Char) : Except Mistake (List Char) :=
  let subject := "time offset"
  match cs with
  | c :: rest =>
    if c == 'Z' || c == 'z' then .ok rest
    else if c == '+' || c == '-' then do
      let (_, rest) ← twoDigits subject 0 23 rest
      let rest ← separator subject ':' rest
      let (_, rest) ← twoDigits subject 0 59 rest
      return rest
    else .ok cs
  | [] => .ok []

def daysInMonth (year month : Nat) : Nat :=
  if month = 2 then
    if year % 4 = 0 ∧ (year % 100 ≠ 0 ∨ year % 400 = 0) then 29 else 28
  else if month = 4 ∨ month = 6 ∨ month = 9 ∨ month = 11 then 30
  else 31

/-- Reads the rest of a date behind the year and a hyphen, and the time that may follow: the
text behind them. -/
def dateRest (year : Nat) (cs : List Char) : Except Mistake (List Char) := do
  let subject := "date-time"
  let (month, cs) ← twoDigits subject 1 12 cs
  let days ← separator subject '-' cs
  let (day, cs) ← twoDigits subject 1 31 days
  if daysInMonth year month < day then
    throw { rest := days, subject := some subject, cause := some "value is out of range" }
  match cs with
  | c :: rest =>
    if c == 'T' || c == 't' || c == ' ' then
      match afterHour? rest with
      | some rest => offsetRest (← timeRest subject rest)
      | none => return cs
    else return cs
  | [] => return []

/-- The year and the text behind it, if four digits and a hyphen begin the text. -/
def year? (cs : List Char) : Option (Nat × List Char) :=
  let ds := cs.take 4
  if ds.length = 4 && ds.all Char.isDigit && (cs.drop 4).head? == some '-' then
    some (Numeral.digitsValue ds, cs.drop 5)
  else none

/-- Reads a number behind its sign; `start` is the text from the sign on. -/
def unsignedNumber (signed negative : Bool) (start cs : List Char) :
    Except Mistake (Value × List Char) := do
  if ["inf".toList, "nan".toList].any (·.isPrefixOf cs) then
    let x := if cs.head? == some 'i' then .infinity negative else .notANumber negative
    return (.float x, cs.drop 3)
  if !(cs.head?.map Char.isDigit).getD false then
    throw { rest := cs, subject := some "integer", isFinal := false }
  let (ds, rest) ← if cs.head? == some '0' then pure (['0'], cs.tail)
    else digits Char.isDigit "integer" [] ["digit"] cs
  match rest with
  | c :: more =>
    if c == '.' || c == 'e' || c == 'E' then floatRest negative start ds rest
    else if ds == ['0'] && !signed && c == 'x' then
      basedInteger 16 "hexadecimal integer" start more
    else if ds == ['0'] && !signed && c == 'o' then basedInteger 8 "octal integer" start more
    else if ds == ['0'] && !signed && c == 'b' then basedInteger 2 "binary integer" start more
    else return (← whole ds, rest)
  | [] => return (← whole ds, [])
where
  whole (ds : List Char) : Except Mistake Value :=
    let n : Int := Numeral.digitsValue ds
    checkedInteger start (if negative then -n else n)

def number (cs : List Char) : Except Mistake (Value × List Char) :=
  match year? cs with
  | some (year, rest) => (dateRest year rest).map fun rest => (.dateTime, rest)
  | none =>
    match afterHour? cs with
    | some rest => (timeRest "time" rest).map fun rest => (.dateTime, rest)
    | none =>
      match cs with
      | '+' :: rest => unsignedNumber true false cs rest
      | '-' :: rest => unsignedNumber true true cs rest
      | _ => unsignedNumber false false cs cs

end TaskBasic.Toml
