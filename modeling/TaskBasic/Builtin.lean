import TaskBasic.Heap.Operate
import TaskBasic.Heap.Subscript
import TaskBasic.Number.Numeral
import TaskBasic.Text.Blank

/-
Builtin functions.

Builtins are found by name where a call names no global.  They are not values
themselves.  All but `sleep` have their result at once; `sleep` names the time
after which its result is there.
-/

namespace TaskBasic

inductive Builtin
  | append | assert | exit | float | int | keys | len | sleep | str | time | type
deriving Repr, DecidableEq

inductive Builtin.Result
  | ready (value : Value)
  /-- The absent value, after a number of milliseconds. -/
  | after (milliseconds : Nat)

namespace Builtin

def name : Builtin → String
  | append => "append"
  | assert => "assert"
  | exit => "exit"
  | float => "float"
  | int => "int"
  | keys => "keys"
  | len => "len"
  | sleep => "sleep"
  | str => "str"
  | time => "time"
  | type => "type"

/-- All builtin functions, in the order of their names. -/
def all : List Builtin := [append, assert, exit, float, int, keys, len, sleep, str, time, type]

def ofName? (name : String) : Option Builtin :=
  all.find? (·.name == name)

/-- The least and the greatest number of arguments. -/
def arity : Builtin → Nat × Nat
  | append => (2, 2)
  | assert => (1, 2)
  | exit => (0, 1)
  | time => (0, 0)
  | _ => (1, 1)

def arityText (b : Builtin) : String :=
  if b.arity.1 = b.arity.2 then toString b.arity.1
  else toString b.arity.1 ++ " to " ++ toString b.arity.2

/-- The int that a value converts to: a float is cut off toward zero, a text is read. -/
def toInt? : Value → Option Int64
  | .int n => some n
  | .float x => Number.truncate? x
  | .str s =>
    match Numeral.int64? (Text.trim s) with
    | some n => some n
    | none => (Numeral.float? (Text.trim s)).bind Number.truncate?
  | _ => none

def toDouble? : Value → Option Double
  | .int n => some (.ofInt64 n)
  | .float x => some x
  | .str s => Numeral.float? (Text.trim s)
  | _ => none

/-- The milliseconds of the longest sleep: thirty years of 365 days. -/
def longestSleep : Nat := 946080000000

/-- The whole milliseconds that a sleep of `ms` milliseconds takes: the time is rounded to
nanoseconds and then up to milliseconds, and longer sleeps end after the longest one. -/
def sleepMilliseconds? (ms : Double) : Option Nat :=
  if ms.less (.zero false) || (Dyadic.ofDouble? ms).isNone then none
  else
    (Dyadic.ofDouble? (ms.div (.ofInt64 1000))).map fun seconds =>
      let nanoseconds := Dyadic.roundScaled
        (seconds.mantissa * 1000000000 * exp2 seconds.exponent.toNat)
        (exp2 (-seconds.exponent).toNat) 0
      let milliseconds := (nanoseconds + 999999) / 1000000
      if longestSleep < milliseconds then longestSleep else milliseconds

def exitCode (value : Value) : Except Failure Int32 :=
  match value with
  | .int code =>
    if Int32.minValue.toInt ≤ code.toInt ∧ code.toInt ≤ Int32.maxValue.toInt then
      .ok (Int32.ofInt code.toInt)
    else .error (.exitRange code)
  | other => .error (.exitKind other.kind)

/-- The seconds since 1970 at which the clock stands when it shows zero. -/
def epoch : Double := .ofInt64 1700000000

def secondsAt (now : Nat) : Double :=
  epoch.add ((Double.ofInt64 (Int64.ofNat now)).div (.ofInt64 1000))

/-- Calls a builtin function whose number of arguments is right. -/
def apply (b : Builtin) (h : Heap) (now : Nat) (args : List Value) : Except Fault (Heap × Result) :=
  match b, args with
  | str, [a] => .ok (h, .ready (.str (h.text a)))
  | int, [a] =>
    match toInt? a with
    | some n => .ok (h, .ready (.int n))
    | none => .error (.failure (.cannotConvert (h.repr a) .int))
  | float, [a] =>
    match toDouble? a with
    | some x => .ok (h, .ready (.float x))
    | none => .error (.failure (.cannotConvert (h.repr a) .float))
  | len, [a] => Heap.orFault ((h.length a).map fun n => (h, .ready (.ofNat n)))
  | type, [a] => .ok (h, .ready (.str a.kind.name))
  | append, [a, item] =>
    match a with
    | .array r => .ok (h.modifyArray r (·.push item), .ready .absent)
    | other => .error (.failure (.appendTo other.kind))
  | keys, [a] =>
    match a with
    | .dict r =>
      let (h', value) := h.newArray ((h.dict r).keys.map Value.str).toArray
      .ok (h', .ready value)
    | other => .error (.failure (.keysOf other.kind))
  | assert, a :: message =>
    if h.isTrue a then .ok (h, .ready .absent)
    else .error (.failure (.assertion (message.head?.map h.text)))
  | time, _ => .ok (h, .ready (.float (secondsAt now)))
  | sleep, [a] =>
    match (a.number?.map Number.toDouble).bind sleepMilliseconds? with
    | some ms => .ok (h, .after ms)
    | none => .error (.failure (.sleepLength (h.repr a)))
  | exit, [] => .error (.exit 0)
  | exit, a :: _ =>
    match exitCode a with
    | .ok code => .error (.exit code)
    | .error cause => .error (.failure cause)
  | _, _ => .error (.failure (.arity b.name b.arityText args.length))

def call (b : Builtin) (h : Heap) (now : Nat) (args : List Value) : Except Fault (Heap × Result) :=
  if b.arity.1 ≤ args.length ∧ args.length ≤ b.arity.2 then b.apply h now args
  else .error (.failure (.arity b.name b.arityText args.length))

end Builtin

end TaskBasic
