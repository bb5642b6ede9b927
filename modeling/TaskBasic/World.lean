import TaskBasic.Code.OfProgram
import TaskBasic.EvalError
import TaskBasic.Machine.Step
import TaskBasic.Stmt.Parse

/-
All programs that run together: the main program and the modules it loads.

Each program is a run with a scheduler of its own; they share the heap, the
console, the clock and the module cache.  A module's run belongs to the native
work of the run that imports it, and goes on only when that work is looked at.
One run at a time has the focus.

A run looks at its native work in visits.  A visit ends with work that is done,
when nothing is left to look at, and at the latest when all work has been
looked at or when two looks have alerted the work itself; in these two cases
the run asks for another visit.  When the visit of the main program ends
without work done, so does the round.  Work that depends on time or on files is
done at most `allowance` times in a round; further such work is put off to the
next one, where it is looked at last one first.
-/

namespace TaskBasic

/-- What all programs of an engine share. -/
structure Shared where
  env : Env := {}
  heap : Heap := {}
  console : Console := {}
  modules : ModuleCache := {}

structure NativeRef where
  run : Nat
  native : Nat
deriving Repr, DecidableEq

structure Visit where
  /-- The amount of native work when the visit began. -/
  size : Nat
  /-- The number of looks in vain. -/
  looks : Nat := 0
  /-- The number of looks in vain that have alerted the work itself. -/
  alerts : Nat := 0
  looking : Option Nat := none
deriving Repr, DecidableEq

namespace Visit

/-- Ends a look in vain. -/
def inVain (v : Visit) (alerted : Bool) : Visit :=
  { v with
    looks := v.looks + 1
    alerts := if alerted then v.alerts + 1 else v.alerts
    looking := none }

/-- True if the visit is to end though there may be more to look at. -/
def isOver (v : Visit) : Bool :=
  v.looks == v.size || decide (2 ≤ v.alerts)

end Visit

structure Run where
  program : ProgramState
  scheduler : Scheduler
  main : PromiseRef
  current : Option Task := none
  /-- How the run ends, once that is known. -/
  ending : Option (Except EvalError Value) := none
  /-- The native work that the run belongs to; the main program belongs to none. -/
  owner : Option NativeRef := none
  /-- The visit to the native work that goes on. -/
  visit : Option Visit := none

/-- The number of times that timed work is done in one round. -/
def roundAllowance : Nat := 128

/-- All programs that run together. -/
structure World where
  shared : Shared
  /-- The runs by their numbers; those that have ended are gone. -/
  runs : Array (Option Run) := #[]
  /-- The run that goes on. -/
  focus : Nat := 0
  /-- The native work that reads a file, first one first. -/
  reads : List NativeRef := []
  /-- The native work that sleeps, with the time it sleeps to, first one first. -/
  sleepers : List (Nat × NativeRef) := []
  /-- The native work that waits for a promise, first one first. -/
  waiters : List (PromiseRef × NativeRef) := []
  /-- The number of times that timed work may still be done in this round. -/
  allowance : Nat := roundAllowance
  /-- The native work that is put off to the next round, last one first. -/
  postponed : List NativeRef := []
  /-- The time after which nothing is waited for. -/
  limit : Nat

namespace World

def run? (w : World) (r : Nat) : Option Run :=
  (w.runs[r]?).join

def setRun (w : World) (r : Nat) (run : Run) : World :=
  { w with runs := w.runs.setIfInBounds r (some run) }

def modifyScheduler (w : World) (r : Nat) (f : Scheduler → Scheduler) : World :=
  match w.run? r with
  | some run => w.setRun r { run with scheduler := f run.scheduler }
  | none => w

/-- Has native work looked at, and the native work that its run belongs to, and so on up to
the main program; a run belongs to an earlier one, so `fuel` runs are enough. -/
def alert : (fuel : Nat) → World → NativeRef → World
  | 0, w, _ => w
  | fuel + 1, w, n =>
    match w.run? n.run with
    | none => w
    | some run =>
      let scheduler := run.scheduler.setAlerted n.native true
      if scheduler.queue.contains n.native then w.setRun n.run { run with scheduler := scheduler }
      else
        let w := w.setRun n.run { run with scheduler := scheduler.enqueue n.native }
        match run.owner with
        | some owner => alert fuel w owner
        | none => w

/-- Has native work looked at that something has happened to. -/
def notify (w : World) (n : NativeRef) : World :=
  w.alert w.runs.size n

/-- Settles a promise and has the native work looked at that waits for it. -/
def settle (w : World) (p : PromiseRef) (outcome : Except String Value) : World :=
  let (woken, waiters) := w.waiters.partition fun (q, _) => decide (q = p)
  let w := { w with
    shared := { w.shared with heap := w.shared.heap.modifyPromise p (·.settle outcome) }
    waiters := waiters }
  woken.foldl (fun w (_, n) => w.notify n) w

def wake (w : World) (r : Nat) : World :=
  w.modifyScheduler r (·.wake w.shared.heap)

def endVisit (w : World) (r : Nat) : World :=
  match w.run? r with
  | some run => w.setRun r { run with visit := none }
  | none => w

/-- Ends native work with its result. -/
def complete (w : World) (n : NativeRef) (result : Except String Value) : World :=
  match (w.run? n.run).bind (·.scheduler.native? n.native) with
  | none => w
  | some native =>
    let w := (w.modifyScheduler n.run (·.remove n.native)).endVisit n.run
    (w.settle native.promise result).wake n.run

/-- The runs without the run `r` and all runs that belong to it, directly or not; a run
belongs to an earlier one. -/
def withoutRun (runs : Array (Option Run)) (r : Nat) : Array (Option Run) :=
  runs.foldl (fun kept entry =>
    match entry with
    | none => kept.push none
    | some run =>
      let orphaned := match run.owner with
        | some owner => (kept[owner.run]?).join.isNone
        | none => false
      if kept.size = r || orphaned then kept.push none else kept.push (some run)) #[]

def drop (w : World) (r : Nat) : World :=
  let runs := withoutRun w.runs r
  let isLive (n : NativeRef) : Bool := (runs[n.run]?).join.isSome
  { w with
    runs := runs
    reads := w.reads.filter isLive
    sleepers := w.sleepers.filter fun (_, n) => isLive n
    waiters := w.waiters.filter fun (_, n) => isLive n
    postponed := w.postponed.filter isLive }

def start (w : World) (c : Compiled) (program : ProgramState) (owner : Option NativeRef) : World :=
  let h := { w.shared.heap with functions := w.shared.heap.functions ++ c.functions }
  let (h, main) := h.newFunction c.main
  let (h, promise) := h.newPromise {}
  { w with
    shared := { w.shared with heap := h }
    focus := w.runs.size
    runs := w.runs.push (some {
      program := { program with data := c.data, dataCursor := 0 }
      scheduler := ({} : Scheduler).spawn main [] promise
      main := promise
      owner := owner }) }

end World

def compileText (source : String) (interactive : Bool) (base : Nat) :
    Except EvalError Compiled := do
  match Program.ofText source with
  | .error e => throw (.parsing e)
  | .ok p =>
    match p.compile interactive base with
    | .error e => throw (.compiling e)
    | .ok c => return c

end TaskBasic
