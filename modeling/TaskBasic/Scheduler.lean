import TaskBasic.Files
import TaskBasic.Task

/-
The scheduler of one running program.

Tasks that can go on stand in a queue; the others wait.  Besides them there is
native work: sleeping, waiting for a module that another program loads, and
loading a module.  A second queue holds the native work to be looked at.
-/

namespace TaskBasic

/-- Native work, and how far it is. -/
inductive Work
  | sleep (milliseconds : Nat)
  | sleeping
  | slept
  | wait (promise : PromiseRef)
  | load (path : String)
  | reading (path : String)
  | read (path : String) (content : Except FileError String)
  /-- A module that runs, as the run with the given number. -/
  | running (path : String) (run : Nat)

/-- Whether a look at the work counts against the allowance of a round. -/
def Work.isTimed : Work → Bool
  | .wait _ => false
  | .running _ _ => false
  | _ => true

structure Native where
  id : Nat
  promise : PromiseRef
  work : Work
  /-- True if something has happened to the work since the last look at it began. -/
  alerted : Bool := false

structure Scheduler where
  /-- The tasks that can go on, first one first. -/
  ready : List Task := []
  waiting : List Task := []
  natives : List Native := []
  /-- The native work to be looked at, first one first. -/
  queue : List Nat := []
  nextTask : Nat := 0
  nextNative : Nat := 0

namespace Scheduler

def spawn (s : Scheduler) (function : FunctionRef) (args : List Value) (promise : PromiseRef) :
    Scheduler :=
  { s with
    ready := s.ready ++ [Task.start s.nextTask function args promise]
    nextTask := s.nextTask + 1 }

/-- Adds native work, to be looked at last. -/
def register (s : Scheduler) (work : Work) (promise : PromiseRef) : Scheduler :=
  { s with
    natives := s.natives ++ [{ id := s.nextNative, promise := promise, work := work }]
    queue := s.queue ++ [s.nextNative]
    nextNative := s.nextNative + 1 }

/-- Takes a task that has stopped back: it waits unless it can go on. -/
def park (h : Heap) (s : Scheduler) (t : Task) : Scheduler :=
  if t.canResume h then { s with ready := s.ready ++ [t] } else
    { s with waiting := s.waiting ++ [t] }

/-- Moves the waiting tasks that can go on to the end of the queue, in their order. -/
def wake (h : Heap) (s : Scheduler) : Scheduler :=
  let (ready, waiting) := s.waiting.partition (Task.canResume h)
  { s with ready := s.ready ++ ready, waiting := waiting }

def native? (s : Scheduler) (id : Nat) : Option Native :=
  s.natives.find? (·.id == id)

def setWork (s : Scheduler) (id : Nat) (work : Work) : Scheduler :=
  { s with natives := s.natives.map fun n => if n.id == id then { n with work := work } else n }

def setAlerted (s : Scheduler) (id : Nat) (alerted : Bool) : Scheduler :=
  { s with
    natives := s.natives.map fun n => if n.id == id then { n with alerted := alerted } else n }

def remove (s : Scheduler) (id : Nat) : Scheduler :=
  { s with natives := s.natives.filter (·.id != id) }

/-- Has native work looked at, after all else. -/
def enqueue (s : Scheduler) (id : Nat) : Scheduler :=
  if s.queue.contains id then s else { s with queue := s.queue ++ [id] }

end Scheduler

end TaskBasic
