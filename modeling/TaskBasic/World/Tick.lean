import TaskBasic.World

/-
How programs go on.

A run lets its tasks go on one after the other.  When none can, it looks at its
native work, from the first in the queue on until some is done, and then at its
tasks again.  When its visit ends without that, the run that it belongs to goes
on.  Between two rounds the work that was put off joins the queue.  When nothing
is left to look at anywhere, the files being read are there, or else the clock
jumps to the time when the next sleep is over.

* `World.tick` is one step: an instruction of a task, or a look at native work.
* `World.run` takes steps until the main program ends.
-/

namespace TaskBasic

inductive Progress
  | going (w : World)
  | ended (w : World) (program : ProgramState) (result : Except EvalError Value)
  /-- Everything waits for something that does not happen. -/
  | hang (w : World)

def uncaughtError (limit : Nat) (h : Heap) (t : Task) (cause : Failure) : UncaughtError :=
  let frames := t.framesLeft
  { message := cause.message
    line := frames.head?.map h.lineOf
    trace := (frames.take limit).map fun f => ⟨(h.function f.function).name, h.lineOf f⟩ }

namespace World

/-- One instruction of a task, or the end of its wait. -/
def taskAction (env : Env) (t : Task) : Exec Flow :=
  if t.awaiting then Exec.andNext Exec.finishAwait else Exec.step env

/-- The state of the run `r` and of what is shared, as a task of the run has left it. -/
def putBack (w : World) (r : Nat) (run : Run) (m : Machine) (current : Option Task) : World :=
  let run := { run with program := m.program, scheduler := m.scheduler, current := current }
  { w with shared := { w.shared with heap := m.heap, console := m.console, modules := m.modules } }
    |>.setRun r run

/-- Takes back a task that has stopped and waits. -/
def suspend (w : World) (r : Nat) (t : Task) : World :=
  (w.modifyScheduler r fun s => s.park w.shared.heap t).wake r

/-- Decides how a run ends. -/
def finish (w : World) (r : Nat) (result : Except EvalError Value) : World :=
  match w.run? r with
  | some run => w.setRun r { run with ending := some result }
  | none => w

/-- Ends a task that has failed: its error is the result of its promise, or of the whole run
if it is the main task. -/
def failTask (w : World) (r : Nat) (main : PromiseRef) (t : Task) (cause : Failure) : World :=
  let e := uncaughtError w.shared.env.config.traceLimit w.shared.heap t cause
  if t.promise = main then w.finish r (.error (.running e))
  else (w.settle t.promise (.error e.message)).wake r

def runTask (w : World) (r : Nat) (run : Run) (t : Task) : World :=
  if !t.canResume w.shared.heap then (w.setRun r { run with current := none }).suspend r t
  else
    let m : Machine :=
      { heap := w.shared.heap, console := w.shared.console, modules := w.shared.modules,
        program := run.program, scheduler := run.scheduler, task := t }
    match (taskAction w.shared.env t).run m with
    | .ok .next m => w.putBack r run m (some m.task)
    | .ok .suspend m => (w.putBack r run m none).suspend r m.task
    | .ok (.finished v) m => ((w.putBack r run m none).settle m.task.promise (.ok v)).wake r
    | .error (.exit code) m => (w.putBack r run m none).finish r (.error (.exit code))
    | .error .endless m => (w.putBack r run m none).finish r (.error .endless)
    | .error (.failure cause) m =>
      match m.task.recover? cause.message with
      | some t => w.putBack r run m (some t)
      | none => (w.putBack r run m none).failTask r run.main m.task cause

/-- Ends the load of a module by an error: the module is forgotten, and a request to exit
ends the importing run too. -/
def failLoad (w : World) (n : NativeRef) (path : String) (e : EvalError) : World :=
  let w := { w with
    focus := n.run
    shared := { w.shared with modules := w.shared.modules.erase path } }
  match e with
  | .exit code => w.finish n.run (.error (.exit code))
  | .endless => w.finish n.run (.error .endless)
  | e => w.complete n (.error (Failure.inModule e.text path).message)

/-- Ends the load of a module that has run: its globals are kept. -/
def finishLoad (w : World) (n : NativeRef) (path : String) (globals : Dict) : World :=
  let (h, dict) := w.shared.heap.newDict globals
  let w := { w with
    focus := n.run
    shared := { w.shared with heap := h, modules := w.shared.modules.finish path dict } }
  w.complete n (.ok (.dict dict))

/-- Ends a run: the main program, or a module, whose result the importing run gets. -/
def endRun (w : World) (r : Nat) (run : Run) (result : Except EvalError Value) : Progress :=
  let w := w.drop r
  match run.owner, run.program.path with
  | some n, some path =>
    match result with
    | .ok _ => .going (w.finishLoad n path run.program.globals)
    | .error e => .going (w.failLoad n path e)
  | _, _ => .ended w run.program result

def startModule (w : World) (n : NativeRef) (path : String) (content : Except FileError String) :
    World :=
  let compiled : Except EvalError Compiled := match content with
    | .error e => .error (.file e.message)
    | .ok source => compileText source false w.shared.heap.functions.size
  match compiled with
  | .error e => w.failLoad n path e
  | .ok c =>
    let w := w.modifyScheduler n.run (·.setWork n.native (.running path w.runs.size))
    w.start c { baseDir := Path.directory path, path := some path } (some n)

def spend (w : World) : World :=
  { w with allowance := w.allowance - 1 }

def beginRead (w : World) (n : NativeRef) (path : String) : World :=
  let w := w.modifyScheduler n.run (·.setWork n.native (.reading path))
  { w with reads := w.reads ++ [n] }

/-- Puts native work off to the next round.  A file is read meanwhile. -/
def postpone (w : World) (n : NativeRef) (work : Work) : World :=
  let w := match work with
    | .load path => w.beginRead n path
    | _ => w
  if w.postponed.head? = some n then w else { w with postponed := n :: w.postponed }

def look (w : World) (n : NativeRef) (work : Work) : World :=
  match work with
  | .sleep 0 => w.spend.complete n (.ok .absent)
  | .sleep ms =>
    let w := w.modifyScheduler n.run (·.setWork n.native .sleeping)
    { w with sleepers := w.sleepers ++ [(w.shared.env.now + ms, n)] }
  | .sleeping => w
  | .slept => w.spend.complete n (.ok .absent)
  | .wait p =>
    match (w.shared.heap.promise p).outcome? with
    | some outcome =>
      let h := w.shared.heap.modifyPromise p Promise.observe
      { w with shared := { w.shared with heap := h } }.complete n outcome
    | none =>
      if w.waiters.any fun (_, m) => decide (m = n) then w
      else { w with waiters := w.waiters ++ [(p, n)] }
  | .load path => w.beginRead n path
  | .reading _ => w
  | .read path content => w.spend.startModule n path content
  | .running _ run => { w with focus := run }

/-- The result of a run with nothing left to do. -/
def restingResult (w : World) (run : Run) : Except EvalError Value :=
  let deadlock : EvalError := .running { message := Failure.deadlock.message }
  if !run.scheduler.waiting.isEmpty then .error deadlock
  else
    match (w.shared.heap.promise run.main).outcome? with
    | some (.ok v) => .ok v
    | some (.error message) => .error (.running { message := message })
    | none => .error deadlock

def endRead (w : World) (n : NativeRef) : World :=
  match (w.run? n.run).bind (·.scheduler.native? n.native) with
  | some { work := .reading path, .. } =>
    let content := w.shared.env.files.read path
    (w.modifyScheduler n.run (·.setWork n.native (.read path content))).notify n
  | _ => w

def endSleep (w : World) (n : NativeRef) : World :=
  (w.modifyScheduler n.run (·.setWork n.native .slept)).notify n

def earliest? : List (Nat × NativeRef) → Option Nat
  | [] => none
  | (time, _) :: rest =>
    match earliest? rest with
    | some other => some (if other < time then other else time)
    | none => some time

/-- Lets time go on when there is nothing left to look at. -/
def idle (w : World) : Progress :=
  if !w.reads.isEmpty then .going (w.reads.foldl endRead { w with reads := [] })
  else
    match earliest? w.sleepers with
    | none => .hang w
    | some time =>
      if w.limit < time then .hang w
      else
        let (due, sleepers) := w.sleepers.partition fun (t, _) => decide (t = time)
        let shared := { w.shared with env := { w.shared.env with now := time } }
        .going (due.foldl (fun w (_, n) => w.endSleep n)
          { w with shared := shared, sleepers := sleepers })

/-- Begins the next round, at once if there is something to look at. -/
def nextRound (w : World) : Progress :=
  let w := w.postponed.foldl notify { w with allowance := roundAllowance, postponed := [] }
  match w.run? w.focus with
  | some run => if run.scheduler.queue.isEmpty then w.idle else .going w
  | none => .hang w

/-- Ends the visit of a run that has found no work done: the run that it belongs to goes on,
or else the next round begins. -/
def leave (w : World) (r : Nat) (run : Run) : Progress :=
  let w := w.endVisit r
  match run.owner with
  | some owner => .going { w with focus := owner.run }
  | none => w.nextRound

/-- Begins a look at native work that has been taken from the queue. -/
def beginLook (w : World) (r : Nat) (run : Run) (visit : Visit) (id : Nat) (queue : List Nat) :
    World :=
  let scheduler := ({ run.scheduler with queue := queue } : Scheduler).setAlerted id false
  match run.scheduler.native? id with
  | none => w.setRun r { run with scheduler := scheduler }
  | some native =>
    let w := w.setRun r
      { run with scheduler := scheduler, visit := some { visit with looking := some id } }
    if w.allowance = 0 && native.work.isTimed then w.postpone ⟨r, id⟩ native.work
    else w.look ⟨r, id⟩ native.work

/-- Ends a look in vain, and the visit too if it is over: then the run asks for another. -/
def endLook (w : World) (r : Nat) (run : Run) (visit : Visit) (id : Nat) : Progress :=
  let visit := visit.inVain (((run.scheduler.native? id).map Native.alerted).getD false)
  if visit.isOver then
    match run.owner with
    | some owner => (w.notify owner).leave r run
    | none => w.leave r run
  else .going (w.setRun r { run with visit := some visit })

/-- Goes on with the visit of a run to its native work. -/
def goOn (w : World) (r : Nat) (run : Run) : Progress :=
  match run.visit with
  | none => .going (w.setRun r { run with visit := some { size := run.scheduler.natives.length } })
  | some visit =>
    match visit.looking, run.scheduler.queue with
    | some id, _ => w.endLook r run visit id
    | none, id :: queue => .going (w.beginLook r run visit id queue)
    | none, [] => w.leave r run

def tick (w : World) : Progress :=
  match w.run? w.focus with
  | none => .hang w
  | some run =>
    match run.ending, run.current, run.scheduler.ready with
    | some result, _, _ => w.endRun w.focus run result
    | none, some t, _ => .going (w.runTask w.focus run t)
    | none, none, t :: ready =>
      .going (w.setRun w.focus
        { run with current := some t, scheduler := { run.scheduler with ready := ready } })
    | none, none, [] =>
      if run.scheduler.natives.isEmpty then w.endRun w.focus run (w.restingResult run)
      else w.goOn w.focus run

/-- Takes at most `fuel` steps. -/
def run : (fuel : Nat) → World → Progress
  | 0, w => .hang w
  | fuel + 1, w =>
    match w.tick with
    | .going w => run fuel w
    | p => p

end World

end TaskBasic
