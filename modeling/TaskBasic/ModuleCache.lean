import TaskBasic.Files.Path
import TaskBasic.Value

/-
The modules that have been loaded or are being loaded.

A module runs once; later imports get the globals that it left behind.  The
cache also records which loading module waits for which, so that an import
that would wait for itself can be refused.

* `ModuleCache.closesCycle` decides whether one path can be reached from
  another along the recorded imports.
-/

namespace TaskBasic

inductive ModuleState
  /-- It is running; the promise is settled with its globals. -/
  | loading (promise : PromiseRef)
  /-- It has left these globals. -/
  | loaded (globals : DictRef)
deriving Repr, DecidableEq

/-- The modules by their paths, and the imports of those that are being loaded. -/
structure ModuleCache where
  modules : List (String × ModuleState) := []
  imports : List (String × List String) := []

namespace ModuleCache

def get? (c : ModuleCache) (path : String) : Option ModuleState :=
  (c.modules.find? fun (p, _) => Path.same p path).map (·.2)

def put (c : ModuleCache) (path : String) (state : ModuleState) : ModuleCache :=
  if (c.get? path).isSome then
    { c with
      modules := c.modules.map fun (p, s) => if Path.same p path then (p, state) else (p, s) }
  else { c with modules := c.modules ++ [(path, state)] }

def importsOf (c : ModuleCache) (path : String) : List String :=
  ((c.imports.find? fun (p, _) => Path.same p path).map (·.2)).getD []

def forgetImports (c : ModuleCache) (path : String) : ModuleCache :=
  { c with imports := c.imports.filter fun (p, _) => !Path.same p path }

def begin (c : ModuleCache) (path : String) (promise : PromiseRef) : ModuleCache :=
  c.put path (.loading promise)

def finish (c : ModuleCache) (path : String) (globals : DictRef) : ModuleCache :=
  (c.forgetImports path).put path (.loaded globals)

def erase (c : ModuleCache) (path : String) : ModuleCache :=
  let c := c.forgetImports path
  { c with modules := c.modules.filter fun (p, _) => !Path.same p path }

/-- Records that the loading module `importer` waits for `target`. -/
def addImport (c : ModuleCache) (importer target : String) : ModuleCache :=
  if c.imports.any fun (p, _) => Path.same p importer then
    { c with
      imports := c.imports.map fun (p, targets) =>
        if Path.same p importer && !targets.any (Path.same · target) then (p, targets ++ [target])
        else (p, targets) }
  else { c with imports := c.imports ++ [(importer, [target])] }

/-- Whether the path `goal` can be reached from one of the paths `pending`, not going on from
those in `seen`; at most `fuel` paths are looked at. -/
def reaches (c : ModuleCache) (goal : String) :
    (fuel : Nat) → (pending seen : List String) → Bool
  | 0, _, _ => false
  | _ + 1, [], _ => false
  | fuel + 1, path :: pending, seen =>
    if Path.same path goal then true
    else if seen.any (Path.same path) then c.reaches goal fuel pending seen
    else c.reaches goal fuel (c.importsOf path ++ pending) (path :: seen)

def importCount (c : ModuleCache) : Nat :=
  (c.imports.flatMap (·.2)).length

/-- Whether `importer` waiting for `target` would close a cycle: `target` waits already,
directly or through others, for `importer`.  Each recorded import is followed at most once. -/
def closesCycle (c : ModuleCache) (importer target : String) : Bool :=
  c.reaches importer (c.importCount + 2) [target] []

end ModuleCache

end TaskBasic
