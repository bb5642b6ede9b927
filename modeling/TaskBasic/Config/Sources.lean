import TaskBasic.Config
import TaskBasic.EvalError
import TaskBasic.Files
import TaskBasic.Text.Lowercase
import TaskBasic.Toml.Document

/-
Where settings come from: a file in the current directory, the environment,
and single settings of the command line.  What comes later wins.
-/

namespace TaskBasic.Config

/-- Sets a setting by its name with hyphens.  Unknown names and what is no number where one
is needed are ignored. -/
def set (c : Config) (key value : String) : Config :=
  match key with
  | "max-call-depth" => { c with maxCallDepth := (Numeral.size? value).getD c.maxCallDepth }
  | "module-extension" =>
    { c with moduleExtension := String.ofList (value.toList.dropWhile (· == '.')) }
  | "trace-limit" => { c with traceLimit := (Numeral.size? value).getD c.traceLimit }
  | "log-level" => { c with logLevel := value }
  | _ => c

/-- What stands at a key where something else was needed, for messages. -/
def found : Toml.Node → String
  | .value (.string s) => "string " ++ Text.quote s
  | .value (.integer n) => "integer `" ++ toString n ++ "`"
  | .value (.float x) => "floating point `" ++ FloatFormat.pointed.write x ++ "`"
  | .value (.boolean b) => "boolean `" ++ (if b then "true" else "false") ++ "`"
  | .value .array | .tables _ => "sequence"
  | .value .dateTime | .value .table | .table _ _ => "map"

def natural (node : Toml.Node) : Except String Nat :=
  match node with
  | .value (.integer n) =>
    if 0 ≤ n then .ok n.toNat else .error ("invalid value: " ++ found node ++ ", expected usize")
  | _ => .error ("invalid type: " ++ found node ++ ", expected usize")

def textual (node : Toml.Node) : Except String String :=
  match node with
  | .value (.string s) => .ok s
  | _ => .error ("invalid type: " ++ found node ++ ", expected a string")

/-- Sets what the entry of a document tells.  Unknown keys are ignored. -/
def setEntry (c : Config) (e : Toml.Entry) : Except String Config :=
  match e.place with
  | [.key "max_call_depth"] => (natural e.node).map fun n => { c with maxCallDepth := n }
  | [.key "module_extension"] => (textual e.node).map fun s => { c with moduleExtension := s }
  | [.key "trace_limit"] => (natural e.node).map fun n => { c with traceLimit := n }
  | [.key "log_level"] => (textual e.node).map fun s => { c with logLevel := s }
  | _ => .ok c

def ofToml (source : String) : Except Toml.Complaint Config := do
  let tree ← (Toml.Document.read source).mapError (·.complaint source)
  tree.foldlM (fun c e => (c.setEntry e).mapError (.about source e.start e.stop)) {}

def fileName : String := "momentum.toml"

/-- What the names of variables begin with that hold settings. -/
def variableMark : String := "MOMENTUM_"

/-- Sets what a variable of the environment tells: the rest of its name, in lower case and
with hyphens, is the name of the setting. -/
def setVariable (c : Config) (name value : String) : Config :=
  if variableMark.toList.isPrefixOf name.toList then
    let key := Text.lowercase (String.ofList (name.toList.drop variableMark.length))
    c.set (String.ofList (key.toList.map fun ch => if ch == '_' then '-' else ch)) value
  else c

def load (files : Files) (dir : String) (environment : List (String × String)) :
    Except EvalError Config := do
  let path := Path.join dir fileName
  let c ← if (files.find path).isOk then do
      let source ← (files.read path).mapError fun e => .file e.message
      (ofToml source).mapError fun e => .file (path ++ ": " ++ e.text source)
    else pure {}
  return environment.foldl (fun c (name, value) => c.setVariable name value) c

end TaskBasic.Config
