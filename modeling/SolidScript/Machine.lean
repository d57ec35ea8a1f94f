import SolidScript.Log
import SolidScript.Settings

namespace SolidScript

/-- A call of a built-in module that waits, with the scope in which it was made. -/
structure DeferredCall where
  builtin : Builtin
  scope : ScopeId
  arguments : List Argument
  span : Span

/-- The state of a run. `stack` has the scope opened last in front. -/
structure Machine where
  scopes : Scopes
  root : ScopeId
  stack : List ScopeId
  pin : Option ScopeId
  operators : Operators
  queue : List DeferredCall
  log : Log

namespace Machine

/-- The scopes of a new run: a root with the modules and variables of the settings. -/
def initialScopes (settings : Settings) (nextId : Nat) : Scopes :=
  let (scopes, root) := (Scopes.empty nextId).create none
  let scopes := settings.builtins.foldl (fun s b => s.setModule root b.name (.builtin b)) scopes
  settings.presets.foldl (fun s (name, value) => s.setVariable root name (.number value)) scopes

/-- A new run, whose contexts are numbered from `nextId` on. -/
def new (settings : Settings) (nextId : Nat := 0) : Machine where
  scopes := initialScopes settings nextId
  root := 0
  stack := [0]
  pin := none
  operators := Operators.standard
  queue := []
  log := []

/-- The scope in which statements run now. -/
def current (m : Machine) : ScopeId := (m.pin.or m.stack.head?).getD m.root

/-- Adds an entry to the log. -/
def report (m : Machine) (level : Level) (message : String) : Machine :=
  { m with log := m.log ++ [⟨level, message⟩] }

/-- Adds a warning for each missing name. -/
def warnAll (m : Machine) (missing : List Missing) : Machine :=
  { m with log := m.log ++ missing.map fun w => ⟨.warning, w.message⟩ }

/-- Makes a child of the current scope, and opens nothing. -/
def childScope (m : Machine) : Machine × ScopeId :=
  let (scopes, scope) := m.scopes.create (some m.current)
  ({ m with scopes }, scope)

/-- Makes a child of the current scope and opens it. -/
def pushScope (m : Machine) : Machine × ScopeId :=
  let (m, scope) := m.childScope
  ({ m with stack := scope :: m.stack }, scope)

/-- Closes the scope opened last; the root stays open. -/
def popScope (m : Machine) : Machine × Option ScopeId :=
  match m.stack with
  | top :: next :: rest => ({ m with stack := next :: rest }, some top)
  | _ => (m, none)

/-- Makes a scope the current one, or takes the pin away; the stack stays as it is. -/
def setPin (m : Machine) (pin : Option ScopeId) : Machine := { m with pin }

/-- Binds a variable in the current scope. -/
def setVariable (m : Machine) (name : String) (value : Value) : Machine :=
  { m with scopes := m.scopes.setVariable m.current name value }

/-- Runs an evaluation in view of a scope; its warnings go to the log. -/
def evaluateIn {α : Type} (m : Machine) (scope : ScopeId) (e : Bindings → Evaluation α) :
    Machine × Except EvalError α :=
  let outcome := e (m.scopes.bindings scope m.operators)
  (m.warnAll outcome.warnings, outcome.result)

/-- Evaluates an expression in the current scope. -/
def evaluate (m : Machine) (e : Expr) : Machine × Except EvalError Value :=
  m.evaluateIn m.current (·.evaluate e)

/-- Notes in the log that a name was looked up in vain. -/
def orWarn {α : Type} (m : Machine) (space : Namespace) (name : String) (found : Option α) :
    Machine :=
  if found.isSome then m else m.warnAll [⟨space, name⟩]

/-- The value of a variable in view of a scope, with a warning if there is none. -/
def getVariable (m : Machine) (scope : ScopeId) (name : String) : Machine × Value :=
  let found := m.scopes.findVariable scope name
  (m.orWarn .variable name found, found.getD .undefined)

/-- The module of a name in view of a scope, with a warning if there is none. -/
def getModule (m : Machine) (scope : ScopeId) (name : String) : Machine × Option Module :=
  let found := m.scopes.findModule scope name
  (m.orWarn .module name found, found)

/-- The function of a name in view of a scope, with a warning if there is none. -/
def getFunction (m : Machine) (scope : ScopeId) (name : String) :
    Machine × Option FunctionDefinition :=
  let found := m.scopes.findFunction scope name
  (m.orWarn .function name found, found)

/-- Puts a call at the end of the queue. -/
def defer (m : Machine) (call : DeferredCall) : Machine := { m with queue := m.queue ++ [call] }

/-- Calls a built-in module. -/
def invoke (m : Machine) (arguments : List ResolvedArgument) : Builtin → Machine
  | .echo =>
    m.report .info ("ECHO: " ++ String.intercalate ", " (arguments.map ResolvedArgument.text))
  | .cube => m

/-- Carries out a call: its arguments are evaluated in the scope in which it was made. -/
def perform (m : Machine) (call : DeferredCall) : Machine × Except EvalError Unit :=
  match m.evaluateIn call.scope (·.resolve call.arguments) with
  | (m, .ok arguments) => (m.invoke arguments call.builtin, .ok ())
  | (m, .error e) => (m, .error e)

/-- Carries out calls in order, up to the first that fails. -/
def performAll (m : Machine) : List DeferredCall → Machine × Except EvalError Unit
  | [] => (m, .ok ())
  | call :: calls =>
    match m.perform call with
    | (m, .ok ()) => m.performAll calls
    | (m, .error e) => (m, .error e)

/-- Empties the queue and carries out what was in it. -/
def runDeferred (m : Machine) : Machine × Except EvalError Unit :=
  { m with queue := [] }.performAll m.queue

end Machine

end SolidScript
