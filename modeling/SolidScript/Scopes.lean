import SolidScript.Evaluation

namespace SolidScript

/-- The modules that are built in. -/
inductive Builtin where
  /-- Prints its arguments. -/
  | echo
  /-- Takes its arguments and builds nothing. -/
  | cube
deriving DecidableEq, Inhabited

namespace Builtin

/-- The name by which scripts call it. -/
def name : Builtin → String
  | .echo => "echo"
  | .cube => "cube"

/-- All modules that are built in. -/
def all : List Builtin := [.echo, .cube]

/-- The module of the given name. -/
def ofName? (s : String) : Option Builtin := all.find? (·.name = s)

end Builtin

/-- A module that a script defines. -/
structure ModuleDefinition where
  name : String
  parameters : List Parameter
  body : Stmt
  span : Span

/-- A function that a script defines. -/
structure FunctionDefinition where
  name : String
  parameters : List Parameter
  body : Expr
  span : Span

/-- What a name for a module stands for. -/
inductive Module where
  | builtin (which : Builtin)
  | defined (definition : ModuleDefinition)

/-- Names with what they stand for, in ascending order and each only once. -/
abbrev Names (α : Type) := List (String × α)

namespace Names

/-- What a name stands for. -/
def find? {α : Type} (names : Names α) (name : String) : Option α := names.lookup name

/-- Gives a name a meaning, in place of any earlier one. -/
def insert {α : Type} (name : String) (value : α) : Names α → Names α
  | [] => [(name, value)]
  | (n, v) :: rest =>
    if name = n then (name, value) :: rest
    else if name < n then (name, value) :: (n, v) :: rest
    else (n, v) :: insert name value rest

end Names

/-- The place of a context among all contexts. -/
abbrev ScopeId := Nat

/-- A context: its own number, its parent and the names that it binds. -/
structure Context where
  id : Nat
  parent? : Option ScopeId
  values : Names Value
  modules : Names Module
  functions : Names FunctionDefinition

/-- All contexts of a run, and the number that the next one gets. -/
structure Scopes where
  contexts : List Context
  nextId : Nat

namespace Scopes

/-- No contexts yet. The numbers go on from those of all earlier runs. -/
def empty (nextId : Nat) : Scopes := ⟨[], nextId⟩

/-- Adds a context without names, and gives its place. -/
def create (s : Scopes) (parent? : Option ScopeId) : Scopes × ScopeId :=
  (⟨s.contexts ++ [⟨s.nextId, parent?, [], [], []⟩], s.nextId + 1⟩, s.contexts.length)

/-- The context at a place. -/
def context? (s : Scopes) (scope : ScopeId) : Option Context := s.contexts[scope]?

/-- The number of the context at a place. -/
def id (s : Scopes) (scope : ScopeId) : Nat := ((s.context? scope).map Context.id).getD 0

/-- The parent of the context at a place. -/
def parent? (s : Scopes) (scope : ScopeId) : Option ScopeId :=
  (s.context? scope).bind Context.parent?

/-- At most `fuel` contexts from a place outwards. -/
def chainFrom (s : Scopes) : Nat → Option ScopeId → List Context
  | 0, _ => []
  | _ + 1, none => []
  | fuel + 1, some scope =>
    match s.context? scope with
    | some c => c :: s.chainFrom fuel c.parent?
    | none => []

/-- The contexts from a place outwards to the root. Parents are older than their children, so the
number of contexts bounds the way. -/
def chain (s : Scopes) (scope : ScopeId) : List Context :=
  s.chainFrom s.contexts.length (some scope)

/-- The first thing that `find` finds on the way outwards. -/
def lookup {α : Type} (s : Scopes) (scope : ScopeId) (find : Context → Option α) : Option α :=
  (s.chain scope).findSome? find

/-- The value that a variable has in view of a place. -/
def findVariable (s : Scopes) (scope : ScopeId) (name : String) : Option Value :=
  s.lookup scope (·.values.find? name)

/-- The module that a name stands for in view of a place. -/
def findModule (s : Scopes) (scope : ScopeId) (name : String) : Option Module :=
  s.lookup scope (·.modules.find? name)

/-- The function that a name stands for in view of a place. -/
def findFunction (s : Scopes) (scope : ScopeId) (name : String) : Option FunctionDefinition :=
  s.lookup scope (·.functions.find? name)

/-- Changes the context at a place. -/
def modify (s : Scopes) (scope : ScopeId) (f : Context → Context) : Scopes :=
  { s with contexts := s.contexts.modify scope f }

/-- Binds a variable at a place. -/
def setVariable (s : Scopes) (scope : ScopeId) (name : String) (value : Value) : Scopes :=
  s.modify scope fun c => { c with values := c.values.insert name value }

/-- Binds a module at a place. -/
def setModule (s : Scopes) (scope : ScopeId) (name : String) (module : Module) : Scopes :=
  s.modify scope fun c => { c with modules := c.modules.insert name module }

/-- Binds a function at a place. -/
def setFunction (s : Scopes) (scope : ScopeId) (name : String) (function : FunctionDefinition) :
    Scopes :=
  s.modify scope fun c => { c with functions := c.functions.insert name function }

/-- What expressions see at a place. -/
def bindings (s : Scopes) (scope : ScopeId) (operators : Operators) : Bindings where
  find := s.findVariable scope
  isFunction name := (s.findFunction scope name).isSome
  operators := operators

end Scopes

end SolidScript
