import SolidScript.Machine

namespace SolidScript

/-- What is left to do. -/
inductive Work where
  | statement (s : Stmt)
  /-- Put back the pin that was there before a branch was entered. -/
  | restore (pin : Option ScopeId)

/-- A statement that has been run: its form, its bytes and the number of the context. -/
structure Step where
  label : String
  span : Span
  context : Nat
deriving DecidableEq

/-- A walk under way. `work` has the next item in front. -/
structure Runner where
  machine : Machine
  work : List Work

/-- What one item of work leads to. -/
inductive Turn where
  /-- No work is left. -/
  | idle
  /-- No step was made, and the walk goes on. -/
  | silent (next : Runner)
  | stepped (step : Step) (next : Runner)
  | failed (error : EvalError) (next : Runner)

mutual

/-- How many items of work a statement can lead to. -/
def Stmt.weight : Stmt → Nat
  | .compound ss _ => 1 + Stmt.weightAll ss
  | .branch _ a none _ => 2 + a.weight
  | .branch _ a (some b) _ => 2 + a.weight + b.weight
  | _ => 1

/-- How many items of work statements can lead to. -/
def Stmt.weightAll : List Stmt → Nat
  | [] => 0
  | s :: ss => s.weight + Stmt.weightAll ss

end

/-- How many items a piece of work can lead to. -/
def Work.weight : Work → Nat
  | .statement s => s.weight
  | .restore _ => 1

/-- How many items pieces of work can lead to. -/
def Work.weightAll : List Work → Nat
  | [] => 0
  | w :: ws => w.weight + Work.weightAll ws

namespace Runner

/-- A walk over statements that has not begun. -/
def start (machine : Machine) (statements : List Stmt) : Runner :=
  ⟨machine, statements.map .statement⟩

/-- How many items of work are ahead at most. -/
def weight (r : Runner) : Nat := Work.weightAll r.work

/-- The pin from before the outermost open branch, if a branch is open. -/
def outermost? (work : List Work) : Option (Option ScopeId) :=
  (work.filterMap fun
    | .restore pin => some pin
    | .statement _ => none).getLast?

/-- Drops all work after an error. The pin is as it was before the outermost open branch. -/
def abort (machine : Machine) (work : List Work) (error : EvalError) : Turn :=
  match outermost? work with
  | some pin => .failed error ⟨machine.setPin pin, []⟩
  | none => .failed error ⟨machine, []⟩

/-- A step that was made in the current scope. -/
def stepped (s : Stmt) (machine : Machine) (work : List Work) : Turn :=
  .stepped ⟨s.label, s.span, machine.scopes.id machine.current⟩ ⟨machine, work⟩

/-- Enters a branch: in a new scope, which is pinned until the branch is left. -/
def enter (machine : Machine) (work : List Work) : Option Stmt → Turn
  | none => .silent ⟨machine, work⟩
  | some s =>
    let (inner, scope) := machine.childScope
    .silent ⟨inner.setPin (some scope), .statement s :: .restore machine.pin :: work⟩

/-- Runs a statement; `work` is what is left behind it. -/
def visit (machine : Machine) (work : List Work) (s : Stmt) : Turn :=
  match s with
  | .compound ss _ => .silent ⟨machine, ss.map .statement ++ work⟩
  | .branch condition thenBranch elseBranch _ =>
    let (machine, result) := machine.evaluateIn machine.current fun b => do
      let c ← b.evaluate condition
      Evaluation.located condition.span c.truthy
    match result with
    | .ok true => enter machine work (some thenBranch)
    | .ok false => enter machine work elseBranch
    | .error e => abort machine work e
  | .assignment target _ value _ =>
    match machine.evaluate value with
    | (machine, .ok v) => stepped s (machine.setVariable target v) work
    | (machine, .error e) => abort machine work e
  | .moduleCall name arguments span =>
    let scope := machine.current
    match machine.getModule scope name with
    | (machine, some (.builtin b)) => stepped s (machine.defer ⟨b, scope, arguments, span⟩) work
    | (machine, _) => abort machine work ⟨.notImplemented .module name, some span⟩
  | .moduleDef name parameters body span =>
    let scopes := machine.scopes.setModule machine.current name
      (.defined ⟨name, parameters, body, span⟩)
    stepped s { machine with scopes } work
  | .functionDef name parameters body span =>
    let scopes := machine.scopes.setFunction machine.current name ⟨name, parameters, body, span⟩
    stepped s { machine with scopes } work
  | .expression .. => stepped s machine work

/-- Takes one item of work. -/
def turn (r : Runner) : Turn :=
  match r.work with
  | [] => .idle
  | .restore pin :: work => .silent ⟨r.machine.setPin pin, work⟩
  | .statement s :: work => visit r.machine work s

/-- Goes on for at most `fuel` items of work, until there is a step or an error. -/
def advance : Nat → Runner → Option (Except EvalError Step) × Runner
  | 0, r => (none, r)
  | fuel + 1, r =>
    match r.turn with
    | .idle => (none, r)
    | .silent next => advance fuel next
    | .stepped step next => (some (.ok step), next)
    | .failed error next => (some (.error error), next)

/-- The next step or the error that ends the walk; nothing once the walk is over. -/
def next (r : Runner) : Option (Except EvalError Step) × Runner := advance r.weight r

/-- At most `limit` steps, the last of which may be an error. -/
def take : Nat → Runner → List (Except EvalError Step) × Runner
  | 0, r => ([], r)
  | limit + 1, r =>
    match r.next with
    | (none, r) => ([], r)
    | (some outcome, r) =>
      let (outcomes, r) := take limit r
      (outcome :: outcomes, r)

/-- All steps to the end of the walk or its first error. -/
def drain (r : Runner) : List (Except EvalError Step) × Runner := r.take r.weight

end Runner

namespace Machine

/-- Runs statements to their end or to the first error. What was bound before an error stays. The
calls that they make wait in the queue. -/
def run (m : Machine) (statements : List Stmt) : Machine × Except EvalError Unit :=
  let (outcomes, r) := (Runner.start m statements).drain
  (r.machine, outcomes.forM (·.map fun _ => ()))

end Machine

end SolidScript
