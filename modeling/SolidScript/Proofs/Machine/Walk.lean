import SolidScript.Machine.Runner

namespace SolidScript

/-- What a walk comes to: the steps made, the machine that is left, and the error if there is
one. -/
structure Walk where
  steps : List Step
  machine : Machine
  result : Except EvalError Unit

namespace Walk

/-- Goes on from where a walk ended, unless it failed. -/
def andThen (w : Walk) (next : Machine → Walk) : Walk :=
  match w.result with
  | .ok () => ⟨w.steps ++ (next w.machine).steps, (next w.machine).machine, (next w.machine).result⟩
  | .error _ => w

/-- A step, if what the statement does has succeeded. -/
def single (s : Stmt) : Machine × Except EvalError Unit → Walk
  | (m, .ok ()) => ⟨[⟨s.label, s.span, m.scopes.id m.current⟩], m, .ok ()⟩
  | (m, .error e) => ⟨[], m, .error e⟩

/-- A walk in a new child of the current scope, which is pinned meanwhile. However it ends, the pin
is put back. -/
def inChild (m : Machine) (body : Machine → Walk) : Walk :=
  let (inner, scope) := m.childScope
  let w := body (inner.setPin (some scope))
  { w with machine := w.machine.setPin m.pin }

/-- What is seen from outside: the steps in order, and the error behind them if there is one. -/
def outcomes (w : Walk) : List (Except EvalError Step) :=
  w.steps.map .ok ++
    match w.result with
    | .ok () => []
    | .error e => [.error e]

end Walk

/-- Whether a condition holds in the current scope. -/
def Machine.decides (m : Machine) (condition : Expr) : Machine × Except EvalError Bool :=
  m.evaluateIn m.current fun b => do
    let c ← b.evaluate condition
    Evaluation.located condition.span c.truthy

mutual

/-- Walks over a statement. -/
def Stmt.walk : Stmt → Machine → Walk
  | .compound ss _, m => Stmt.walkAll ss m
  | .branch condition thenBranch none _, m =>
    match m.decides condition with
    | (m, .ok true) => .inChild m thenBranch.walk
    | (m, .ok false) => ⟨[], m, .ok ()⟩
    | (m, .error e) => ⟨[], m, .error e⟩
  | .branch condition thenBranch (some elseBranch) _, m =>
    match m.decides condition with
    | (m, .ok true) => .inChild m thenBranch.walk
    | (m, .ok false) => .inChild m elseBranch.walk
    | (m, .error e) => ⟨[], m, .error e⟩
  | .assignment target token value span, m =>
    .single (.assignment target token value span) <|
      match m.evaluate value with
      | (m, .ok v) => (m.setVariable target v, .ok ())
      | (m, .error e) => (m, .error e)
  | .moduleCall name arguments span, m =>
    .single (.moduleCall name arguments span) <|
      match m.getModule m.current name with
      | (next, some (.builtin b)) => (next.defer ⟨b, m.current, arguments, span⟩, .ok ())
      | (next, _) => (next, .error ⟨.notImplemented .module name, some span⟩)
  | .moduleDef name parameters body span, m =>
    let scopes := m.scopes.setModule m.current name (.defined ⟨name, parameters, body, span⟩)
    .single (.moduleDef name parameters body span) ({ m with scopes }, .ok ())
  | .functionDef name parameters body span, m =>
    let scopes := m.scopes.setFunction m.current name ⟨name, parameters, body, span⟩
    .single (.functionDef name parameters body span) ({ m with scopes }, .ok ())
  | .expression expr span, m => .single (.expression expr span) (m, .ok ())

/-- Walks over statements from left to right, up to the first that fails. -/
def Stmt.walkAll : List Stmt → Machine → Walk
  | [], m => ⟨[], m, .ok ()⟩
  | s :: ss, m => (s.walk m).andThen (Stmt.walkAll ss)

end

/-- What no walk changes: where the machine stands among the scopes, and the operators. -/
structure Machine.Keeps (m n : Machine) : Prop where
  pin : n.pin = m.pin
  stack : n.stack = m.stack
  root : n.root = m.root
  operators : n.operators = m.operators

namespace Machine.Keeps

variable {m n l : Machine}

theorem refl (m : Machine) : m.Keeps m := ⟨rfl, rfl, rfl, rfl⟩

theorem trans (hmn : m.Keeps n) (hnl : n.Keeps l) : m.Keeps l where
  pin := hnl.pin.trans hmn.pin
  stack := hnl.stack.trans hmn.stack
  root := hnl.root.trans hmn.root
  operators := hnl.operators.trans hmn.operators

theorem evaluateIn {α : Type} (m : Machine) (scope : ScopeId) (e : Bindings → Evaluation α) :
    m.Keeps (m.evaluateIn scope e).1 := ⟨rfl, rfl, rfl, rfl⟩

theorem getModule (m : Machine) (scope : ScopeId) (name : String) :
    m.Keeps (m.getModule scope name).1 := by
  unfold Machine.getModule Machine.orWarn
  by_cases hfound : (m.scopes.findModule scope name).isSome
  · simp only [hfound, if_true]
    exact refl m
  · simp only [hfound]
    exact ⟨rfl, rfl, rfl, rfl⟩

end Machine.Keeps

namespace Walk

theorem single_keeps {m : Machine} (s : Stmt) {done : Machine × Except EvalError Unit}
    (h : m.Keeps done.1) : m.Keeps (single s done).machine := by
  obtain ⟨n, result⟩ := done
  cases result <;> exact h

theorem andThen_keeps {m : Machine} {w : Walk} {next : Machine → Walk} (hw : m.Keeps w.machine)
    (hnext : w.machine.Keeps (next w.machine).machine) : m.Keeps (w.andThen next).machine := by
  unfold andThen
  split
  · exact hw.trans hnext
  · exact hw

/-- The pin changes inside a branch only. -/
theorem inChild_keeps {m : Machine} {body : Machine → Walk}
    (h : ∀ inner : Machine, inner.Keeps (body inner).machine) :
    m.Keeps (inChild m body).machine := by
  have hbody := h (m.childScope.1.setPin (some m.childScope.2))
  exact ⟨rfl, hbody.stack, hbody.root, hbody.operators⟩

end Walk

mutual

/-- A walk ends in the scope in which it began, even if it fails. -/
theorem Stmt.walk_keeps : (s : Stmt) → (m : Machine) → m.Keeps (s.walk m).machine
  | .compound ss _, m => by
    rw [Stmt.walk]
    exact Stmt.walkAll_keeps ss m
  | .branch condition thenBranch none _, m => by
    have hcondition : m.Keeps (m.decides condition).1 := .evaluateIn ..
    rw [Stmt.walk]
    generalize m.decides condition = decided at hcondition ⊢
    obtain ⟨n, e | taken⟩ := decided
    · exact hcondition
    · cases taken with
      | false => exact hcondition
      | true => exact hcondition.trans (Walk.inChild_keeps thenBranch.walk_keeps)
  | .branch condition thenBranch (some elseBranch) _, m => by
    have hcondition : m.Keeps (m.decides condition).1 := .evaluateIn ..
    rw [Stmt.walk]
    generalize m.decides condition = decided at hcondition ⊢
    obtain ⟨n, e | taken⟩ := decided
    · exact hcondition
    · cases taken with
      | false => exact hcondition.trans (Walk.inChild_keeps elseBranch.walk_keeps)
      | true => exact hcondition.trans (Walk.inChild_keeps thenBranch.walk_keeps)
  | .assignment target token value span, m => by
    have hvalue : m.Keeps (m.evaluate value).1 := .evaluateIn ..
    rw [Stmt.walk]
    apply Walk.single_keeps
    generalize m.evaluate value = evaluated at hvalue ⊢
    obtain ⟨n, e | v⟩ := evaluated
    · exact hvalue
    · exact hvalue.trans ⟨rfl, rfl, rfl, rfl⟩
  | .moduleCall name arguments span, m => by
    have hmodule := Machine.Keeps.getModule m m.current name
    rw [Stmt.walk]
    apply Walk.single_keeps
    generalize m.getModule m.current name = found at hmodule ⊢
    obtain ⟨n, _ | _ | _⟩ := found
    · exact hmodule
    · exact hmodule.trans ⟨rfl, rfl, rfl, rfl⟩
    · exact hmodule
  | .moduleDef .., m => by
    rw [Stmt.walk]
    exact Walk.single_keeps _ ⟨rfl, rfl, rfl, rfl⟩
  | .functionDef .., m => by
    rw [Stmt.walk]
    exact Walk.single_keeps _ ⟨rfl, rfl, rfl, rfl⟩
  | .expression .., m => by
    rw [Stmt.walk]
    exact Walk.single_keeps _ (.refl m)

theorem Stmt.walkAll_keeps : (ss : List Stmt) → (m : Machine) → m.Keeps (Stmt.walkAll ss m).machine
  | [], m => by
    rw [Stmt.walkAll]
    exact .refl m
  | s :: ss, m => by
    rw [Stmt.walkAll]
    exact Walk.andThen_keeps (s.walk_keeps m) (Stmt.walkAll_keeps ss _)

end

end SolidScript
