import SolidScript.Proofs.Evaluation.Faults
import SolidScript.Proofs.Machine.Reports

namespace SolidScript

open Site (Settle)

namespace Machine

/-- What expressions see in the current scope. -/
def view (m : Machine) : Bindings := m.scopes.bindings m.current m.operators

/-- The machine in which the body of a branch is run. -/
def entered (m : Machine) : Machine := m.childScope.1.setPin (some m.childScope.2)

end Machine

mutual

/-- What a walk over a statement comes to, in order. Definitions and expression statements evaluate
nothing, nor does a call before it is carried out. -/
def Stmt.sites : Stmt → Machine → List Site
  | .compound ss _, m => Stmt.sitesAll ss m
  | .branch condition thenBranch none _, m =>
    m.view.sites condition ++ .condition m.view condition ::
      match m.view.decides? condition with
      | some true => thenBranch.sites (m.decides condition).1.entered
      | _ => []
  | .branch condition thenBranch (some elseBranch) _, m =>
    m.view.sites condition ++ .condition m.view condition ::
      match m.view.decides? condition with
      | some true => thenBranch.sites (m.decides condition).1.entered
      | some false => elseBranch.sites (m.decides condition).1.entered
      | none => []
  | .assignment _ _ value _, m => m.view.sites value
  | .moduleCall name _ span, m => [.moduleCall (m.scopes.findModule m.current name) name span]
  | .moduleDef .., _ => []
  | .functionDef .., _ => []
  | .expression .., _ => []

/-- What a walk over statements comes to. -/
def Stmt.sitesAll : List Stmt → Machine → List Site
  | [], _ => []
  | s :: ss, m => s.sites m ++ Stmt.sitesAll ss (s.walk m).machine

end

/-- What a call that was put off comes to when it is carried out. -/
def DeferredCall.sites (call : DeferredCall) (m : Machine) : List Site :=
  (m.scopes.bindings call.scope m.operators).sitesOf call.arguments

namespace Walk

theorem result_andThen (w : Walk) (next : Machine → Walk) :
    (w.andThen next).result = w.result >>= fun _ => (next w.machine).result := by
  obtain ⟨steps, m, e | _⟩ := w <;> rfl

theorem result_single (s : Stmt) (done : Machine × Except EvalError Unit) :
    (single s done).result = done.2 := by
  obtain ⟨m, e | _⟩ := done <;> rfl

end Walk

namespace Machine

/-- A condition fails inside or at a range, and else decides which way to go. -/
theorem settle_decides (m : Machine) (condition : Expr) {later : List Site}
    {next : Bool → Except EvalError Unit}
    (hnext : ∀ taken, m.view.decides? condition = some taken → Settle later (next taken)) :
    Settle (m.view.sites condition ++ .condition m.view condition :: later)
      ((m.decides condition).2 >>= next) := by
  have hdecides : (m.decides condition).2 = (m.view.evaluate condition).result >>= fun c =>
      (Evaluation.located condition.span c.truthy).result :=
    Evaluation.result_bind ..
  rw [hdecides, bind_assoc]
  exact (m.view.settle_evaluate condition).andThen fun c hc =>
    Bindings.settle_condition hc hnext

end Machine

mutual

/-- The walk over a statement fails at the first site with a fault, and at no other. -/
theorem Stmt.settle_walk : (s : Stmt) → (m : Machine) → Settle (s.sites m) (s.walk m).result
  | .compound ss _, m => by
    rw [Stmt.sites, Stmt.walk]
    exact Stmt.settle_walkAll ss m
  | .branch condition thenBranch none span, m => by
    have hwalk : (Stmt.walk (.branch condition thenBranch none span) m).result =
        (m.decides condition).2 >>= fun taken =>
          if taken then (thenBranch.walk (m.decides condition).1.entered).result else .ok () := by
      rw [Stmt.walk]
      obtain ⟨n, e | _ | _⟩ := m.decides condition <;> rfl
    rw [Stmt.sites, hwalk]
    refine m.settle_decides condition fun taken htaken => ?_
    rw [htaken]
    cases taken with
    | true => exact thenBranch.settle_walk _
    | false => exact .pure
  | .branch condition thenBranch (some elseBranch) span, m => by
    have hwalk : (Stmt.walk (.branch condition thenBranch (some elseBranch) span) m).result =
        (m.decides condition).2 >>= fun taken =>
          if taken then (thenBranch.walk (m.decides condition).1.entered).result
          else (elseBranch.walk (m.decides condition).1.entered).result := by
      rw [Stmt.walk]
      obtain ⟨n, e | _ | _⟩ := m.decides condition <;> rfl
    rw [Stmt.sites, hwalk]
    refine m.settle_decides condition fun taken htaken => ?_
    rw [htaken]
    cases taken with
    | true => exact thenBranch.settle_walk _
    | false => exact elseBranch.settle_walk _
  | .assignment target token value span, m => by
    have hvalue : Settle (m.view.sites value) (m.evaluate value).2 := m.view.settle_evaluate value
    rw [Stmt.sites, Stmt.walk, Walk.result_single]
    generalize m.evaluate value = evaluated at hvalue ⊢
    obtain ⟨n, e | v⟩ := evaluated <;> exact hvalue.map fun _ => ()
  | .moduleCall name arguments span, m => by
    rw [Stmt.sites, Stmt.walk, Walk.result_single]
    have hfound : (m.getModule m.current name).2 = m.scopes.findModule m.current name := rfl
    rw [← hfound]
    obtain ⟨n, _ | which | definition⟩ := m.getModule m.current name
    · exact .first (.moduleCall none name span) rfl
    · exact .skip rfl .pure
    · exact .first (.moduleCall (some (.defined definition)) name span) rfl
  | .moduleDef .., m => by
    rw [Stmt.sites, Stmt.walk]
    exact .pure
  | .functionDef .., m => by
    rw [Stmt.sites, Stmt.walk]
    exact .pure
  | .expression .., m => by
    rw [Stmt.sites, Stmt.walk]
    exact .pure

theorem Stmt.settle_walkAll : (ss : List Stmt) → (m : Machine) →
    Settle (Stmt.sitesAll ss m) (Stmt.walkAll ss m).result
  | [], m => by
    rw [Stmt.sitesAll, Stmt.walkAll]
    exact .pure
  | s :: ss, m => by
    rw [Stmt.sitesAll, Stmt.walkAll, Walk.result_andThen]
    exact (s.settle_walk m).andThen fun _ _ => Stmt.settle_walkAll ss _

end

namespace Machine

theorem settle_run (m : Machine) (ss : List Stmt) : Settle (Stmt.sitesAll ss m) (m.run ss).2 := by
  rw [run_eq]
  exact Stmt.settle_walkAll ss m

theorem settle_performAll (m : Machine) (calls : List DeferredCall) :
    Settle (calls.flatMap (·.sites m)) (m.performAll calls).2 := by
  induction calls generalizing m with
  | nil => exact .pure
  | cons call calls ih =>
    have hcall : Settle (call.sites m) (m.perform call).2 := by
      rw [perform_entries]
      exact ((m.scopes.bindings call.scope m.operators).settle_resolve call.arguments).map _
    have hlater : Settle (calls.flatMap (·.sites m)) ((m.perform call).1.performAll calls).2 := by
      rw [perform_entries]
      exact ih { m with log := m.log ++ call.entries m }
    have hresult : (m.performAll (call :: calls)).2 = (m.perform call).2 >>= fun _ =>
        ((m.perform call).1.performAll calls).2 := by
      rw [performAll]
      obtain ⟨n, e | _⟩ := m.perform call <;> rfl
    rw [hresult, List.flatMap_cons]
    exact hcall.andThen fun _ _ => hlater

/-- In whichever state a machine is, an evaluation, a run and the carrying out of what was put off
fail if and only if they come to something with a fault. The error is the fault of the first of
these, and it is at its place, however deep that is inside of other nodes. -/
theorem errors_located (m : Machine) :
    (∀ scope e, Settle ((m.scopes.bindings scope m.operators).sites e)
      (m.evaluateIn scope (·.evaluate e)).2) ∧
    (∀ e, Settle (m.view.sites e) (m.evaluate e).2) ∧
    (∀ ss, Settle (Stmt.sitesAll ss m) (m.run ss).2) ∧
    Settle (m.queue.flatMap (·.sites m)) m.runDeferred.2 := by
  refine ⟨fun scope => ?_, m.view.settle_evaluate, m.settle_run, ?_⟩
  · exact (m.scopes.bindings scope m.operators).settle_evaluate
  · exact settle_performAll { m with queue := [] } m.queue

/-- The error is at the `!`, and neither at the vector nor at the assignment around it. The branch
that is not entered does not count. -/
example :
    let yes : Expr := .literal (.boolean true) (Lexeme.token ⟨.keyword, "true"⟩)
    let one : Expr := .literal (.number 1) (Lexeme.token ⟨.number, "1"⟩)
    let denied : Expr := .unary .not (.range one one ⟨16, 21⟩) ⟨15, 21⟩
    let taken : Stmt := .assignment "x" (Lexeme.token ⟨.identifier, "x"⟩)
      (.vector [one, denied] ⟨11, 22⟩) ⟨7, 23⟩
    let other : Stmt := .moduleCall "unknown" [] ⟨29, 38⟩
    ((Machine.new .standard).run [.branch yes taken (some other) ⟨0, 38⟩]).2 =
      .error ⟨.coercion .range .boolean, some ⟨15, 21⟩⟩ :=
  rfl

end Machine

end SolidScript
