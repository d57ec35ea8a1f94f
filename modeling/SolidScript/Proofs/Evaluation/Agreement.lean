import SolidScript.Proofs.Evaluation
import SolidScript.Proofs.Machine.Reports

namespace SolidScript

namespace Expr

/-- The name of the variable, if the expression is one. -/
def variableName? : Expr → Option String
  | .identifier name _ => some name
  | _ => none

/-- The names of the variables in an expression. -/
def variableNames (e : Expr) : List String := e.parts.filterMap variableName?

/-- The names of the functions that are called in an expression. -/
def calleeNames (e : Expr) : List String := e.parts.filterMap callee?

end Expr

namespace Bindings

variable {b c : Bindings}

/-- The two give the same answer to whatever the expressions ask of them. -/
def AgreeOn (es : List Expr) (b c : Bindings) : Prop :=
  ∀ e ∈ es, (∀ name ∈ e.variableName?, b.find name = c.find name) ∧
    ∀ name ∈ e.callee?, b.isFunction name = c.isFunction name

theorem AgreeOn.of_names {e : Expr}
    (hvariables : ∀ name ∈ e.variableNames, b.find name = c.find name)
    (hcallees : ∀ name ∈ e.calleeNames, b.isFunction name = c.isFunction name) :
    AgreeOn e.parts b c := fun part hpart =>
  ⟨fun name hname => hvariables name (List.mem_filterMap.mpr ⟨part, hpart, hname⟩),
    fun name hname => hcallees name (List.mem_filterMap.mpr ⟨part, hpart, hname⟩)⟩

mutual

/-- An expression is evaluated alike where its names mean the same. -/
theorem evaluate_congr (hoperators : b.operators = c.operators) : (e : Expr) →
    AgreeOn e.parts b c → b.evaluate e = c.evaluate e
  | .literal .., _ => by rw [evaluate, evaluate]
  | .identifier name _, h => by
    rw [AgreeOn, Expr.parts, List.forall_mem_singleton] at h
    rw [evaluate, evaluate, Bindings.variable, Bindings.variable, h.1 name rfl]
  | .vector elements _, h => by
    rw [AgreeOn, Expr.parts, List.forall_mem_cons] at h
    rw [evaluate, evaluate, evaluateAll_congr hoperators elements h.2]
  | .range start stop _, h => by
    rw [AgreeOn, Expr.parts, List.forall_mem_cons, List.forall_mem_append] at h
    obtain ⟨_, hstart, hstop⟩ := h
    rw [evaluate, evaluate, evaluate_congr hoperators start hstart,
      evaluate_congr hoperators stop hstop]
  | .steppedRange start step stop _, h => by
    rw [AgreeOn, Expr.parts, List.forall_mem_cons, List.forall_mem_append,
      List.forall_mem_append] at h
    obtain ⟨_, ⟨hstart, hstep⟩, hstop⟩ := h
    rw [evaluate, evaluate, evaluate_congr hoperators start hstart,
      evaluate_congr hoperators step hstep, evaluate_congr hoperators stop hstop]
  | .unary op operand _, h => by
    rw [AgreeOn, Expr.parts, List.forall_mem_cons] at h
    rw [evaluate, evaluate, evaluate_congr hoperators operand h.2, hoperators]
  | .binary left op right _, h => by
    rw [AgreeOn, Expr.parts, List.forall_mem_cons, List.forall_mem_append] at h
    obtain ⟨_, hleft, hright⟩ := h
    rw [evaluate, evaluate, evaluate_congr hoperators left hleft,
      evaluate_congr hoperators right hright, hoperators]
  | .conditional condition thenExpr elseExpr _, h => by
    rw [AgreeOn, Expr.parts, List.forall_mem_cons, List.forall_mem_append,
      List.forall_mem_append] at h
    obtain ⟨_, ⟨hcondition, hthen⟩, helse⟩ := h
    rw [evaluate, evaluate, evaluate_congr hoperators condition hcondition,
      evaluate_congr hoperators thenExpr hthen, evaluate_congr hoperators elseExpr helse]
  | .index object index _, h => by
    rw [AgreeOn, Expr.parts, List.forall_mem_cons, List.forall_mem_append] at h
    obtain ⟨_, hobject, hindex⟩ := h
    rw [evaluate, evaluate, evaluate_congr hoperators object hobject,
      evaluate_congr hoperators index hindex]
  | .call name arguments _, h => by
    rw [AgreeOn, Expr.parts, List.forall_mem_cons] at h
    obtain ⟨⟨_, hname⟩, harguments⟩ := h
    rw [evaluate, evaluate, hname name rfl, resolve_congr hoperators arguments harguments]

theorem evaluateAll_congr (hoperators : b.operators = c.operators) : (es : List Expr) →
    AgreeOn (Expr.partsAll es) b c → b.evaluateAll es = c.evaluateAll es
  | [], _ => by rw [evaluateAll, evaluateAll]
  | e :: es, h => by
    rw [AgreeOn, Expr.partsAll, List.forall_mem_append] at h
    rw [evaluateAll, evaluateAll, evaluate_congr hoperators e h.1,
      evaluateAll_congr hoperators es h.2]

theorem resolve_congr (hoperators : b.operators = c.operators) : (arguments : List Argument) →
    AgreeOn (Argument.partsAll arguments) b c → b.resolve arguments = c.resolve arguments
  | [], _ => by rw [resolve, resolve]
  | .positional value :: rest, h => by
    rw [AgreeOn, Argument.partsAll, List.forall_mem_append] at h
    rw [resolve, resolve, evaluate_congr hoperators value h.1, resolve_congr hoperators rest h.2]
  | .named name value :: rest, h => by
    rw [AgreeOn, Argument.partsAll, List.forall_mem_append] at h
    rw [resolve, resolve, evaluate_congr hoperators value h.1, resolve_congr hoperators rest h.2]

end

end Bindings

/-- The same expression in two machines with the same operators, in view of scopes in which each of
its variables has the same value or none and each function that it calls is either there or not. The
evaluations have the same outcome, a value or an error, and add the same entries to the logs. These
are warnings, and nothing else changes in either machine. -/
theorem Machine.evaluateIn_agree (m n : Machine) (s t : ScopeId) (e : Expr)
    (hoperators : m.operators = n.operators)
    (hvariables : ∀ name ∈ e.variableNames,
      m.scopes.findVariable s name = n.scopes.findVariable t name)
    (hcallees : ∀ name ∈ e.calleeNames,
      (m.scopes.findFunction s name).isSome = (n.scopes.findFunction t name).isSome) :
    (m.evaluateIn s (·.evaluate e)).2 = (n.evaluateIn t (·.evaluate e)).2 ∧
      ∃ warnings : Log, (∀ entry ∈ warnings, entry.level = .warning) ∧
        (m.evaluateIn s (·.evaluate e)).1 = { m with log := m.log ++ warnings } ∧
        (n.evaluateIn t (·.evaluate e)).1 = { n with log := n.log ++ warnings } := by
  have hsame : (m.scopes.bindings s m.operators).evaluate e =
      (n.scopes.bindings t n.operators).evaluate e :=
    Bindings.evaluate_congr hoperators e (.of_names hvariables hcallees)
  have hother : (n.evaluateIn t (·.evaluate e)).1 =
      n.warnAll ((m.scopes.bindings s m.operators).evaluate e).warnings := by
    rw [hsame]
    rfl
  exact ⟨congrArg Evaluation.result hsame, Log.ofMissing _, Log.level_ofMissing _, rfl, hother⟩

/-- The expression `x + f(y)` at the root of a machine, and in a scope of another one that has a
root and another scope around it. Both see the same `x` and neither sees `y` or `f`, so that both
log the same two warnings. -/
theorem Machine.evaluateIn_agree_inner :
    let name (s : String) : Expr := .identifier s (Lexeme.token ⟨.identifier, s⟩)
    let e : Expr := .binary (name "x") .add (.call "f" [.positional (name "y")] .origin) .origin
    let m := (Machine.new .standard).setVariable "x" (.string "a")
    let n := ((Machine.new .standard).pushScope.1.setVariable "x" (.string "a")).pushScope.1
    (m.evaluateIn 0 (·.evaluate e)).2 = (n.evaluateIn 2 (·.evaluate e)).2 ∧
      (m.evaluateIn 0 (·.evaluate e)).1.log = (n.evaluateIn 2 (·.evaluate e)).1.log ∧
      (m.evaluateIn 0 (·.evaluate e)).1.log.map LogEntry.message =
        ["Ignoring unknown variable 'y'.", "Ignoring unknown function 'f'."] := by
  intro name e m n
  have hvariables : e.variableNames = ["x", "y"] := rfl
  have hcallees : e.calleeNames = ["f"] := rfl
  obtain ⟨hresult, warnings, _, hm, hn⟩ := evaluateIn_agree m n 0 2 e rfl
    (by rw [hvariables]; simp only [List.forall_mem_cons]; exact ⟨rfl, rfl, nofun⟩)
    (by rw [hcallees]; simp only [List.forall_mem_cons]; exact ⟨rfl, nofun⟩)
  refine ⟨hresult, ?_, rfl⟩
  rw [hm, hn]
  rfl

end SolidScript
