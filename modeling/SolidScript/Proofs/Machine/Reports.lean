import SolidScript.Proofs.Machine.Refinement

namespace SolidScript

/-- The entries of a log for names that were looked up in vain. -/
def Log.ofMissing (missing : List Missing) : Log := missing.map fun w => ⟨.warning, w.message⟩

theorem Log.level_ofMissing (missing : List Missing) :
    ∀ entry ∈ Log.ofMissing missing, entry.level = .warning := by
  intro entry hentry
  obtain ⟨w, _, rfl⟩ := List.mem_map.mp hentry
  rfl

theorem Log.messages_append (log later : Log) (level : Level) :
    Log.messages (log ++ later) level = log.messages level ++ Log.messages later level := by
  simp [Log.messages]

/-- Warnings hold no lines of another level. -/
theorem Log.messages_of_warnings {log : Log} {level : Level}
    (h : ∀ entry ∈ log, entry.level = .warning) (hlevel : level ≠ .warning) :
    log.messages level = [] := by
  rw [Log.messages, List.map_eq_nil_iff, List.filter_eq_nil_iff]
  intro entry hentry
  simpa [h entry hentry] using hlevel.symm

/-- Whether a step is the call of a module. -/
def Step.isCall (step : Step) : Bool := step.label = "module call"

/-- The bytes of the calls among the steps, in order. -/
def Step.calls (steps : List Step) : List Span := (steps.filter Step.isCall).map Step.span

theorem Step.calls_append (steps later : List Step) :
    Step.calls (steps ++ later) = Step.calls steps ++ Step.calls later := by
  simp [Step.calls]

namespace Machine

/-- The second machine has more warnings in its log, and in its queue more calls, which stand at the
given places. -/
structure Adds (m n : Machine) (spans : List Span) : Prop where
  log : ∃ warnings : Log, n.log = m.log ++ warnings ∧ ∀ entry ∈ warnings, entry.level = .warning
  queue : ∃ calls : List DeferredCall, n.queue = m.queue ++ calls ∧
    calls.map DeferredCall.span = spans

namespace Adds

variable {m n l : Machine} {spans later : List Span}

theorem of_eq (hlog : n.log = m.log) (hqueue : n.queue = m.queue) : m.Adds n [] where
  log := ⟨[], by rw [hlog, List.append_nil], nofun⟩
  queue := ⟨[], by rw [hqueue, List.append_nil], rfl⟩

theorem trans (hmn : m.Adds n spans) (hnl : n.Adds l later) : m.Adds l (spans ++ later) where
  log := by
    obtain ⟨first, hfirst, hwarnings⟩ := hmn.log
    obtain ⟨second, hsecond, hothers⟩ := hnl.log
    refine ⟨first ++ second, by rw [hsecond, hfirst, List.append_assoc], fun entry hentry => ?_⟩
    exact (List.mem_append.mp hentry).elim (hwarnings entry) (hothers entry)
  queue := by
    obtain ⟨first, hfirst, hspans⟩ := hmn.queue
    obtain ⟨second, hsecond, hlater⟩ := hnl.queue
    refine ⟨first ++ second, by rw [hsecond, hfirst, List.append_assoc], ?_⟩
    rw [List.map_append, hspans, hlater]

theorem warnAll (m : Machine) (missing : List Missing) : m.Adds (m.warnAll missing) [] where
  log := ⟨Log.ofMissing missing, rfl, Log.level_ofMissing missing⟩
  queue := ⟨[], (List.append_nil _).symm, rfl⟩

theorem evaluateIn {α : Type} (m : Machine) (scope : ScopeId) (e : Bindings → Evaluation α) :
    m.Adds (m.evaluateIn scope e).1 [] := .warnAll ..

theorem getModule (m : Machine) (scope : ScopeId) (name : String) :
    m.Adds (m.getModule scope name).1 [] := by
  unfold Machine.getModule Machine.orWarn
  by_cases hfound : (m.scopes.findModule scope name).isSome
  · simp only [hfound, if_true]
    exact .of_eq rfl rfl
  · simp only [hfound]
    exact .warnAll ..

theorem defer (m : Machine) (call : DeferredCall) : m.Adds (m.defer call) [call.span] where
  log := ⟨[], (List.append_nil _).symm, nofun⟩
  queue := ⟨[call], rfl, rfl⟩

end Adds

end Machine

namespace Walk

/-- The walk adds warnings to the log, and to the queue the calls among its steps. -/
def Reports (m : Machine) (w : Walk) : Prop := m.Adds w.machine (Step.calls w.steps)

theorem single_reports {m : Machine} {s : Stmt} {done : Machine × Except EvalError Unit}
    (hs : s.label ≠ "module call") (h : m.Adds done.1 []) : Reports m (single s done) := by
  obtain ⟨n, result⟩ := done
  cases result with
  | error e => exact h
  | ok _ => simpa [Reports, single, Step.calls, Step.isCall, hs] using h

theorem andThen_reports {m : Machine} {w : Walk} {next : Machine → Walk} (hw : Reports m w)
    (hnext : Reports w.machine (next w.machine)) : Reports m (w.andThen next) := by
  unfold andThen
  split
  · rw [Reports, Step.calls_append]
    exact hw.trans hnext
  · exact hw

theorem inChild_reports {m : Machine} {body : Machine → Walk}
    (h : ∀ inner : Machine, Reports inner (body inner)) : Reports m (inChild m body) := by
  have hbody := h (m.childScope.1.setPin (some m.childScope.2))
  exact ⟨hbody.log, hbody.queue⟩

end Walk

mutual

/-- A walk adds warnings and calls only. -/
theorem Stmt.walk_reports : (s : Stmt) → (m : Machine) → Walk.Reports m (s.walk m)
  | .compound ss _, m => by
    rw [Stmt.walk]
    exact Stmt.walkAll_reports ss m
  | .branch condition thenBranch none _, m => by
    have hcondition : m.Adds (m.decides condition).1 [] := .evaluateIn ..
    rw [Stmt.walk]
    generalize m.decides condition = decided at hcondition ⊢
    obtain ⟨n, e | taken⟩ := decided
    · exact hcondition
    · cases taken with
      | false => exact hcondition
      | true => exact hcondition.trans (Walk.inChild_reports thenBranch.walk_reports)
  | .branch condition thenBranch (some elseBranch) _, m => by
    have hcondition : m.Adds (m.decides condition).1 [] := .evaluateIn ..
    rw [Stmt.walk]
    generalize m.decides condition = decided at hcondition ⊢
    obtain ⟨n, e | taken⟩ := decided
    · exact hcondition
    · cases taken with
      | false => exact hcondition.trans (Walk.inChild_reports elseBranch.walk_reports)
      | true => exact hcondition.trans (Walk.inChild_reports thenBranch.walk_reports)
  | .assignment target token value span, m => by
    have hvalue : m.Adds (m.evaluate value).1 [] := .evaluateIn ..
    rw [Stmt.walk]
    apply Walk.single_reports (by simp [Stmt.label])
    generalize m.evaluate value = evaluated at hvalue ⊢
    obtain ⟨n, e | v⟩ := evaluated
    · exact hvalue
    · exact hvalue.trans (.of_eq rfl rfl)
  | .moduleCall name arguments span, m => by
    have hmodule := Machine.Adds.getModule m m.current name
    rw [Stmt.walk]
    generalize m.getModule m.current name = found at hmodule ⊢
    obtain ⟨n, _ | _ | _⟩ := found
    · exact hmodule
    · exact hmodule.trans (.defer n _)
    · exact hmodule
  | .moduleDef .., m => by
    rw [Stmt.walk]
    exact Walk.single_reports (by simp [Stmt.label]) (.of_eq rfl rfl)
  | .functionDef .., m => by
    rw [Stmt.walk]
    exact Walk.single_reports (by simp [Stmt.label]) (.of_eq rfl rfl)
  | .expression .., m => by
    rw [Stmt.walk]
    exact Walk.single_reports (by simp [Stmt.label]) (.of_eq rfl rfl)

theorem Stmt.walkAll_reports : (ss : List Stmt) → (m : Machine) →
    Walk.Reports m (Stmt.walkAll ss m)
  | [], m => by
    rw [Stmt.walkAll]
    exact .of_eq rfl rfl
  | s :: ss, m => by
    rw [Stmt.walkAll]
    exact Walk.andThen_reports (s.walk_reports m) (Stmt.walkAll_reports ss _)

end

/-- The steps of a runner up to the end of its walk. -/
def Runner.steps (r : Runner) : List Step := r.drain.1.filterMap Except.toOption

theorem Walk.steps_outcomes (w : Walk) : w.outcomes.filterMap Except.toOption = w.steps := by
  obtain ⟨steps, m, result⟩ := w
  have hsteps : (steps.map Except.ok).filterMap (Except.toOption (ε := EvalError)) = steps := by
    rw [List.filterMap_map]
    exact List.filterMap_some
  cases result <;> simp [outcomes, hsteps, Except.toOption]

/-- A run adds warnings and the calls that it passes. -/
theorem Machine.run_adds (m : Machine) (ss : List Stmt) :
    m.Adds (m.run ss).1 (Step.calls (Runner.start m ss).steps) := by
  rw [Machine.run, Runner.steps, Runner.drain_start, Walk.steps_outcomes]
  exact Stmt.walkAll_reports ss m

namespace DeferredCall

/-- The arguments of a call, evaluated in the scope in which it was made. -/
def resolved (call : DeferredCall) (m : Machine) : Evaluation (List ResolvedArgument) :=
  (m.scopes.bindings call.scope m.operators).resolve call.arguments

/-- The line that an `echo` prints, if its arguments have values. -/
def line (call : DeferredCall) (m : Machine) : Except EvalError String :=
  (call.resolved m).result.map fun arguments =>
    "ECHO: " ++ String.intercalate ", " (arguments.map ResolvedArgument.text)

/-- What a call prints: one line if it is an `echo` whose arguments have values. -/
def printed (call : DeferredCall) (m : Machine) : Log :=
  match call.builtin, call.line m with
  | .echo, .ok line => [⟨.info, line⟩]
  | _, _ => []

/-- What a call adds to the log. -/
def entries (call : DeferredCall) (m : Machine) : Log :=
  Log.ofMissing (call.resolved m).warnings ++ call.printed m

theorem level_entries (call : DeferredCall) (m : Machine) :
    ∀ entry ∈ call.entries m, entry.level ≠ .error := by
  intro entry hentry
  obtain hentry | hentry := List.mem_append.mp hentry
  · simp [Log.level_ofMissing _ entry hentry]
  · unfold printed at hentry
    split at hentry
    · simp [List.mem_singleton.mp hentry]
    · cases hentry

theorem infos_entries (call : DeferredCall) (m : Machine) :
    Log.messages (call.entries m) .info = Log.messages (call.printed m) .info := by
  have hwarnings : Log.messages _ .info = [] := Log.messages_of_warnings
    (Log.level_ofMissing (call.resolved m).warnings) (by decide)
  rw [entries, Log.messages_append, hwarnings, List.nil_append]

end DeferredCall

namespace Machine

/-- Carrying out a call adds its entries to the log, and nothing else happens. -/
theorem perform_entries (m : Machine) (call : DeferredCall) :
    m.perform call = ({ m with log := m.log ++ call.entries m },
      (call.resolved m).result.map fun _ => ()) := by
  have hresolve : m.evaluateIn call.scope (·.resolve call.arguments) =
      (m.warnAll (call.resolved m).warnings, (call.resolved m).result) := rfl
  rw [perform, hresolve, DeferredCall.entries, DeferredCall.printed, DeferredCall.line]
  cases (call.resolved m).result with
  | error e => simp [Except.map, warnAll, Log.ofMissing]
  | ok arguments => cases call.builtin <;> simp [Except.map, warnAll, invoke, report, Log.ofMissing]

/-- Calls add their entries in order, up to the first that fails. -/
theorem performAll_entries (m : Machine) (calls : List DeferredCall) :
    ∃ done rest, calls = done ++ rest ∧
      (m.performAll calls).1 = { m with log := m.log ++ done.flatMap (·.entries m) } ∧
      ((m.performAll calls).2 = .ok () → rest = [] ∧
        ∀ call ∈ done, ∃ arguments, (call.resolved m).result = .ok arguments) := by
  induction calls generalizing m with
  | nil => exact ⟨[], [], rfl, by simp [performAll], fun _ => ⟨rfl, nofun⟩⟩
  | cons call calls ih =>
    rw [performAll, perform_entries]
    cases hresult : (call.resolved m).result with
    | error e => exact ⟨[call], calls, rfl, by simp [Except.map], nofun⟩
    | ok arguments =>
      obtain ⟨done, rest, rfl, hmachine, hok⟩ := ih { m with log := m.log ++ call.entries m }
      refine ⟨call :: done, rest, rfl, ?_, fun h => ?_⟩
      · have hsame (other : DeferredCall) :
            other.entries { m with log := m.log ++ call.entries m } = other.entries m := rfl
        simpa [Except.map, hsame] using hmachine
      · obtain ⟨hrest, hdone⟩ := hok h
        exact ⟨hrest, List.forall_mem_cons.mpr ⟨⟨arguments, hresult⟩, hdone⟩⟩

end Machine

/-- Where all arguments have values, each `echo` prints its line. -/
theorem DeferredCall.infos_flatMap {m : Machine} {calls : List DeferredCall}
    (h : ∀ call ∈ calls, ∃ arguments, (call.resolved m).result = .ok arguments) :
    (Log.messages (calls.flatMap (·.entries m)) .info).map .ok =
      (calls.filter (·.builtin = .echo)).map (·.line m) := by
  induction calls with
  | nil => rfl
  | cons call calls ih =>
    obtain ⟨⟨arguments, hcall⟩, hcalls⟩ := List.forall_mem_cons.mp h
    rw [List.flatMap_cons, Log.messages_append, List.map_append, ih hcalls, infos_entries]
    cases hbuiltin : call.builtin <;>
      simp [printed, hbuiltin, line, hcall, Except.map, Log.messages]

end SolidScript
