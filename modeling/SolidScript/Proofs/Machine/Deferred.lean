import SolidScript.Proofs.Machine.Reports
import SolidScript.Proofs.Machine.Session
import SolidScript.Proofs.Node

namespace SolidScript

/-- What something adds to the log, and whether it fails. -/
structure Effect where
  entries : Log
  result : Except EvalError Unit

namespace Effect

/-- One thing and then another, unless the first one fails. -/
def andThen (a b : Effect) : Effect :=
  match a.result with
  | .ok () => ⟨a.entries ++ b.entries, b.result⟩
  | .error e => ⟨a.entries, .error e⟩

/-- Things in order, up to the first that fails. -/
def all : List Effect → Effect
  | [] => ⟨[], .ok ()⟩
  | a :: as => a.andThen (all as)

variable {a b : Effect} {as bs : List Effect} {e : EvalError}

theorem andThen_of_ok (h : a.result = .ok ()) :
    a.andThen b = ⟨a.entries ++ b.entries, b.result⟩ := by
  rw [andThen, h]

theorem andThen_of_error (h : a.result = .error e) : a.andThen b = ⟨a.entries, .error e⟩ := by
  rw [andThen, h]

theorem all_append (as bs : List Effect) : all (as ++ bs) = (all as).andThen (all bs) := by
  induction as with
  | nil => rw [all, andThen_of_ok rfl]; rfl
  | cons a as ih =>
    rw [List.cons_append, all, all, ih]
    cases ha : a.result with
    | error e => rw [andThen_of_error ha, andThen_of_error ha, andThen_of_error rfl]
    | ok _ =>
      rw [andThen_of_ok ha, andThen_of_ok ha]
      cases has : (all as).result with
      | error e => rw [andThen_of_error has, andThen_of_error rfl]
      | ok _ => rw [andThen_of_ok has, andThen_of_ok rfl, List.append_assoc]

/-- Where nothing fails, everything is added. -/
theorem all_of_ok (h : ∀ a ∈ as, a.result = .ok ()) : all as = ⟨as.flatMap entries, .ok ()⟩ := by
  induction as with
  | nil => rfl
  | cons a as ih =>
    obtain ⟨ha, has⟩ := List.forall_mem_cons.mp h
    rw [all, andThen_of_ok ha, ih has, List.flatMap_cons]

/-- What comes behind the first failure adds nothing. -/
theorem all_of_error (has : ∀ a ∈ as, a.result = .ok ()) (hb : b.result = .error e)
    (bs : List Effect) :
    all (as ++ b :: bs) = ⟨(as ++ [b]).flatMap entries, .error e⟩ := by
  induction as with
  | nil => simp [all, andThen_of_error hb]
  | cons a as ih =>
    obtain ⟨ha, hrest⟩ := List.forall_mem_cons.mp has
    rw [List.cons_append, all, andThen_of_ok ha, ih hrest, List.cons_append, List.flatMap_cons]

/-- A success of all is a success of each. -/
theorem ok_of_all (h : (all as).result = .ok ()) : ∀ a ∈ as, a.result = .ok () := by
  induction as with
  | nil => exact nofun
  | cons a as ih =>
    cases ha : a.result with
    | error e =>
      rw [all, andThen_of_error ha] at h
      cases h
    | ok _ =>
      rw [all, andThen_of_ok ha] at h
      exact List.forall_mem_cons.mpr ⟨ha, ih h⟩

end Effect

/-- The name by which an argument is given, if it is. -/
def Argument.name? : Argument → Option String
  | .positional _ => none
  | .named name _ => some name

/-- What evaluating an argument comes to. -/
def Argument.effect (b : Bindings) (a : Argument) : Effect :=
  ⟨Log.ofMissing (b.evaluate a.value).warnings, (b.evaluate a.value).result.map fun _ => ()⟩

/-- The text of an argument, if it has a value. -/
def Argument.text? (b : Bindings) (a : Argument) : Option String :=
  (b.evaluate a.value).result.toOption.map fun v => ResolvedArgument.text ⟨a.name?, v⟩

/-- What a call prints when its arguments have values. -/
def DeferredCall.prints (call : DeferredCall) (b : Bindings) : Log :=
  match call.builtin with
  | .echo =>
    [⟨.info, "ECHO: " ++ String.intercalate ", " (call.arguments.filterMap (·.text? b))⟩]
  | .cube => []

/-- What a call comes to in view of contexts and operators: its arguments are evaluated from left to
right in the scope in which it was made, and then it prints. -/
def DeferredCall.effect (scopes : Scopes) (operators : Operators) (call : DeferredCall) : Effect :=
  let b := scopes.bindings call.scope operators
  (Effect.all (call.arguments.map (·.effect b))).andThen ⟨call.prints b, .ok ()⟩

section Arguments

variable {b : Bindings}

theorem Bindings.resolve_cons (a : Argument) (rest : List Argument) :
    b.resolve (a :: rest) = (do
      let v ← b.evaluate a.value
      let others ← b.resolve rest
      return ⟨a.name?, v⟩ :: others) := by
  cases a <;> rw [Bindings.resolve] <;> rfl

/-- Arguments that are resolved together are evaluated one by one. -/
theorem Bindings.resolve_effect (arguments : List Argument) :
    Effect.all (arguments.map (·.effect b)) =
      ⟨Log.ofMissing (b.resolve arguments).warnings,
        (b.resolve arguments).result.map fun _ => ()⟩ := by
  induction arguments with
  | nil => rw [Bindings.resolve]; rfl
  | cons a rest ih =>
    rw [List.map_cons, Effect.all, ih, Bindings.resolve_cons]
    rcases ha : b.evaluate a.value with ⟨warnings, e | v⟩
    · simp [Effect.andThen, Argument.effect, ha, bind, Except.map]
    · rcases hrest : b.resolve rest with ⟨later, e | others⟩
      · simp [Effect.andThen, Argument.effect, ha, bind, Except.map, Log.ofMissing]
      · simp [Effect.andThen, Argument.effect, ha, bind, Except.map, Log.ofMissing, pure]

/-- The texts of arguments that are resolved together. -/
theorem Bindings.text_resolve {arguments : List Argument} {values : List ResolvedArgument}
    (h : (b.resolve arguments).result = .ok values) :
    values.map ResolvedArgument.text = arguments.filterMap (·.text? b) := by
  induction arguments generalizing values with
  | nil =>
    rw [Bindings.resolve] at h
    cases h
    rfl
  | cons a rest ih =>
    rw [Bindings.resolve_cons] at h
    rcases ha : b.evaluate a.value with ⟨warnings, e | v⟩
    · simp [ha, bind] at h
    · rcases hrest : b.resolve rest with ⟨later, e | others⟩
      · simp [ha, bind, hrest] at h
      · simp only [ha, bind, hrest, pure, Except.ok.injEq] at h
        subst h
        have htext : a.text? b = some (ResolvedArgument.text ⟨a.name?, v⟩) := by
          simp [Argument.text?, ha, Except.toOption]
        rw [List.map_cons, List.filterMap_cons_some htext, ih (congrArg Evaluation.result hrest)]

end Arguments

namespace Machine

/-- A call comes to the same in all machines with the same contexts and operators. -/
theorem perform_effect (m : Machine) (call : DeferredCall) :
    m.perform call = ({ m with log := m.log ++ (call.effect m.scopes m.operators).entries },
      (call.effect m.scopes m.operators).result) := by
  have hresolve : m.evaluateIn call.scope (·.resolve call.arguments) =
      (m.warnAll (call.resolved m).warnings, (call.resolved m).result) := rfl
  have heffect : call.effect m.scopes m.operators =
      Effect.andThen ⟨Log.ofMissing (call.resolved m).warnings,
        (call.resolved m).result.map fun _ => ()⟩
        ⟨call.prints (m.scopes.bindings call.scope m.operators), .ok ()⟩ :=
    congrArg (Effect.andThen · _) (Bindings.resolve_effect call.arguments)
  rw [perform, hresolve, heffect]
  cases hresult : (call.resolved m).result with
  | error e => simp [Effect.andThen, Except.map, warnAll, Log.ofMissing]
  | ok values =>
    have htexts := Bindings.text_resolve hresult
    cases hbuiltin : call.builtin with
    | cube =>
      simp [Effect.andThen, Except.map, warnAll, Log.ofMissing, invoke, DeferredCall.prints,
        hbuiltin]
    | echo =>
      simp [Effect.andThen, Except.map, warnAll, Log.ofMissing, invoke, report,
        DeferredCall.prints, hbuiltin, htexts]

/-- Calls come to what they come to one by one. -/
theorem performAll_effect (m : Machine) (calls : List DeferredCall) :
    m.performAll calls =
      ({ m with log := m.log ++
          (Effect.all (calls.map (·.effect m.scopes m.operators))).entries },
        (Effect.all (calls.map (·.effect m.scopes m.operators))).result) := by
  induction calls generalizing m with
  | nil => simp [performAll, Effect.all]
  | cons call calls ih =>
    rw [performAll, perform_effect, List.map_cons, Effect.all]
    cases hcall : (call.effect m.scopes m.operators).result with
    | error e => simp [Effect.andThen_of_error hcall]
    | ok _ =>
      rw [Effect.andThen_of_ok hcall]
      simp [ih]

theorem runDeferred_effect (m : Machine) :
    m.runDeferred =
      ({ m with queue := [], log := m.log ++
          (Effect.all (m.queue.map (·.effect m.scopes m.operators))).entries },
        (Effect.all (m.queue.map (·.effect m.scopes m.operators))).result) :=
  performAll_effect { m with queue := [] } m.queue

theorem runDeferred_of_all {m : Machine} {entries : Log} {result : Except EvalError Unit}
    (h : Effect.all (m.queue.map (·.effect m.scopes m.operators)) = ⟨entries, result⟩) :
    m.runDeferred = ({ m with queue := [], log := m.log ++ entries }, result) := by
  rw [runDeferred_effect, h]

/-- A queue can be carried out in two parts. -/
theorem runDeferred_append {m : Machine} {first second : List DeferredCall}
    (h : m.queue = first ++ second) :
    m.runDeferred =
      match { m with queue := first }.runDeferred with
      | (n, .ok ()) => { n with queue := second }.runDeferred
      | (n, .error e) => (n, .error e) := by
  rw [runDeferred_effect, h, List.map_append, Effect.all_append, runDeferred_effect]
  dsimp only
  cases hfirst : (Effect.all (first.map (·.effect m.scopes m.operators))).result with
  | error e => simp [Effect.andThen_of_error hfirst]
  | ok _ => simp [Effect.andThen_of_ok hfirst, runDeferred_effect]

/-- Carries out calls in order, each while its own scope is pinned. -/
def performPinned (m : Machine) : List DeferredCall → Machine × Except EvalError Unit
  | [] => (m, .ok ())
  | call :: calls =>
    match (m.setPin (some call.scope)).perform call with
    | (m, .ok ()) => m.performPinned calls
    | (m, .error e) => (m, .error e)

/-- Empties the queue and carries out what was in it, each call while its own scope is pinned. Then
the pin is put back. -/
def runPinned (m : Machine) : Machine × Except EvalError Unit :=
  let (n, result) := ({ m with queue := [] }.setPin none).performPinned m.queue
  (n.setPin m.pin, result)

/-- The pin does not matter to calls. -/
theorem performPinned_effect (m : Machine) (calls : List DeferredCall) :
    ∃ pin, m.performPinned calls = ((m.performAll calls).1.setPin pin, (m.performAll calls).2) := by
  induction calls generalizing m with
  | nil => exact ⟨m.pin, rfl⟩
  | cons call calls ih =>
    rw [performPinned, performAll, perform_effect, perform_effect]
    simp only [setPin]
    cases (call.effect m.scopes m.operators).result with
    | error e => exact ⟨some call.scope, rfl⟩
    | ok _ =>
      obtain ⟨pin, hpin⟩ := ih { m with
        pin := some call.scope, log := m.log ++ (call.effect m.scopes m.operators).entries }
      refine ⟨pin, hpin.trans ?_⟩
      simp only [performAll_effect, setPin]

end Machine

/-- No turn changes the operators. -/
theorem Runner.Goes.operators_eq {r next : Runner} (h : r.Goes next) :
    next.machine.operators = r.machine.operators :=
  h.invariant (P := fun later => later.machine.operators = r.machine.operators) rfl
    fun _ _ hturn heq => by cases hturn.moves <;> exact heq

namespace Machine

theorem Operation.operators_eq (m : Machine) (op : Operation) :
    (op.apply m).operators = m.operators := by
  cases op with
  | popScope =>
    simp only [apply, Machine.popScope]
    split <;> rfl
  | run statements => exact (Runner.goes_drain (Runner.start m statements)).operators_eq
  | walk statements steps =>
    exact (Runner.goes_take steps (Runner.start m statements)).operators_eq
  | runDeferred => exact congrArg (·.1.operators) m.runDeferred_effect
  | _ => rfl

/-- All machines of sessions have the same operators. -/
theorem Session.operators_eq {settings : Settings} {m : Machine} {known : List ScopeId}
    (h : Session settings m known) : m.operators = .standard := by
  induction h with
  | start => rfl
  | operate _ op _ ih => exact (op.operators_eq _).trans ih
  | elapse _ _ _ ih => exact ih
  | current _ ih => exact ih
  | queued _ _ _ ih => exact ih
  | parent _ _ _ _ _ ih => exact ih

/-- Whatever waits in a machine, emptying the queue changes the queue and the log only. The log
grows by what the calls come to, in order up to the first that fails, and that is the error. What a
call comes to is settled by the call, the contexts and the operators, and the latter are the same in
all sessions; it does not matter which scope is pinned meanwhile. So nothing is left for a second
time, and a queue can be carried out in two parts. If no call fails, the same calls in another order
add the same to the log, each one its part, in that order. -/
theorem runDeferred_independent (m : Machine) :
    let effect (call : DeferredCall) : Effect := call.effect m.scopes m.operators
    let added (calls : List DeferredCall) : List Log := calls.map fun call => (effect call).entries
    let after (entries : List Log) : Machine :=
      { m with queue := [], log := m.log ++ entries.flatten }
    ((∀ call ∈ m.queue, (effect call).result = .ok ()) →
      m.runDeferred = (after (added m.queue), .ok ())) ∧
    (∀ before call later e, m.queue = before ++ call :: later →
      (∀ earlier ∈ before, (effect earlier).result = .ok ()) → (effect call).result = .error e →
      m.runDeferred = (after (added (before ++ [call])), .error e)) ∧
    (∀ settings known, Session settings m known → m.operators = .standard) ∧
    m.runPinned = m.runDeferred ∧
    m.runDeferred.1.runDeferred = (m.runDeferred.1, .ok ()) ∧
    (∀ first second, m.queue = first ++ second →
      m.runDeferred =
        match { m with queue := first }.runDeferred with
        | (n, .ok ()) => { n with queue := second }.runDeferred
        | (n, .error e) => (n, .error e)) ∧
    ∀ calls, calls.Perm m.queue → m.runDeferred.2 = .ok () →
      { m with queue := calls }.runDeferred = (after (added calls), .ok ()) ∧
        (added calls).Perm (added m.queue) := by
  intro effect added after
  have hadded (calls : List DeferredCall) :
      (calls.map effect).flatMap Effect.entries = (added calls).flatten := by
    rw [List.flatMap_map, List.flatMap_def]
  have hok (calls : List DeferredCall) (h : ∀ call ∈ calls, (effect call).result = .ok ()) :
      { m with queue := calls }.runDeferred = (after (added calls), .ok ()) := by
    have hall := Effect.all_of_ok (List.forall_mem_map.mpr h)
    rw [hadded] at hall
    exact runDeferred_of_all hall
  refine ⟨hok m.queue, ?_, fun _ _ hsession => hsession.operators_eq, ?_, ?_,
    fun _ _ => runDeferred_append, ?_⟩
  · intro before call later e hqueue hbefore hcall
    have hall := Effect.all_of_error (List.forall_mem_map.mpr hbefore) hcall (later.map effect)
    rw [← List.map_cons, ← List.map_append, ← hqueue, ← List.map_singleton, ← List.map_append,
      hadded] at hall
    exact runDeferred_of_all hall
  · obtain ⟨pin, hpin⟩ := performPinned_effect ({ m with queue := [] }.setPin none) m.queue
    rw [runPinned, hpin, runDeferred, performAll_effect, performAll_effect]
    rfl
  · rw [m.runDeferred_effect, runDeferred_effect]
    simp [Effect.all]
  · intro calls hperm hsuccess
    rw [runDeferred_effect] at hsuccess
    have heach := List.forall_mem_map.mp (Effect.ok_of_all hsuccess)
    exact ⟨hok calls fun call hcall => heach call (hperm.mem_iff.mp hcall), hperm.map _⟩

/-- The first call leaves a warning and prints, the second one fails since a range is neither true
nor false, and the third one is not carried out. -/
theorem runDeferred_independent_failure :
    let bound : Expr := .literal (.number 1) (Lexeme.token ⟨.number, "1"⟩)
    let missing : Expr := .identifier "y" (Lexeme.token ⟨.identifier, "y"⟩)
    let denied : Expr := .unary .not (.range bound bound .origin) ⟨5, 11⟩
    let m : Machine := { Machine.new .standard with
      queue := [⟨.echo, 0, [.named "x" missing], .origin⟩,
        ⟨.echo, 0, [.positional denied], .origin⟩, ⟨.echo, 0, [], .origin⟩] }
    m.runDeferred =
      ({ m with queue := [], log := [⟨.warning, "Ignoring unknown variable 'y'."⟩,
          ⟨.info, "ECHO: x = undef"⟩] },
        .error ⟨.coercion .range .boolean, some ⟨5, 11⟩⟩) := by
  intro bound missing denied m
  obtain ⟨_, hfailure, _⟩ := runDeferred_independent m
  refine (hfailure [⟨.echo, 0, [.named "x" missing], .origin⟩] _ _ _ rfl ?_ rfl).trans ?_
  · exact List.forall_mem_singleton.mpr rfl
  · rfl

end Machine

end SolidScript
