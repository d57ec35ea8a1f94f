import SolidScript.Proofs.Machine.Session
import SolidScript.Proofs.Stmt.Parts

namespace SolidScript

/-- No variable of the context holds a range, the names of modules from the settings stand for
built-in ones, and the functions are those of the program. -/
structure Context.Safe (settings : Settings) (program : List Stmt) (c : Context) : Prop where
  values : ∀ name v, c.values.find? name = some v → v.RangeFree
  modules : ∀ b ∈ settings.builtins, ∀ module, c.modules.find? b.name = some module →
    ∃ which, module = .builtin which
  functions : ∀ name f, c.functions.find? name = some f → DefinesFunction program name

/-- All contexts are safe, and the root has the modules from the settings. -/
structure Scopes.Safe (settings : Settings) (program : List Stmt) (s : Scopes) : Prop where
  contexts : ∀ i c, s.context? i = some c → c.Safe settings program
  natives : ∀ b ∈ settings.builtins,
    ∃ c, s.context? 0 = some c ∧ (c.modules.find? b.name).isSome

/-- The scopes are safe, the operators are the ordinary ones, and the calls that wait can be carried
out. -/
structure Machine.Safe (settings : Settings) (program : List Stmt) (m : Machine) : Prop where
  scopes : m.scopes.Safe settings program
  operators : m.operators = .standard
  queue : ∀ call ∈ m.queue, Expr.Tame (DefinesFunction program) (Argument.partsAll call.arguments)

variable {settings : Settings} {program : List Stmt}

namespace Context.Safe

variable {c : Context}

theorem fresh (id : Nat) (parent? : Option ScopeId) :
    Context.Safe settings program ⟨id, parent?, [], [], []⟩ where
  values _ _ h := by cases h
  modules _ _ _ h := by cases h
  functions _ _ h := by cases h

theorem insertValue (h : c.Safe settings program) (name : String) {v : Value} (hv : v.RangeFree) :
    { c with values := c.values.insert name v }.Safe settings program := by
  refine ⟨fun other w hfind => ?_, h.modules, h.functions⟩
  rw [Names.find?_insert] at hfind
  split at hfind
  · cases hfind
    exact hv
  · exact h.values other w hfind

theorem insertModule (h : c.Safe settings program) {name : String} {module : Module}
    (hmodule : ∀ b ∈ settings.builtins, b.name = name → ∃ which, module = .builtin which) :
    { c with modules := c.modules.insert name module }.Safe settings program := by
  refine ⟨h.values, fun b hb other hfind => ?_, h.functions⟩
  rw [Names.find?_insert] at hfind
  split at hfind
  · next hname =>
    cases hfind
    exact hmodule b hb hname
  · exact h.modules b hb other hfind

theorem insertFunction (h : c.Safe settings program) {name : String} (f : FunctionDefinition)
    (hname : DefinesFunction program name) :
    { c with functions := c.functions.insert name f }.Safe settings program := by
  refine ⟨h.values, h.modules, fun other g hfind => ?_⟩
  rw [Names.find?_insert] at hfind
  split at hfind
  · next heq => exact heq ▸ hname
  · exact h.functions other g hfind

end Context.Safe

namespace Scopes.Safe

variable {s : Scopes} {scope : ScopeId} {f : Context → Context}

theorem create (h : s.Safe settings program) (hsize : 0 < s.size) (parent? : Option ScopeId) :
    (s.create parent?).1.Safe settings program := by
  refine ⟨fun i c hc => ?_, fun b hb => ?_⟩
  · rw [context?_create] at hc
    split at hc
    · cases hc
      exact .fresh ..
    · exact h.contexts i c hc
  · rw [context?_create, if_neg (Nat.ne_of_lt hsize)]
    exact h.natives b hb

theorem modify (h : s.Safe settings program) (scope : ScopeId)
    (hf : ∀ c, c.Safe settings program → (f c).Safe settings program)
    (hmodules : ∀ c name, (c.modules.find? name).isSome → ((f c).modules.find? name).isSome) :
    (s.modify scope f).Safe settings program := by
  refine ⟨fun i c hc => ?_, fun b hb => ?_⟩
  · rw [context?_modify] at hc
    split at hc
    · obtain ⟨d, hd, rfl⟩ := Option.map_eq_some_iff.mp hc
      exact hf d (h.contexts i d hd)
    · exact h.contexts i c hc
  · obtain ⟨c, hc, hbound⟩ := h.natives b hb
    rw [context?_modify]
    split
    · exact ⟨f c, by rw [hc]; rfl, hmodules c b.name hbound⟩
    · exact ⟨c, hc, hbound⟩

theorem setVariable (h : s.Safe settings program) (scope : ScopeId) (name : String) {v : Value}
    (hv : v.RangeFree) : (s.setVariable scope name v).Safe settings program :=
  h.modify scope (fun _ hc => hc.insertValue name hv) fun _ _ hbound => hbound

theorem setModule (h : s.Safe settings program) (scope : ScopeId) {name : String} {module : Module}
    (hmodule : ∀ b ∈ settings.builtins, b.name = name → ∃ which, module = .builtin which) :
    (s.setModule scope name module).Safe settings program :=
  h.modify scope (fun _ hc => hc.insertModule hmodule) fun _ _ hbound =>
    Names.find?_insert_isSome hbound name module

theorem setFunction (h : s.Safe settings program) (scope : ScopeId) {name : String}
    (f : FunctionDefinition) (hname : DefinesFunction program name) :
    (s.setFunction scope name f).Safe settings program :=
  h.modify scope (fun _ hc => hc.insertFunction f hname) fun _ _ hbound => hbound

/-- What expressions see from any place is tame. -/
theorem bindings (h : s.Safe settings program) (hsearch : s.Searchable) (hscope : scope < s.size) :
    (s.bindings scope .standard).Tame (DefinesFunction program) where
  values name v hfind := by
    obtain ⟨i, c, hc, hfound, _⟩ := (hsearch Value (·.values.find? name) scope hscope).ends
    exact (h.contexts i c hc).values name v (hfound.trans hfind)
  functions name hname := by
    obtain ⟨i, c, hc, hfound, _⟩ :=
      (hsearch FunctionDefinition (·.functions.find? name) scope hscope).ends
    obtain ⟨f, hf⟩ := Option.isSome_iff_exists.mp hname
    exact (h.contexts i c hc).functions name f (hfound.trans hf)
  operators := rfl

/-- From any place, a name of a module from the settings leads to a built-in one. -/
theorem findModule (h : s.Safe settings program) (hs : s.WellFormed) (hscope : scope < s.size)
    {b : Builtin} (hb : b ∈ settings.builtins) :
    ∃ which, s.findModule scope b.name = some (.builtin which) := by
  obtain ⟨i, c, hc, hfound, hlast⟩ :=
    (hs.searchable Module (·.modules.find? b.name) scope hscope).ends
  unfold Scopes.findModule
  cases hresult : s.lookup scope (·.modules.find? b.name) with
  | none =>
    -- The search ends at the root, and that has the module.
    rw [hresult] at hfound
    obtain ⟨root, hroot, hbound⟩ := h.natives b hb
    obtain rfl : i = 0 := (hs.root i c hc).mp (hlast hresult)
    obtain rfl := Option.some.inj (hc.symm.trans hroot)
    rw [hfound] at hbound
    cases hbound
  | some module =>
    obtain ⟨which, rfl⟩ := (h.contexts i c hc).modules b hb module (hfound.trans hresult)
    exact ⟨which, rfl⟩

end Scopes.Safe

namespace Machine.Safe

variable {m : Machine}

theorem withScopes (h : m.Safe settings program) {scopes : Scopes}
    (hscopes : scopes.Safe settings program) : { m with scopes }.Safe settings program :=
  ⟨hscopes, h.operators, h.queue⟩

theorem withLog (h : m.Safe settings program) (log : Log) :
    { m with log }.Safe settings program :=
  ⟨h.scopes, h.operators, h.queue⟩

theorem setPin (h : m.Safe settings program) (pin : Option ScopeId) :
    (m.setPin pin).Safe settings program :=
  ⟨h.scopes, h.operators, h.queue⟩

theorem defer (h : m.Safe settings program) {call : DeferredCall}
    (hcall : Expr.Tame (DefinesFunction program) (Argument.partsAll call.arguments)) :
    (m.defer call).Safe settings program := by
  refine ⟨h.scopes, h.operators, fun other hmem => ?_⟩
  obtain hmem | hmem := List.mem_append.mp hmem
  · exact h.queue other hmem
  · obtain rfl := List.mem_singleton.mp hmem
    exact hcall

/-- An evaluation that comes to a value in view of tame bindings does so in any scope, and leaves
only entries in the log. -/
theorem evaluateIn (h : m.Safe settings program) (hsearch : m.scopes.Searchable) {scope : ScopeId}
    (hscope : scope < m.scopes.size) {α : Type} {P : α → Prop} {e : Bindings → Evaluation α}
    (he : ∀ b, b.Tame (DefinesFunction program) → (e b).Yields P) :
    ∃ log a, m.evaluateIn scope e = ({ m with log }, .ok a) ∧ P a := by
  obtain ⟨a, ha, hP⟩ := he _ (h.scopes.bindings hsearch hscope)
  rw [← h.operators] at ha
  exact ⟨_, a, Prod.ext rfl ha, hP⟩

/-- Carrying out calls does not fail. -/
theorem performAll (h : m.Safe settings program) (hsearch : m.scopes.Searchable)
    (calls : List DeferredCall)
    (hcalls : ∀ call ∈ calls, call.scope < m.scopes.size ∧
      Expr.Tame (DefinesFunction program) (Argument.partsAll call.arguments)) :
    (m.performAll calls).2 = .ok () := by
  induction calls generalizing m with
  | nil => rfl
  | cons call calls ih =>
    obtain ⟨⟨hscope, hcall⟩, hrest⟩ := List.forall_mem_cons.mp hcalls
    obtain ⟨log, arguments, heval, _⟩ := h.evaluateIn hsearch hscope
      (e := (·.resolve call.arguments)) fun b hb => hb.resolve call.arguments hcall
    have hperform : (m.perform call).2 = .ok () := by rw [perform, heval]
    obtain ⟨later, hlater⟩ := m.perform_eq call
    have heq : m.perform call = ({ m with log := later }, .ok ()) := Prod.ext hlater hperform
    rw [Machine.performAll, heq]
    exact ih (h.withLog later) hsearch hrest

end Machine.Safe

/-- The statement is part of the program, with all that is inside of it. -/
def Stmt.Fits (program : List Stmt) (s : Stmt) : Prop :=
  ∀ deep, s.parts deep ⊆ Stmt.partsAll deep program

/-- The turn does not fail, and the runner behind it has the property. -/
def Turn.Holds (P : Runner → Prop) : Turn → Prop
  | .idle => True
  | .silent next => P next
  | .stepped _ next => P next
  | .failed .. => False

namespace Runner

/-- The machine is safe, and the work that is left is part of the program. -/
structure Safe (settings : Settings) (program : List Stmt) (r : Runner) : Prop where
  machine : r.machine.Safe settings program
  work : ∀ s, .statement s ∈ r.work → s.Fits program

section Visits

variable {m : Machine} {work : List Work}

theorem enter_holds (hm : m.Safe settings program) (hsize : 0 < m.scopes.size)
    (hwork : ∀ s, .statement s ∈ work → s.Fits program) {branch? : Option Stmt}
    (hbranch : ∀ body ∈ branch?, body.Fits program) :
    (Runner.enter m work branch?).Holds (Safe settings program) := by
  cases branch? with
  | none => exact ⟨hm, hwork⟩
  | some body =>
    refine ⟨(hm.withScopes (hm.scopes.create hsize _)).setPin _, fun s hmem => ?_⟩
    obtain rfl | hmem : s = body ∨ .statement s ∈ work := by simpa using hmem
    · exact hbranch s rfl
    · exact hwork s hmem

/-- A statement of a well-behaved program does not fail. -/
theorem visit_holds (hprogram : WellBehaved settings program) (hm : m.Safe settings program)
    (hmachine : m.WellFormed) (hwork : ∀ s, .statement s ∈ work → s.Fits program) {s : Stmt}
    (hs : s.Fits program) : (visit m work s).Holds (Safe settings program) := by
  have hmem : s ∈ Stmt.partsAll true program := hs true (Stmt.self_mem_parts true s)
  have htame := hprogram.tame hmem
  have hsearch := hmachine.scopes.searchable
  cases s with
  | compound ss span =>
    refine ⟨hm, fun t ht => ?_⟩
    obtain ht | ht : t ∈ ss ∨ .statement t ∈ work := by simpa using ht
    · exact fun deep => List.Subset.trans (Stmt.parts_subset_compound ht span) (hs deep)
    · exact hwork t ht
  | branch condition a b span =>
    obtain ⟨log, taken, heval, _⟩ := hm.evaluateIn hsearch hmachine.current_lt
      (P := fun _ => True) fun bindings hbindings =>
        (hbindings.evaluate condition htame).bind fun _ hv =>
          Evaluation.yields_truthy hv condition.span
    have hbranch : ∀ body, body = a ∨ b = some body → body.Fits program :=
      fun body hbody deep => List.Subset.trans (Stmt.parts_subset_branch hbody) (hs deep)
    simp only [visit, heval]
    cases taken with
    | true =>
      refine enter_holds (hm.withLog log) hmachine.scopes.nonempty hwork ?_
      rintro body ⟨⟩
      exact hbranch a (.inl rfl)
    | false =>
      exact enter_holds (hm.withLog log) hmachine.scopes.nonempty hwork fun body hbody =>
        hbranch body (.inr hbody)
  | assignment target token value span =>
    obtain ⟨log, v, heval, hv⟩ := hm.evaluateIn hsearch hmachine.current_lt
      fun bindings hbindings => hbindings.evaluate value htame
    simp only [visit, Machine.evaluate, heval]
    exact ⟨(hm.withLog log).withScopes (hm.scopes.setVariable _ target hv), hwork⟩
  | moduleCall name arguments span =>
    obtain ⟨b, hb, rfl⟩ := hprogram.calls _ (hs false (Stmt.self_mem_parts false _)) name rfl
    obtain ⟨which, hwhich⟩ := hm.scopes.findModule hmachine.scopes hmachine.current_lt hb
    obtain ⟨log, hfound⟩ := getModule_eq m m.current b.name
    simp only [visit, hfound, hwhich]
    exact ⟨(hm.withLog log).defer htame, hwork⟩
  | moduleDef name parameters body span =>
    refine ⟨hm.withScopes (hm.scopes.setModule _ fun b hb hname => ?_), hwork⟩
    exact absurd (congrArg (fun n => some (Namespace.module, n)) hname.symm)
      (hprogram.modules _ hmem b hb)
  | functionDef name parameters body span =>
    exact ⟨hm.withScopes (hm.scopes.setFunction _ _ ⟨_, hmem, rfl⟩), hwork⟩
  | expression e span => exact ⟨hm, hwork⟩

end Visits

/-- The runner is well-formed and safe. -/
def Sound (settings : Settings) (program : List Stmt) (r : Runner) : Prop :=
  r.WellFormed ∧ r.Safe settings program

/-- No turn over a well-behaved program fails. -/
theorem turn_holds (hprogram : WellBehaved settings program) {r : Runner}
    (h : r.Sound settings program) : r.turn.Holds (Sound settings program) := by
  have hsafe : r.turn.Holds (Safe settings program) := by
    obtain ⟨m, work⟩ := r
    obtain ⟨hwell, hm, hwork⟩ := h
    match work with
    | [] => trivial
    | .restore pin :: work => exact ⟨hm.setPin pin, fun s hs => hwork s (List.mem_cons_of_mem _ hs)⟩
    | .statement s :: work =>
      exact visit_holds hprogram hm hwell.machine (fun t ht => hwork t (List.mem_cons_of_mem _ ht))
        (hwork s List.mem_cons_self)
  -- Turns of any program keep the runner well-formed; only safety depends on this one.
  have hnext : ∀ next, r.Turns next → next.WellFormed := fun next hturn => h.1.turns hturn
  unfold Turns at hnext
  cases hturn : r.turn with
  | idle => trivial
  | silent next =>
    rw [hturn] at hsafe hnext
    exact ⟨hnext next rfl, hsafe⟩
  | stepped step next =>
    rw [hturn] at hsafe hnext
    exact ⟨hnext next rfl, hsafe⟩
  | failed e next =>
    rw [hturn] at hsafe
    cases hsafe

/-- Where no turn fails, all outcomes are steps. -/
theorem advance_ok {P : Runner → Prop} (hturn : ∀ r, P r → r.turn.Holds P) (fuel : Nat)
    {r : Runner} (h : P r) :
    (∀ outcome ∈ (advance fuel r).1, ∃ step, outcome = .ok step) ∧ P (advance fuel r).2 := by
  induction fuel generalizing r with
  | zero => exact ⟨by simp [advance], h⟩
  | succ fuel ih =>
    have hholds := hturn r h
    rw [advance]
    cases heq : r.turn with
    | idle => exact ⟨by simp, h⟩
    | silent next =>
      rw [heq] at hholds
      exact ih hholds
    | stepped step next =>
      rw [heq] at hholds
      refine ⟨?_, hholds⟩
      rintro outcome ⟨⟩
      exact ⟨step, rfl⟩
    | failed e next =>
      rw [heq] at hholds
      cases hholds

theorem take_ok {P : Runner → Prop} (hturn : ∀ r, P r → r.turn.Holds P) (limit : Nat)
    {r : Runner} (h : P r) :
    (∀ outcome ∈ (r.take limit).1, ∃ step, outcome = .ok step) ∧ P (r.take limit).2 := by
  induction limit generalizing r with
  | zero => exact ⟨by simp [take], h⟩
  | succ limit ih =>
    obtain ⟨hfirst, hnext⟩ : (∀ outcome ∈ r.next.1, ∃ step, outcome = .ok step) ∧ P r.next.2 :=
      advance_ok hturn r.weight h
    rw [take]
    split
    · next heq =>
      rw [heq] at hnext
      exact ⟨by simp, hnext⟩
    · next outcome next heq =>
      rw [heq] at hfirst hnext
      obtain ⟨hothers, hlast⟩ := ih hnext
      exact ⟨List.forall_mem_cons.mpr ⟨hfirst outcome rfl, hothers⟩, hlast⟩

end Runner

namespace Machine

/-- The only context of a new run. -/
def rootContext (settings : Settings) (nextId : Nat) : Context :=
  settings.presets.foldl (fun c p => { c with values := c.values.insert p.1 (.number p.2) })
    (settings.builtins.foldl
      (fun c b => { c with modules := c.modules.insert b.name (.builtin b) })
      ⟨nextId, none, [], [], []⟩)

theorem contexts_foldl_modify {α : Type} (step : α → Context → Context) (xs : List α) {s : Scopes}
    {c : Context} (h : s.contexts = [c]) :
    (xs.foldl (fun s x => s.modify 0 (step x)) s).contexts =
      [xs.foldl (fun c x => step x c) c] := by
  induction xs generalizing s c with
  | nil => exact h
  | cons x xs ih => exact ih (by simp [Scopes.modify, h])

theorem contexts_initialScopes (settings : Settings) (nextId : Nat) :
    (initialScopes settings nextId).contexts = [rootContext settings nextId] := by
  have hmodules := contexts_foldl_modify
    (fun (b : Builtin) c => { c with modules := c.modules.insert b.name (.builtin b) })
    settings.builtins (s := ((Scopes.empty nextId).create none).1) rfl
  exact contexts_foldl_modify
    (fun (p : String × Float) c => { c with values := c.values.insert p.1 (.number p.2) })
    settings.presets hmodules

theorem rootContext_safe (settings : Settings) (nextId : Nat) (program : List Stmt) :
    (rootContext settings nextId).Safe settings program := by
  refine List.foldlRecOn _ _ (motive := Context.Safe settings program) ?_ fun c hc p _ =>
    hc.insertValue p.1 (.number p.2)
  exact List.foldlRecOn _ _ (motive := Context.Safe settings program) (.fresh ..) fun c hc b _ =>
    hc.insertModule fun _ _ _ => ⟨b, rfl⟩

/-- The modules from the settings are there from the start. -/
theorem rootContext_modules {settings : Settings} (nextId : Nat) {b : Builtin}
    (hb : b ∈ settings.builtins) :
    ((rootContext settings nextId).modules.find? b.name).isSome := by
  refine List.foldlRecOn _ _ (motive := fun c : Context => (c.modules.find? b.name).isSome) ?_
    fun c hc p _ => hc
  generalize (⟨nextId, none, [], [], []⟩ : Context) = c
  generalize settings.builtins = builtins at hb
  induction builtins generalizing c with
  | nil => cases hb
  | cons first others ih =>
    rw [List.foldl_cons]
    obtain rfl | hb := List.mem_cons.mp hb
    · refine List.foldlRecOn _ _
        (motive := fun c : Context => (c.modules.find? b.name).isSome) ?_ fun c hc other _ =>
          Names.find?_insert_isSome hc other.name _
      rw [Names.find?_insert, if_pos rfl]
      rfl
    · exact ih _ hb

theorem new_safe (settings : Settings) (nextId : Nat) (program : List Stmt) :
    (Machine.new settings nextId).Safe settings program := by
  refine ⟨⟨fun i c hc => ?_, fun b hb => ?_⟩, rfl, fun _ hmem => by cases hmem⟩
  · have hmem : c ∈ (initialScopes settings nextId).contexts := Scopes.mem_of_context? hc
    rw [contexts_initialScopes] at hmem
    rw [List.mem_singleton.mp hmem]
    exact rootContext_safe settings nextId program
  · refine ⟨rootContext settings nextId, ?_, rootContext_modules nextId hb⟩
    change (initialScopes settings nextId).contexts[0]? = _
    rw [contexts_initialScopes]
    rfl

theorem forM_ok {outcomes : List (Except EvalError Step)}
    (h : ∀ outcome ∈ outcomes, ∃ step, outcome = .ok step) :
    outcomes.forM (·.map fun _ => ()) = .ok () := by
  induction outcomes with
  | nil => rfl
  | cons outcome outcomes ih =>
    obtain ⟨⟨step, rfl⟩, hothers⟩ := List.forall_mem_cons.mp h
    exact ih hothers

/-- The run of a well-behaved program does not fail, and ends in a machine whose calls can be
carried out. -/
theorem run_ok (nextId : Nat) (hprogram : WellBehaved settings program) :
    ((Machine.new settings nextId).run program).2 = .ok () ∧
      ((Machine.new settings nextId).run program).1.WellFormed ∧
      ((Machine.new settings nextId).run program).1.Safe settings program := by
  have hstart : (Runner.start (Machine.new settings nextId) program).Sound settings program := by
    refine ⟨Runner.start_wellFormed (new_wellFormed settings nextId) program,
      new_safe settings nextId program, fun s hs deep => Stmt.parts_subset_partsAll ?_⟩
    simpa [Runner.start] using hs
  obtain ⟨houtcomes, hwell, hsafe⟩ := Runner.take_ok (fun _ => Runner.turn_holds hprogram)
    (Runner.start (Machine.new settings nextId) program).weight hstart
  exact ⟨forM_ok houtcomes, hwell.machine, hsafe.machine⟩

theorem runDeferred_ok {m : Machine} (h : m.Safe settings program) (hm : m.WellFormed) :
    m.runDeferred.2 = .ok () := by
  have hempty : { m with queue := [] }.Safe settings program :=
    ⟨h.scopes, h.operators, fun _ hmem => by cases hmem⟩
  exact hempty.performAll hm.scopes.searchable m.queue fun call hmem =>
    ⟨hm.queue call hmem, h.queue call hmem⟩

end Machine

end SolidScript
