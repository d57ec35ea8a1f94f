import SolidScript.Proofs.Machine.Turns

namespace SolidScript

/-- The contexts are a tree, the stack begins with its root, and all scopes that the machine keeps
are places of contexts. -/
structure Machine.WellFormed (m : Machine) : Prop where
  scopes : m.scopes.WellFormed
  root : m.root = 0
  bottom : m.stack.getLast? = some m.root
  stack : ∀ scope ∈ m.stack, scope < m.scopes.size
  pin : ∀ scope ∈ m.pin, scope < m.scopes.size
  queue : ∀ call ∈ m.queue, call.scope < m.scopes.size

namespace Machine.WellFormed

variable {m : Machine}

theorem current_lt (h : m.WellFormed) : m.current < m.scopes.size := by
  unfold Machine.current
  cases hpin : m.pin with
  | some scope => exact h.pin scope hpin
  | none =>
    cases hhead : m.stack.head? with
    | some scope => exact h.stack scope (List.mem_of_head? hhead)
    | none =>
      have hbottom := h.bottom
      rw [List.head?_eq_none_iff.mp hhead] at hbottom
      cases hbottom

/-- The arena may be exchanged for one with at least as many contexts. -/
theorem withScopes (h : m.WellFormed) {scopes : Scopes} (hscopes : scopes.WellFormed)
    (hsize : m.scopes.size ≤ scopes.size) : { m with scopes }.WellFormed where
  scopes := hscopes
  root := h.root
  bottom := h.bottom
  stack scope hmem := Nat.lt_of_lt_of_le (h.stack scope hmem) hsize
  pin scope hmem := Nat.lt_of_lt_of_le (h.pin scope hmem) hsize
  queue call hmem := Nat.lt_of_lt_of_le (h.queue call hmem) hsize

theorem modify (h : m.WellFormed) (scope : ScopeId) {f : Context → Context}
    (hf : Context.Rebinds f) : { m with scopes := m.scopes.modify scope f }.WellFormed :=
  h.withScopes (h.scopes.modify hf scope) (Nat.le_of_eq (Scopes.size_modify ..).symm)

theorem withLog (h : m.WellFormed) (log : Log) : { m with log }.WellFormed :=
  ⟨h.scopes, h.root, h.bottom, h.stack, h.pin, h.queue⟩

theorem setPin (h : m.WellFormed) {pin : Option ScopeId}
    (hpin : ∀ scope ∈ pin, scope < m.scopes.size) : (m.setPin pin).WellFormed :=
  ⟨h.scopes, h.root, h.bottom, h.stack, hpin, h.queue⟩

theorem childScope (h : m.WellFormed) : m.childScope.1.WellFormed := by
  have hsize : m.scopes.size ≤ (m.scopes.create (some m.current)).1.size := by simp
  exact h.withScopes (h.scopes.create h.current_lt) hsize

theorem pushScope (h : m.WellFormed) : m.pushScope.1.WellFormed where
  scopes := h.childScope.scopes
  root := h.root
  bottom := by
    have hbottom := h.childScope.bottom
    rw [Machine.pushScope, List.getLast?_cons, hbottom]
    rfl
  stack scope hmem := by
    obtain rfl | hmem := List.mem_cons.mp hmem
    · exact (Scopes.size_create ..).symm ▸ Nat.lt_succ_self _
    · exact h.childScope.stack scope hmem
  pin := h.childScope.pin
  queue := h.childScope.queue

theorem popScope (h : m.WellFormed) : m.popScope.1.WellFormed := by
  unfold Machine.popScope
  split
  · next top next rest hstack =>
    have hbottom := h.bottom
    rw [hstack] at hbottom
    refine ⟨h.scopes, h.root, hbottom, fun scope hmem => ?_, h.pin, h.queue⟩
    exact h.stack scope (hstack ▸ List.mem_cons_of_mem _ hmem)
  · exact h

theorem defer (h : m.WellFormed) {call : DeferredCall} (hcall : call.scope < m.scopes.size) :
    (m.defer call).WellFormed := by
  refine ⟨h.scopes, h.root, h.bottom, h.stack, h.pin, fun other hmem => ?_⟩
  obtain hmem | hmem := List.mem_append.mp hmem
  · exact h.queue other hmem
  · obtain rfl := List.mem_singleton.mp hmem
    exact hcall

end Machine.WellFormed

/-- The arena of a new run has its root only. -/
theorem Machine.initialScopes_wellFormed (settings : Settings) (nextId : Nat) :
    (Machine.initialScopes settings nextId).WellFormed := by
  have hroot : ((Scopes.empty nextId).create none).1.WellFormed := by
    refine ⟨by simp, fun i c hc => ?_, fun i c p hc hp => ?_, List.pairwise_singleton _ _, ?_⟩
    · rw [Scopes.context?_create] at hc
      split at hc
      · next hi =>
        obtain rfl := Option.some.inj hc
        exact ⟨fun _ => hi, fun _ => rfl⟩
      · cases hc
    · rw [Scopes.context?_create] at hc
      split at hc
      · obtain rfl := Option.some.inj hc
        cases hp
      · cases hc
    · intro c hc
      obtain rfl := List.mem_singleton.mp hc
      exact Nat.lt_succ_self _
  refine List.foldlRecOn _ _ (motive := Scopes.WellFormed) ?_ fun s hs entry _ => ?_
  · refine List.foldlRecOn _ _ (motive := Scopes.WellFormed) hroot fun s hs b _ => ?_
    refine hs.modify ?_ _
    exact ⟨fun _ => rfl, fun _ => rfl⟩
  · refine hs.modify ?_ _
    exact ⟨fun _ => rfl, fun _ => rfl⟩

theorem Machine.new_wellFormed (settings : Settings) (nextId : Nat) :
    (Machine.new settings nextId).WellFormed where
  scopes := Machine.initialScopes_wellFormed settings nextId
  root := rfl
  bottom := rfl
  stack scope hmem := by
    obtain rfl := List.mem_singleton.mp hmem
    exact (Machine.initialScopes_wellFormed settings nextId).nonempty
  pin scope hmem := by cases hmem
  queue call hmem := by cases hmem

namespace Runner

/-- The machine is well-formed, and the pins that are still to be put back are places of
contexts. -/
structure WellFormed (r : Runner) : Prop where
  machine : r.machine.WellFormed
  pins : ∀ pin, .restore pin ∈ r.work → ∀ scope ∈ pin, scope < r.machine.scopes.size

theorem start_wellFormed {m : Machine} (h : m.WellFormed) (ss : List Stmt) :
    (Runner.start m ss).WellFormed where
  machine := h
  pins pin hmem := by simp [Runner.start] at hmem

/-- Every turn keeps a runner well-formed. -/
theorem WellFormed.turns {r next : Runner} (h : r.WellFormed) (hturn : r.Turns next) :
    next.WellFormed := by
  obtain ⟨hm, hpins⟩ := h
  cases hturn.moves with
  | leave m pin work =>
    exact ⟨hm.setPin (hpins pin List.mem_cons_self), fun other hmem =>
      hpins other (List.mem_cons_of_mem _ hmem)⟩
  | unfold m ss span work =>
    refine ⟨hm, fun pin hmem => hpins pin (List.mem_cons_of_mem _ ?_)⟩
    simpa using hmem
  | enter m log condition a b span body work hbody =>
    have hgrown := hm.childScope
    have hinner : m.scopes.size < (m.scopes.create (some m.current)).1.size := by simp
    refine ⟨(hgrown.withLog log).setPin ?_, fun pin hmem scope hscope => ?_⟩
    · rintro scope ⟨⟩
      exact hinner
    · refine Nat.lt_trans ?_ hinner
      obtain hmem | hmem : pin = m.pin ∨ .restore pin ∈ work := by simpa using hmem
      · exact hm.pin scope (hmem ▸ hscope)
      · exact hpins pin (List.mem_cons_of_mem _ hmem) scope hscope
  | pass m log s work =>
    exact ⟨hm.withLog log, fun pin hmem => hpins pin (List.mem_cons_of_mem _ hmem)⟩
  | bind m log s work f hs hf =>
    refine ⟨(hm.modify m.current hf).withLog log, fun pin hmem scope hscope => ?_⟩
    rw [Scopes.size_modify]
    exact hpins pin (List.mem_cons_of_mem _ hmem) scope hscope
  | defer m log name arguments span b work =>
    exact ⟨(hm.withLog log).defer hm.current_lt, fun pin hmem =>
      hpins pin (List.mem_cons_of_mem _ hmem)⟩
  | abort m log s work pin hpin hunwind =>
    refine ⟨(hm.withLog log).setPin ?_, fun _ hmem => by cases hmem⟩
    obtain rfl | hmem := hpin
    · exact hm.pin
    · exact hpins pin (List.mem_cons_of_mem _ hmem)

theorem WellFormed.goes {r next : Runner} (h : r.WellFormed) (hgoes : r.Goes next) :
    next.WellFormed :=
  hgoes.invariant h fun _ _ hturn hr => hr.turns hturn

end Runner

namespace Machine

/-- Carrying out a call changes the log only. -/
theorem perform_eq (m : Machine) (call : DeferredCall) :
    ∃ log, (m.perform call).1 = { m with log } := by
  simp only [perform, evaluateIn]
  split
  · next heq =>
    obtain ⟨rfl, _⟩ := Prod.mk.inj heq
    cases call.builtin <;> exact ⟨_, rfl⟩
  · next heq =>
    obtain ⟨rfl, _⟩ := Prod.mk.inj heq
    exact ⟨_, rfl⟩

theorem performAll_eq (m : Machine) (calls : List DeferredCall) :
    ∃ log, (m.performAll calls).1 = { m with log } := by
  induction calls generalizing m with
  | nil => exact ⟨m.log, rfl⟩
  | cons call calls ih =>
    obtain ⟨log, hlog⟩ := m.perform_eq call
    rw [performAll]
    split
    · next heq =>
      rw [heq] at hlog
      subst hlog
      obtain ⟨later, hlater⟩ := ih { m with log }
      exact ⟨later, hlater⟩
    · next heq =>
      rw [heq] at hlog
      exact ⟨log, hlog⟩

theorem WellFormed.runDeferred {m : Machine} (h : m.WellFormed) : m.runDeferred.1.WellFormed := by
  obtain ⟨log, heq⟩ := performAll_eq { m with queue := [] } m.queue
  rw [Machine.runDeferred, heq]
  exact ⟨h.scopes, h.root, h.bottom, h.stack, h.pin, fun _ hmem => by cases hmem⟩

/-- What can be done with a machine between walks, and walks themselves. -/
inductive Operation where
  | pushScope
  | popScope
  | childScope
  | setPin (pin : Option ScopeId)
  /-- Binds a variable in the current scope. -/
  | assign (name : String) (value : Value)
  | setVariable (scope : ScopeId) (name : String) (value : Value)
  | setModule (scope : ScopeId) (name : String) (module : Module)
  | setFunction (scope : ScopeId) (name : String) (function : FunctionDefinition)
  | defer (call : DeferredCall)
  /-- A walk to its end or to its first error. -/
  | run (statements : List Stmt)
  /-- A walk that is given up after so many steps. -/
  | walk (statements : List Stmt) (steps : Nat)
  | runDeferred

namespace Operation

/-- The machine after an operation, whether or not it failed. -/
def apply (m : Machine) : Operation → Machine
  | .pushScope => m.pushScope.1
  | .popScope => m.popScope.1
  | .childScope => m.childScope.1
  | .setPin pin => m.setPin pin
  | .assign name value => m.setVariable name value
  | .setVariable scope name value => { m with scopes := m.scopes.setVariable scope name value }
  | .setModule scope name module => { m with scopes := m.scopes.setModule scope name module }
  | .setFunction scope name function =>
    { m with scopes := m.scopes.setFunction scope name function }
  | .defer call => m.defer call
  | .run statements => (m.run statements).1
  | .walk statements steps => ((Runner.start m statements).take steps).2.machine
  | .runDeferred => m.runDeferred.1

/-- The scopes that are given to an operation. -/
def scopes : Operation → List ScopeId
  | .setPin pin => pin.toList
  | .setVariable scope .. => [scope]
  | .setModule scope .. => [scope]
  | .setFunction scope .. => [scope]
  | .defer call => [call.scope]
  | _ => []

/-- The scopes that an operation gives back: those that it makes or closes, and the pin that it
takes away. -/
def handsOut (m : Machine) : Operation → List ScopeId
  | .pushScope => [m.pushScope.2]
  | .popScope => m.popScope.2.toList
  | .childScope => [m.childScope.2]
  | .setPin _ => m.pin.toList
  | _ => []

end Operation

/-- A session leads to the machine, and has given out the scopes. It begins with a new machine;
then operations follow one another, to which only scopes are given that were given out before.
Between them the machine shows its current scope, the scopes of the calls that wait, and parents,
and other machines may take numbers for their contexts. -/
inductive Session (settings : Settings) : Machine → List ScopeId → Prop
  | start (nextId : Nat) :
    Session settings (.new settings nextId) [(Machine.new settings nextId).root]
  | operate {m : Machine} {known : List ScopeId} (h : Session settings m known) (op : Operation)
    (hscopes : ∀ scope ∈ op.scopes, scope ∈ known) :
    Session settings (op.apply m) (op.handsOut m ++ known)
  | elapse {m : Machine} {known : List ScopeId} (h : Session settings m known) (nextId : Nat)
    (hnext : m.scopes.nextId ≤ nextId) :
    Session settings { m with scopes := { m.scopes with nextId } } known
  | current {m : Machine} {known : List ScopeId} (h : Session settings m known) :
    Session settings m (m.current :: known)
  | queued {m : Machine} {known : List ScopeId} (h : Session settings m known)
    (call : DeferredCall) (hcall : call ∈ m.queue) : Session settings m (call.scope :: known)
  | parent {m : Machine} {known : List ScopeId} (h : Session settings m known)
    (scope outer : ScopeId) (hscope : scope ∈ known)
    (hparent : m.scopes.parent? scope = some outer) : Session settings m (outer :: known)

/-- Operations on known scopes keep the machine well-formed. -/
theorem WellFormed.apply {m : Machine} (h : m.WellFormed) (op : Operation)
    (hscopes : ∀ scope ∈ op.scopes, scope < m.scopes.size) : (op.apply m).WellFormed := by
  cases op with
  | pushScope => exact h.pushScope
  | popScope => exact h.popScope
  | childScope => exact h.childScope
  | setPin pin => exact h.setPin fun scope hmem => hscopes scope (Option.mem_toList.mpr hmem)
  | assign name value => exact h.modify _ ⟨fun _ => rfl, fun _ => rfl⟩
  | setVariable scope name value => exact h.modify _ ⟨fun _ => rfl, fun _ => rfl⟩
  | setModule scope name module => exact h.modify _ ⟨fun _ => rfl, fun _ => rfl⟩
  | setFunction scope name function => exact h.modify _ ⟨fun _ => rfl, fun _ => rfl⟩
  | defer call => exact h.defer (hscopes call.scope List.mem_cons_self)
  | run statements =>
    exact ((Runner.start_wellFormed h statements).goes (Runner.goes_drain _)).machine
  | walk statements steps =>
    exact ((Runner.start_wellFormed h statements).goes (Runner.goes_take steps _)).machine
  | runDeferred => exact h.runDeferred

end Machine

/-- Contexts are never taken away by a turn. -/
theorem Runner.Turns.size_le {r next : Runner} (h : r.Turns next) :
    r.machine.scopes.size ≤ next.machine.scopes.size := by
  cases h.moves with
  | enter => simp
  | bind => simp
  | _ => exact Nat.le_refl _

theorem Runner.Goes.size_le {r next : Runner} (h : r.Goes next) :
    r.machine.scopes.size ≤ next.machine.scopes.size :=
  h.invariant (P := fun next => r.machine.scopes.size ≤ next.machine.scopes.size) (Nat.le_refl _)
    fun _ _ hturn hle => Nat.le_trans hle hturn.size_le

namespace Machine

/-- Contexts are never taken away. -/
theorem Operation.size_le (m : Machine) (op : Operation) :
    m.scopes.size ≤ (op.apply m).scopes.size := by
  cases op with
  | pushScope => simp [apply, Machine.pushScope, Machine.childScope]
  | childScope => simp [apply, Machine.childScope]
  | popScope =>
    simp only [apply, Machine.popScope]
    split <;> exact Nat.le_refl _
  | assign name value => exact Nat.le_of_eq (Scopes.size_modify ..).symm
  | setVariable scope name value => exact Nat.le_of_eq (Scopes.size_modify ..).symm
  | setModule scope name module => exact Nat.le_of_eq (Scopes.size_modify ..).symm
  | setFunction scope name function => exact Nat.le_of_eq (Scopes.size_modify ..).symm
  | setPin pin => exact Nat.le_refl _
  | defer call => exact Nat.le_refl _
  | run statements => exact (Runner.start m statements).goes_drain.size_le
  | walk statements steps => exact ((Runner.start m statements).goes_take steps).size_le
  | runDeferred =>
    obtain ⟨log, heq⟩ := performAll_eq { m with queue := [] } m.queue
    exact Nat.le_of_eq (congrArg (·.scopes.size) heq).symm

theorem WellFormed.handsOut_lt {m : Machine} (h : m.WellFormed) (op : Operation) :
    ∀ scope ∈ op.handsOut m, scope < (op.apply m).scopes.size := by
  intro scope hmem
  cases op with
  | pushScope =>
    obtain rfl := List.mem_singleton.mp hmem
    exact (Scopes.size_create ..).symm ▸ Nat.lt_succ_self _
  | childScope =>
    obtain rfl := List.mem_singleton.mp hmem
    exact (Scopes.size_create ..).symm ▸ Nat.lt_succ_self _
  | popScope =>
    refine Nat.lt_of_lt_of_le (h.stack scope ?_) (Operation.size_le m .popScope)
    have hpopped := Option.mem_toList.mp hmem
    unfold Machine.popScope at hpopped
    split at hpopped
    · next hstack =>
      cases hpopped
      rw [hstack]
      exact List.mem_cons_self
    · cases hpopped
  | setPin pin => exact h.pin scope (Option.mem_toList.mp hmem)
  | _ => cases hmem

/-- The machine of a session is well-formed, and what the session has given out are places of
contexts. -/
theorem Session.invariant {settings : Settings} {m : Machine} {known : List ScopeId}
    (h : Session settings m known) : m.WellFormed ∧ ∀ scope ∈ known, scope < m.scopes.size := by
  induction h with
  | start nextId =>
    have hnew := new_wellFormed settings nextId
    refine ⟨hnew, fun scope hmem => ?_⟩
    obtain rfl := List.mem_singleton.mp hmem
    exact hnew.scopes.nonempty
  | @operate m known _ op hscopes ih =>
    obtain ⟨hm, hknown⟩ := ih
    refine ⟨hm.apply op fun scope hmem => hknown scope (hscopes scope hmem), fun scope hmem => ?_⟩
    obtain hmem | hmem := List.mem_append.mp hmem
    · exact hm.handsOut_lt op scope hmem
    · exact Nat.lt_of_lt_of_le (hknown scope hmem) (op.size_le m)
  | elapse _ nextId hnext ih =>
    exact ⟨ih.1.withScopes (ih.1.scopes.elapse hnext) (Nat.le_refl _), ih.2⟩
  | current _ ih =>
    exact ⟨ih.1, List.forall_mem_cons.mpr ⟨ih.1.current_lt, ih.2⟩⟩
  | queued _ call hcall ih =>
    exact ⟨ih.1, List.forall_mem_cons.mpr ⟨ih.1.queue call hcall, ih.2⟩⟩
  | parent _ scope outer hscope hparent ih =>
    refine ⟨ih.1, List.forall_mem_cons.mpr ⟨?_, ih.2⟩⟩
    obtain ⟨c, hc, hp⟩ := Option.bind_eq_some_iff.mp hparent
    exact Nat.lt_trans (ih.1.scopes.parents scope c outer hc hp) (Scopes.lt_size hc)

/-- Whatever a session does, the contexts are a tree that is rooted in the first of them, with
numbers that ascend; the root is at the bottom of the stack; and the pin, the stack and the calls
that wait name contexts only. It is so between operations and after every turn of a walk. Hence the
current scope and all that the session has given out are places of contexts, and every search for a
name ends inside the arena. -/
theorem session_wellFormed {settings : Settings} {m : Machine} {known : List ScopeId}
    (h : Session settings m known) :
    m.WellFormed ∧ (∀ scope ∈ known, scope < m.scopes.size) ∧ m.current < m.scopes.size ∧
      m.scopes.Searchable ∧
      ∀ (ss : List Stmt) (r : Runner), (Runner.start m ss).Goes r →
        r.WellFormed ∧ r.machine.current < r.machine.scopes.size ∧
          r.machine.scopes.Searchable := by
  obtain ⟨hm, hknown⟩ := h.invariant
  refine ⟨hm, hknown, hm.current_lt, hm.scopes.searchable, fun ss r hgoes => ?_⟩
  have hr := (Runner.start_wellFormed hm ss).goes hgoes
  exact ⟨hr, hr.machine.current_lt, hr.machine.scopes.searchable⟩

/-- A walk that is given up inside of a branch leaves the scope of the branch pinned. The scope that
is opened next is its child, and the machine is still well-formed. -/
theorem session_wellFormed_given_up :
    let yes : Expr := .literal (.boolean true) (Lexeme.token ⟨.keyword, "true"⟩)
    let body : Stmt := .compound [.expression yes .origin, .expression yes .origin] .origin
    let m := (Operation.walk [.branch yes body none .origin] 1).apply (.new .standard)
    m.pin = some 1 ∧ m.pushScope.1.scopes.parent? 2 = some 1 ∧ m.pushScope.1.WellFormed ∧
      2 < m.pushScope.1.scopes.size := by
  intro yes body m
  have hwalk : Session .standard m [0] :=
    .operate (.start 0) (.walk [.branch yes body none .origin] 1) (by simp [Operation.scopes])
  have hpush : Session .standard m.pushScope.1 [2, 0] :=
    .operate hwalk .pushScope (by simp [Operation.scopes])
  obtain ⟨hm, hknown, _⟩ := session_wellFormed hpush
  exact ⟨rfl, rfl, hm, hknown 2 List.mem_cons_self⟩

end Machine

end SolidScript
