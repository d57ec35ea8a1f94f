import Mathlib.Logic.Relation
import SolidScript.Proofs.Machine.Refinement
import SolidScript.Proofs.Scopes

namespace SolidScript

/-- The runner behind a turn, unless no work was left. -/
def Turn.next? : Turn → Option Runner
  | .idle => none
  | .silent next => some next
  | .stepped _ next => some next
  | .failed _ next => some next

namespace Runner

/-- One turn leads from the first runner to the second. -/
def Turns (r next : Runner) : Prop := r.turn.next? = some next

/-- Any number of turns lead from the first runner to the second. -/
def Goes : Runner → Runner → Prop := Relation.ReflTransGen Turns

/-- A failure takes the pin from before one of the open branches, or leaves it if none is open. -/
theorem unwind_eq_setPin (work : List Work) (m : Machine) :
    ∃ pin, unwind work m = m.setPin pin ∧ (pin = m.pin ∨ .restore pin ∈ work) := by
  induction work generalizing m with
  | nil => exact ⟨m.pin, rfl, .inl rfl⟩
  | cons w work ih =>
    cases w with
    | statement s =>
      obtain ⟨pin, heq, hpin⟩ := ih m
      exact ⟨pin, heq, hpin.imp_right (List.mem_cons_of_mem _)⟩
    | restore inner =>
      obtain ⟨pin, heq, hpin⟩ := ih (m.setPin inner)
      refine ⟨pin, (unwind_restore ..).trans heq, .inr ?_⟩
      obtain rfl | hmem := hpin
      · exact List.mem_cons_self
      · exact List.mem_cons_of_mem _ hmem

/-- What can come of one item of work. Declarations change the names of the current context; a
branch that is entered gets a new context as its scope. -/
inductive Moves : Runner → Runner → Prop
  | leave (m : Machine) (pin : Option ScopeId) (work : List Work) :
    Moves ⟨m, .restore pin :: work⟩ ⟨m.setPin pin, work⟩
  | unfold (m : Machine) (ss : List Stmt) (span : Span) (work : List Work) :
    Moves ⟨m, .statement (.compound ss span) :: work⟩ ⟨m, ss.map .statement ++ work⟩
  | enter (m : Machine) (log : Log) (condition : Expr) (a : Stmt) (b : Option Stmt) (span : Span)
    (body : Stmt) (work : List Work) (hbody : body = a ∨ b = some body) :
    Moves ⟨m, .statement (.branch condition a b span) :: work⟩
      ⟨{ m with
          scopes := (m.scopes.create (some m.current)).1, pin := some m.scopes.size, log },
        .statement body :: .restore m.pin :: work⟩
  | pass (m : Machine) (log : Log) (s : Stmt) (work : List Work) :
    Moves ⟨m, .statement s :: work⟩ ⟨{ m with log }, work⟩
  | bind (m : Machine) (log : Log) (s : Stmt) (work : List Work) (f : Context → Context)
    (hs : s.declares?.isSome) (hf : Context.Rebinds f) :
    Moves ⟨m, .statement s :: work⟩ ⟨{ m with scopes := m.scopes.modify m.current f, log }, work⟩
  | defer (m : Machine) (log : Log) (name : String) (arguments : List Argument) (span : Span)
    (b : Builtin) (work : List Work) :
    Moves ⟨m, .statement (.moduleCall name arguments span) :: work⟩
      ⟨{ m with log }.defer ⟨b, m.current, arguments, span⟩, work⟩
  | abort (m : Machine) (log : Log) (s : Stmt) (work : List Work) (pin : Option ScopeId)
    (hpin : pin = m.pin ∨ .restore pin ∈ work)
    (hunwind : unwind work { m with log } = { m with pin, log }) :
    Moves ⟨m, .statement s :: work⟩ ⟨{ m with pin, log }, []⟩

theorem enter_moves {m next : Machine} {log : Log} {work later : List Work} {condition : Expr}
    {a : Stmt} {b : Option Stmt} {span : Span} {branch? : Option Stmt}
    (hbranch : ∀ body ∈ branch?, body = a ∨ b = some body)
    (h : (Runner.enter { m with log } work branch?).next? = some ⟨next, later⟩) :
    Moves ⟨m, .statement (.branch condition a b span) :: work⟩ ⟨next, later⟩ := by
  cases branch? with
  | none =>
    cases h
    exact .pass ..
  | some body =>
    cases h
    exact .enter _ _ _ _ _ _ _ _ (hbranch body rfl)

theorem abort_moves {m next : Machine} {log : Log} {work later : List Work} {s : Stmt}
    {e : EvalError} (h : (Runner.abort { m with log } work e).next? = some ⟨next, later⟩) :
    Moves ⟨m, .statement s :: work⟩ ⟨next, later⟩ := by
  obtain ⟨pin, heq, hpin⟩ := unwind_eq_setPin work { m with log }
  rw [abort_eq, heq] at h
  cases h
  exact .abort m log s work pin hpin heq

/-- Looking a module up leaves the machine as it is but for the log. -/
theorem getModule_eq (m : Machine) (scope : ScopeId) (name : String) :
    ∃ log, m.getModule scope name = ({ m with log }, m.scopes.findModule scope name) := by
  unfold Machine.getModule Machine.orWarn
  by_cases hfound : (m.scopes.findModule scope name).isSome
  · exact ⟨m.log, by simp only [hfound, if_true]⟩
  · exact ⟨_, by simp only [hfound]; rfl⟩

theorem visit_moves {m next : Machine} {work later : List Work} {s : Stmt}
    (h : (visit m work s).next? = some ⟨next, later⟩) :
    Moves ⟨m, .statement s :: work⟩ ⟨next, later⟩ := by
  cases s with
  | compound ss span =>
    cases h
    exact .unfold ..
  | branch condition a b span =>
    simp only [visit, Machine.evaluateIn] at h
    split at h
    · refine enter_moves ?_ h
      rintro body ⟨⟩
      exact .inl rfl
    · exact enter_moves (fun body hbody => .inr hbody) h
    · exact abort_moves h
  | assignment target token value span =>
    simp only [visit, Machine.evaluate, Machine.evaluateIn] at h
    split at h
    · next heq =>
      obtain ⟨rfl, _⟩ := Prod.mk.inj heq
      cases h
      exact .bind m _ _ _ _ rfl ⟨fun _ => rfl, fun _ => rfl⟩
    · next heq =>
      obtain ⟨rfl, _⟩ := Prod.mk.inj heq
      exact abort_moves h
  | moduleCall name arguments span =>
    obtain ⟨log, hfound⟩ := getModule_eq m m.current name
    simp only [visit, hfound] at h
    split at h
    · next heq =>
      obtain ⟨rfl, _⟩ := Prod.mk.inj heq
      cases h
      exact .defer ..
    · next heq =>
      obtain ⟨rfl, _⟩ := Prod.mk.inj heq
      exact abort_moves h
  | moduleDef name parameters body span =>
    cases h
    exact .bind m m.log _ _ _ rfl ⟨fun _ => rfl, fun _ => rfl⟩
  | functionDef name parameters body span =>
    cases h
    exact .bind m m.log _ _ _ rfl ⟨fun _ => rfl, fun _ => rfl⟩
  | expression e span =>
    cases h
    exact .pass m m.log ..

theorem Turns.moves {r next : Runner} (h : r.Turns next) : r.Moves next := by
  obtain ⟨m, work⟩ := r
  match work with
  | [] => cases h
  | .restore pin :: work =>
    cases h
    exact .leave ..
  | .statement s :: work => exact visit_moves h

theorem Turns.work_ne_nil {r next : Runner} (h : r.Turns next) : r.work ≠ [] := by
  intro hnil
  rw [Turns, turn, hnil] at h
  cases h

/-- What every turn keeps holds wherever turns lead. -/
theorem Goes.invariant {P : Runner → Prop} {r next : Runner} (hgoes : r.Goes next) (hr : P r)
    (hstep : ∀ r next, r.Turns next → P r → P next) : P next := by
  induction hgoes with
  | refl => exact hr
  | tail _ hturn ih => exact hstep _ _ hturn ih

theorem goes_advance (fuel : Nat) (r : Runner) : r.Goes (advance fuel r).2 := by
  induction fuel generalizing r with
  | zero => exact .refl
  | succ fuel ih =>
    rw [advance]
    cases hturn : r.turn with
    | idle => exact .refl
    | silent next => exact .head (congrArg Turn.next? hturn) (ih next)
    | stepped step next => exact .single (congrArg Turn.next? hturn)
    | failed e next => exact .single (congrArg Turn.next? hturn)

/-- A runner that has made so many steps is one that turns lead to. -/
theorem goes_take (limit : Nat) (r : Runner) : r.Goes (r.take limit).2 := by
  induction limit generalizing r with
  | zero => exact .refl
  | succ limit ih =>
    have hnext : r.Goes r.next.2 := goes_advance r.weight r
    rw [take]
    split
    · next heq =>
      rw [heq] at hnext
      exact hnext
    · next heq =>
      rw [heq] at hnext
      exact hnext.trans (ih _)

theorem goes_drain (r : Runner) : r.Goes r.drain.2 := goes_take r.weight r

/-- Turns lead nowhere once the work is done. -/
theorem Goes.eq_of_nil {r next : Runner} (h : r.Goes next) (hwork : r.work = []) : next = r := by
  refine h.invariant (P := fun next => next = r) rfl ?_
  rintro _ next hturn rfl
  exact absurd hwork hturn.work_ne_nil

/-- From wherever turns have led, they lead on to the end of the walk. -/
theorem Goes.to_drain {r next : Runner} (h : r.Goes next) : next.Goes r.drain.2 := by
  have hunique : Relator.RightUnique Turns := fun _ _ _ hb hc =>
    Option.some.inj (hb.symm.trans hc)
  have hend : r.drain.2.work = [] := by rw [drain, take_eq (Nat.le_refl _)]
  obtain hon | hback := Relation.ReflTransGen.total_of_right_unique hunique h r.goes_drain
  · exact hon
  · rw [Goes.eq_of_nil hback hend]
    exact .refl

end Runner

end SolidScript
