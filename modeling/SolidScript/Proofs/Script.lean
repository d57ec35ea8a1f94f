import SolidScript.Proofs.Machine.Progress
import SolidScript.Script

namespace SolidScript

/-- A script that compiles to a well-behaved program runs without a failure: neither the walk over
its statements nor the calls that were put off end with an error. -/
theorem Script.run_succeeds (s : Script) (nextId : Nat) {program : List Stmt}
    (hcompile : compile s.source = .ok program) (hprogram : WellBehaved s.settings program) :
    ((Machine.new s.settings nextId).run program).2 = .ok () ∧
      ((Machine.new s.settings nextId).run program).1.runDeferred.2 = .ok () ∧
      (s.run nextId).failure? = none := by
  obtain ⟨hwalk, hmachine, hsafe⟩ := Machine.run_ok nextId hprogram
  have hdeferred := Machine.runDeferred_ok hsafe hmachine
  refine ⟨hwalk, hdeferred, ?_⟩
  rw [Script.run, hcompile]
  simp only
  split
  · next heq =>
    rw [heq] at hwalk
    cases hwalk
  · next heq =>
    rw [heq] at hdeferred
    split
    · next hlast =>
      rw [hlast] at hdeferred
      cases hdeferred
    · rfl

/-- Nothing is bound to the variables and the function in it, a truth value is added to an undefined
one, and the module holds a call that could not be run but never is. -/
theorem Script.run_succeeds_unbound :
    let s : Script := ⟨"if(![a]+undef);else{echo(f(b[0]));module m(){n();}}", "f", ⟨[.echo], []⟩⟩
    ∃ program, compile s.source = .ok program ∧ WellBehaved s.settings program ∧
      ((Machine.new s.settings).run program).1.queue.length = 1 ∧ s.run.failure? = none := by
  intro s
  have hchecks : (compile s.source).toOption.any (fun program =>
      WellBehaved s.settings program ∧
        ((Machine.new s.settings).run program).1.queue.length = 1) = true := by
    subst s
    decide +kernel
  cases hcompile : compile s.source with
  | ok program =>
    rw [hcompile] at hchecks
    obtain ⟨hprogram, hqueue⟩ := of_decide_eq_true hchecks
    exact ⟨program, rfl, hprogram, hqueue, (Script.run_succeeds s 0 hcompile hprogram).2.2⟩
  | error e =>
    rw [hcompile] at hchecks
    cases hchecks

end SolidScript
