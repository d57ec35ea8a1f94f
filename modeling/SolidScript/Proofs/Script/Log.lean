import SolidScript.Proofs.Machine.Reports
import SolidScript.Script

namespace SolidScript

namespace Script

/-- The machine behind the walk over a program. -/
def walked (s : Script) (nextId : Nat) (program : List Stmt) : Machine :=
  ((Machine.new s.settings nextId).run program).1

/-- The ends that a run can come to, each with the log that is left: the program does not compile,
the walk fails, a call fails, or nothing does. -/
inductive Ends (s : Script) (nextId : Nat) : Option Failure → Log → Prop
  | uncompiled {e : CompileError} (h : compile s.source = .error e) :
    Ends s nextId (some (.compile e)) [⟨.error, e.message⟩]
  | halted {program : List Stmt} {e : EvalError} (h : compile s.source = .ok program)
    (hwalk : ((Machine.new s.settings nextId).run program).2 = .error e) :
    Ends s nextId (some (.evaluation e)) ((s.walked nextId program).log ++ [⟨.error, e.message⟩])
  | undone {program : List Stmt} {e : EvalError} (h : compile s.source = .ok program)
    (hcalls : (s.walked nextId program).runDeferred.2 = .error e) :
    Ends s nextId (some (.evaluation e))
      ((s.walked nextId program).runDeferred.1.log ++ [⟨.error, e.message⟩])
  | done {program : List Stmt} (h : compile s.source = .ok program)
    (hcalls : (s.walked nextId program).runDeferred.2 = .ok ()) :
    Ends s nextId none (s.walked nextId program).runDeferred.1.log

theorem run_ends (s : Script) (nextId : Nat) :
    s.Ends nextId (s.run nextId).failure? (s.run nextId).log := by
  cases hcompile : compile s.source with
  | error e =>
    rw [run, hcompile]
    exact .uncompiled hcompile
  | ok program =>
    rw [run, hcompile]
    simp only
    split
    · next m e hwalk =>
      obtain rfl : s.walked nextId program = m := congrArg Prod.fst hwalk
      exact .halted hcompile (congrArg Prod.snd hwalk)
    · next m hwalk =>
      obtain rfl : s.walked nextId program = m := congrArg Prod.fst hwalk
      split
      · next m e hcalls =>
        obtain rfl : (s.walked nextId program).runDeferred.1 = m := congrArg Prod.fst hcalls
        exact .undone hcompile (congrArg Prod.snd hcalls)
      · next m hcalls =>
        obtain rfl : (s.walked nextId program).runDeferred.1 = m := congrArg Prod.fst hcalls
        exact .done hcompile (congrArg Prod.snd hcalls)

variable {s : Script} {nextId : Nat} {program : List Stmt}

/-- The walk of a run has nothing but warnings to log. -/
theorem level_walked (s : Script) (nextId : Nat) (program : List Stmt) :
    ∀ entry ∈ (s.walked nextId program).log, entry.level = .warning := by
  obtain ⟨warnings, hlog, hwarnings⟩ := ((Machine.new s.settings nextId).run_adds program).log
  have hall : (s.walked nextId program).log = warnings := hlog
  rwa [hall]

/-- The calls that wait behind the walk are those that it has passed, in the same order. -/
theorem queue_walked (s : Script) (nextId : Nat) (program : List Stmt) :
    (s.walked nextId program).queue.map DeferredCall.span =
      Step.calls (Runner.start (Machine.new s.settings nextId) program).steps := by
  obtain ⟨calls, hqueue, hspans⟩ := ((Machine.new s.settings nextId).run_adds program).queue
  have hall : (s.walked nextId program).queue = calls := hqueue
  rwa [hall]

/-- The calls go on with the log that the walk has left, and add no errors. -/
theorem log_runDeferred (m : Machine) :
    ∃ added, m.runDeferred.1.log = m.log ++ added ∧ ∀ entry ∈ added, entry.level ≠ .error := by
  obtain ⟨done, rest, _, hmachine, _⟩ := { m with queue := [] }.performAll_entries m.queue
  refine ⟨_, congrArg Machine.log hmachine, fun entry hentry => ?_⟩
  obtain ⟨call, _, hcall⟩ := List.mem_flatMap.mp hentry
  exact call.level_entries _ entry hcall

/-- Up to the end of the calls no error is logged. -/
theorem level_performed (s : Script) (nextId : Nat) (program : List Stmt) :
    ∀ entry ∈ (s.walked nextId program).runDeferred.1.log, entry.level ≠ .error := by
  obtain ⟨added, hlog, hadded⟩ := log_runDeferred (s.walked nextId program)
  intro entry hentry
  rw [hlog] at hentry
  obtain hentry | hentry := List.mem_append.mp hentry
  · simp [s.level_walked nextId program entry hentry]
  · exact hadded entry hentry

/-- Where all calls succeed, the lines are those of the `echo` calls in the order of the queue. -/
theorem infos_runDeferred {m : Machine} (hlog : ∀ entry ∈ m.log, entry.level = .warning)
    (hok : m.runDeferred.2 = .ok ()) :
    (m.runDeferred.1.log.messages .info).map .ok =
      (m.queue.filter (·.builtin = .echo)).map (·.line m) := by
  obtain ⟨done, rest, hcalls, hmachine, hdone⟩ := { m with queue := [] }.performAll_entries m.queue
  obtain ⟨rfl, hresolved⟩ := hdone hok
  rw [List.append_nil] at hcalls
  have hall : m.runDeferred.1.log = m.log ++ m.queue.flatMap (·.entries m) := by
    rw [hcalls]
    exact congrArg Machine.log hmachine
  rw [hall, Log.messages_append, Log.messages_of_warnings hlog (by decide), List.nil_append]
  rw [hcalls]
  exact DeferredCall.infos_flatMap hresolved

/-- The entries in front of the failure are no errors. -/
theorem Ends.log_of_failure {f : Failure} {log : Log} (h : s.Ends nextId (some f) log) :
    ∃ before, log = before ++ [⟨.error, f.message⟩] ∧ ∀ entry ∈ before, entry.level ≠ .error := by
  cases h with
  | uncompiled h => exact ⟨[], rfl, nofun⟩
  | @halted program e h hwalk =>
    refine ⟨_, rfl, fun entry hentry => ?_⟩
    simp [s.level_walked nextId program entry hentry]
  | @undone program e h hcalls => exact ⟨_, rfl, s.level_performed nextId program⟩

theorem Ends.level_of_success {log : Log} (h : s.Ends nextId none log) :
    ∀ entry ∈ log, entry.level ≠ .error := by
  cases h with
  | @done program h hcalls => exact s.level_performed nextId program

/-- What the walk has logged comes first. -/
theorem Ends.walked_isPrefix {failure? : Option Failure} {log : Log}
    (h : s.Ends nextId failure? log) (hcompile : compile s.source = .ok program) :
    (s.walked nextId program).log <+: log := by
  cases h with
  | uncompiled h =>
    rw [h] at hcompile
    cases hcompile
  | halted h hwalk =>
    obtain rfl := Except.ok.inj (hcompile.symm.trans h)
    exact List.prefix_append ..
  | undone h hcalls =>
    obtain rfl := Except.ok.inj (hcompile.symm.trans h)
    obtain ⟨added, hlog, _⟩ := log_runDeferred (s.walked nextId program)
    rw [hlog, List.append_assoc]
    exact List.prefix_append ..
  | done h hcalls =>
    obtain rfl := Except.ok.inj (hcompile.symm.trans h)
    obtain ⟨added, hlog, _⟩ := log_runDeferred (s.walked nextId program)
    rw [hlog]
    exact List.prefix_append ..

/-- The shape of a log. A run fails if and only if an error is logged; then the error is the last
entry, no other entry is one, and it has the text of the failure. The walk logs warnings only, and
these come first. If nothing fails, the lines printed are those of the `echo` calls that wait behind
the walk, one for each and in the order of the queue, and that is the order in which the walk has
passed the calls. -/
theorem run_log (s : Script) (nextId : Nat) :
    ((s.run nextId).failure?.isSome ↔ ∃ entry ∈ (s.run nextId).log, entry.level = .error) ∧
      (∀ f, (s.run nextId).failure? = some f →
        ∃ before, (s.run nextId).log = before ++ [⟨.error, f.message⟩] ∧
          ∀ entry ∈ before, entry.level ≠ .error) ∧
      ∀ program, compile s.source = .ok program →
        (∀ entry ∈ (s.walked nextId program).log, entry.level = .warning) ∧
        (s.walked nextId program).log <+: (s.run nextId).log ∧
        (s.walked nextId program).queue.map DeferredCall.span =
          Step.calls (Runner.start (Machine.new s.settings nextId) program).steps ∧
        ((s.run nextId).failure? = none →
          ((s.run nextId).log.messages .info).map .ok =
            ((s.walked nextId program).queue.filter (·.builtin = .echo)).map
              (·.line (s.walked nextId program))) := by
  have hends := s.run_ends nextId
  refine ⟨⟨fun hsome => ?_, fun ⟨entry, hentry, herror⟩ => ?_⟩, fun f hf => ?_, ?_⟩
  · obtain ⟨f, hf⟩ := Option.isSome_iff_exists.mp hsome
    rw [hf] at hends
    obtain ⟨before, hlog, _⟩ := hends.log_of_failure
    exact ⟨⟨.error, f.message⟩, by simp [hlog], rfl⟩
  · cases hfailure : (s.run nextId).failure? with
    | some f => rfl
    | none =>
      rw [hfailure] at hends
      exact absurd herror (hends.level_of_success entry hentry)
  · rw [hf] at hends
    exact hends.log_of_failure
  · intro program hcompile
    refine ⟨s.level_walked nextId program, hends.walked_isPrefix hcompile,
      s.queue_walked nextId program, fun hnone => ?_⟩
    rw [hnone] at hends
    generalize (s.run nextId).log = log at hends
    cases hends with
    | done h hcalls =>
      obtain rfl := Except.ok.inj (hcompile.symm.trans h)
      exact infos_runDeferred (s.level_walked nextId program) hcalls

/-- The call in the branch is passed first, so its line comes first, behind the warning about the
missing name. A module that nobody has defined is a failure, and the `echo` in front of it prints
nothing. -/
theorem run_log_branch :
    let good : Script := ⟨"if(true)echo(a);echo(true);", "f", ⟨[.echo], []⟩⟩
    let bad : Script := ⟨"echo(a);m();", "f", ⟨[.echo], []⟩⟩
    (∃ program, compile good.source = .ok program ∧ good.run.failure? = none ∧
        (good.walked 0 program).queue.length = 2 ∧
        good.run.log.messages .info = ["ECHO: undef", "ECHO: true"] ∧
        (good.run.log.messages .info).map .ok =
          ((good.walked 0 program).queue.filter (·.builtin = .echo)).map
            (·.line (good.walked 0 program))) ∧
      ∃ f before, bad.run.failure? = some f ∧ bad.run.log = before ++ [⟨.error, f.message⟩] ∧
        before.length = 1 ∧ ∀ entry ∈ before, entry.level ≠ .error := by
  intro good bad
  have hgood : (compile good.source).toOption.any (fun program =>
      good.run.failure?.isNone ∧ (good.walked 0 program).queue.length = 2 ∧
        good.run.log.messages .info = ["ECHO: undef", "ECHO: true"]) = true := by
    subst good
    decide +kernel
  have hbad : bad.run.failure?.isSome ∧ bad.run.log.length = 2 := by
    subst bad
    decide +kernel
  constructor
  · cases hcompile : compile good.source with
    | error e =>
      rw [hcompile] at hgood
      cases hgood
    | ok program =>
      rw [hcompile] at hgood
      obtain ⟨hnone, hqueue, hlines⟩ := of_decide_eq_true hgood
      have hfailure := Option.isNone_iff_eq_none.mp hnone
      obtain ⟨_, _, _, hinfos⟩ := (run_log good 0).2.2 program hcompile
      exact ⟨program, rfl, hfailure, hqueue, hlines, hinfos hfailure⟩
  · obtain ⟨f, hf⟩ := Option.isSome_iff_exists.mp hbad.1
    obtain ⟨before, hlog, hbefore⟩ := (run_log bad 0).2.1 f hf
    have hlength := hbad.2
    rw [hlog, List.length_append, List.length_singleton] at hlength
    exact ⟨f, before, hf, hlog, Nat.succ.inj hlength, hbefore⟩

end Script

end SolidScript
