import SolidScript.Proofs.Machine.Work
import SolidScript.Proofs.Token

namespace SolidScript

namespace Runner

/-- What the runner's stack of work amounts to. -/
def walk (r : Runner) : Walk := Work.walkAll r.work r.machine

/-- What a turn has to do with the walk that is ahead of the runner. -/
def Follows (r : Runner) : Turn → Prop
  | .idle => r.work = []
  | .silent next => next.weight < r.weight ∧ r.walk = next.walk
  | .stepped step next => next.weight < r.weight ∧
    r.walk = ⟨step :: next.walk.steps, next.walk.machine, next.walk.result⟩
  | .failed e next => next.work = [] ∧ r.walk = ⟨[], next.machine, .error e⟩

section Visits

variable {m : Machine} {work : List Work} {s : Stmt}

private theorem failed_follows {n : Machine} {e : EvalError}
    (hwalk : s.walk m = ⟨[], n, .error e⟩) :
    Follows ⟨m, .statement s :: work⟩ (abort n work e) := by
  rw [abort_eq]
  refine ⟨rfl, ?_⟩
  simp [walk, Work.walkAll, hwalk, Walk.leaving, Walk.andThen]

/-- A statement that makes a step or fails, and leaves no work. -/
private theorem single_follows {done : Machine × Except EvalError Unit} {t : Turn}
    (hturn : t = match done with
      | (n, .ok ()) => stepped s n work
      | (n, .error e) => abort n work e)
    (hwalk : s.walk m = Walk.single s done) :
    Follows ⟨m, .statement s :: work⟩ t := by
  subst hturn
  obtain ⟨n, e | _⟩ := done
  · exact failed_follows hwalk
  · have hpos := weight_pos s
    refine ⟨?_, ?_⟩
    · simp only [weight, Work.weightAll, Work.weight]
      omega
    · simp [walk, Work.walkAll, hwalk, Walk.single, Walk.leaving, Walk.andThen]

/-- A statement that comes to one of its branches, or to none. -/
private theorem enter_follows {n : Machine} {branch? : Option Stmt}
    (hwalk : s.walk m = branch?.elim ⟨[], n, .ok ()⟩ fun b => Walk.inChild n b.walk)
    (hweight : ∀ b ∈ branch?, b.weight + 1 < s.weight) :
    Follows ⟨m, .statement s :: work⟩ (enter n work branch?) := by
  have hpos := weight_pos s
  cases branch? with
  | none =>
    refine ⟨?_, ?_⟩
    · simp only [weight, Work.weightAll, Work.weight]
      omega
    · simp [walk, Work.walkAll, hwalk, Walk.leaving, Walk.andThen]
  | some b =>
    have hb := hweight b rfl
    refine ⟨?_, ?_⟩
    · simp only [weight, Work.weightAll, Work.weight]
      omega
    · simp only [walk, Work.walkAll, hwalk, Option.elim]
      exact (Work.walkAll_branch b work n).symm

private theorem branch_follows (condition : Expr) (thenBranch : Stmt) (elseBranch : Option Stmt)
    (span : Span) :
    Follows ⟨m, .statement (.branch condition thenBranch elseBranch span) :: work⟩
      (visit m work (.branch condition thenBranch elseBranch span)) := by
  have hthen : thenBranch.weight + 1 <
      (Stmt.branch condition thenBranch elseBranch span).weight := by
    cases elseBranch <;> rw [Stmt.weight] <;> omega
  have helse : ∀ b ∈ elseBranch,
      b.weight + 1 < (Stmt.branch condition thenBranch elseBranch span).weight := by
    rintro b ⟨⟩
    rw [Stmt.weight]
    omega
  rcases hdecides : m.decides condition with ⟨n, e | taken⟩
  · have hvisit : visit m work (.branch condition thenBranch elseBranch span) = abort n work e := by
      unfold Machine.decides at hdecides
      simp only [visit, hdecides]
    rw [hvisit]
    apply failed_follows
    cases elseBranch <;> rw [Stmt.walk, hdecides]
  · cases taken with
    | true =>
      have hvisit : visit m work (.branch condition thenBranch elseBranch span) =
          enter n work (some thenBranch) := by
        unfold Machine.decides at hdecides
        simp only [visit, hdecides]
      rw [hvisit]
      apply enter_follows
      · cases elseBranch <;> rw [Stmt.walk, hdecides] <;> rfl
      · rintro b ⟨⟩
        exact hthen
    | false =>
      have hvisit : visit m work (.branch condition thenBranch elseBranch span) =
          enter n work elseBranch := by
        unfold Machine.decides at hdecides
        simp only [visit, hdecides]
      rw [hvisit]
      refine enter_follows ?_ helse
      cases elseBranch <;> rw [Stmt.walk, hdecides] <;> rfl

/-- A statement on top of the stack does what the walk over it does. -/
theorem visit_follows (m : Machine) (work : List Work) (s : Stmt) :
    Follows ⟨m, .statement s :: work⟩ (visit m work s) := by
  cases s with
  | compound ss span =>
    refine ⟨?_, ?_⟩
    · simp only [weight, weightAll_append, weightAll_statements, Work.weightAll, Work.weight,
        Stmt.weight]
      omega
    · simp only [walk, Work.walkAll, Stmt.walk, Work.walkAll_statements]
  | branch condition thenBranch elseBranch span => exact branch_follows ..
  | assignment target token value span =>
    refine single_follows ?_ (by rw [Stmt.walk])
    rw [visit]
    obtain ⟨n, e | v⟩ := m.evaluate value <;> rfl
  | moduleCall name arguments span =>
    refine single_follows ?_ (by rw [Stmt.walk])
    rw [visit]
    obtain ⟨n, _ | _ | _⟩ := m.getModule m.current name <;> rfl
  | moduleDef name parameters body span => exact single_follows rfl (by rw [Stmt.walk])
  | functionDef name parameters body span => exact single_follows rfl (by rw [Stmt.walk])
  | expression e span => exact single_follows rfl (by rw [Stmt.walk])

end Visits

/-- Every turn of a runner follows the walk. -/
theorem turn_follows (r : Runner) : r.Follows r.turn := by
  obtain ⟨m, work⟩ := r
  match work with
  | [] => rfl
  | .restore pin :: work =>
    refine ⟨?_, rfl⟩
    simp only [weight, Work.weightAll, Work.weight]
    omega
  | .statement s :: work => exact visit_follows m work s

/-- What the next outcome has to do with the walk that is ahead of the runner. -/
def Yields (r : Runner) : Option (Except EvalError Step) × Runner → Prop
  | (none, next) => next.work = [] ∧ r.walk = ⟨[], next.machine, .ok ()⟩
  | (some (.ok step), next) => r.Follows (.stepped step next)
  | (some (.error e), next) => r.Follows (.failed e next)

/-- A turn without a step changes nothing about what is still to come. -/
theorem Yields.of_silent {r next : Runner} {o : Option (Except EvalError Step) × Runner}
    (hturn : r.Follows (.silent next)) (h : next.Yields o) : r.Yields o := by
  obtain ⟨hless, hwalk⟩ := hturn
  match o, h with
  | (none, _), ⟨hwork, hnext⟩ => exact ⟨hwork, hwalk.trans hnext⟩
  | (some (.ok _), _), ⟨hlater, hnext⟩ => exact ⟨Nat.lt_trans hlater hless, hwalk.trans hnext⟩
  | (some (.error _), _), ⟨hwork, hnext⟩ => exact ⟨hwork, hwalk.trans hnext⟩

theorem work_eq_nil {r : Runner} (h : r.weight = 0) : r.work = [] := by
  obtain ⟨m, work⟩ := r
  match work with
  | [] => rfl
  | .restore pin :: work => simp [weight, Work.weightAll, Work.weight] at h
  | .statement s :: work =>
    have hpos := weight_pos s
    simp only [weight, Work.weightAll, Work.weight] at h
    omega

theorem walk_of_nil {r : Runner} (h : r.work = []) : r.walk = ⟨[], r.machine, .ok ()⟩ := by
  rw [walk, h, Work.walkAll]

/-- As many turns as the work weighs lead to the next outcome or to the end. -/
theorem advance_yields {fuel : Nat} {r : Runner} (h : r.weight ≤ fuel) :
    r.Yields (advance fuel r) := by
  induction fuel generalizing r with
  | zero =>
    have hnil := work_eq_nil (Nat.le_zero.mp h)
    exact ⟨hnil, walk_of_nil hnil⟩
  | succ fuel ih =>
    have hfollows := turn_follows r
    rw [advance]
    cases hturn : r.turn with
    | idle =>
      rw [hturn] at hfollows
      exact ⟨hfollows, walk_of_nil hfollows⟩
    | stepped step next =>
      rw [hturn] at hfollows
      exact hfollows
    | failed e next =>
      rw [hturn] at hfollows
      exact hfollows
    | silent next =>
      rw [hturn] at hfollows
      exact .of_silent hfollows (ih (Nat.le_of_lt_succ (Nat.lt_of_lt_of_le hfollows.1 h)))

theorem next_yields (r : Runner) : r.Yields r.next := advance_yields (Nat.le_refl _)

theorem next_of_nil {r : Runner} (h : r.work = []) : r.next = (none, r) := by
  rw [next, weight, h]
  rfl

/-- As many outcomes as the work weighs are all there are: those of the walk. -/
theorem take_eq {limit : Nat} {r : Runner} (h : r.weight ≤ limit) :
    r.take limit = (r.walk.outcomes, ⟨r.walk.machine, []⟩) := by
  induction limit generalizing r with
  | zero =>
    have hnil := work_eq_nil (Nat.le_zero.mp h)
    rw [walk_of_nil hnil]
    obtain ⟨m, work⟩ := r
    cases hnil
    rfl
  | succ limit ih =>
    have hyields := next_yields r
    rw [take]
    match hnext : r.next, hyields with
    | (none, ⟨m, work⟩), ⟨hwork, hwalk⟩ =>
      cases hwork
      rw [hwalk]
      rfl
    | (some (.ok step), next), ⟨hless, hwalk⟩ =>
      have hlater := ih (r := next) (by omega)
      simp only [hlater, hwalk]
      rfl
    | (some (.error e), ⟨m, work⟩), ⟨hwork, hwalk⟩ =>
      cases hwork
      have hend : take limit ⟨m, []⟩ = ([], ⟨m, []⟩) := ih (Nat.zero_le _)
      simp only [hend, hwalk]
      rfl

end Runner

/-- A new runner has the walk over its statements ahead. -/
theorem Runner.walk_start (m : Machine) (ss : List Stmt) :
    (Runner.start m ss).walk = Stmt.walkAll ss m := by
  have hwork := Work.walkAll_statements ss [] m
  rw [List.append_nil] at hwork
  rw [Runner.walk, Runner.start, hwork]
  obtain ⟨steps, n, e | _⟩ := Stmt.walkAll ss m
  · rfl
  · simp [Walk.leaving, Walk.andThen, Work.walkAll]

theorem Runner.drain_start (m : Machine) (ss : List Stmt) :
    (Runner.start m ss).drain =
      ((Stmt.walkAll ss m).outcomes, ⟨(Stmt.walkAll ss m).machine, []⟩) := by
  rw [Runner.drain, Runner.take_eq (Nat.le_refl _), Runner.walk_start]

theorem Walk.forM_outcomes (w : Walk) : w.outcomes.forM (·.map fun _ => ()) = w.result := by
  obtain ⟨steps, m, result⟩ := w
  induction steps with
  | nil => cases result <;> rfl
  | cons step steps ih => exact ih

theorem Machine.run_eq (m : Machine) (ss : List Stmt) :
    m.run ss = ((Stmt.walkAll ss m).machine, (Stmt.walkAll ss m).result) := by
  rw [Machine.run, Runner.drain_start]
  exact congrArg _ (Walk.forM_outcomes _)

/-- The runner with its stack of work does what the direct walk does: the same steps up to the same
error, and the same machine at the end. Then the pin and the stack of scopes are as they were
before, also if a statement has failed inside of branches, and nothing more comes. -/
theorem Runner.drain_eq_walk (m : Machine) (ss : List Stmt) :
    (Runner.start m ss).drain = ((Stmt.walkAll ss m).outcomes, ⟨(Stmt.walkAll ss m).machine, []⟩) ∧
      m.run ss = ((Stmt.walkAll ss m).machine, (Stmt.walkAll ss m).result) ∧
      (Runner.start m ss).drain.2.machine.pin = m.pin ∧
      (Runner.start m ss).drain.2.machine.stack = m.stack ∧
      (Runner.start m ss).drain.2.next = (none, (Runner.start m ss).drain.2) ∧
      ∀ (r after : Runner) (e : EvalError), r.next = (some (.error e), after) →
        after.next = (none, after) := by
  have hdrain : (Runner.start m ss).drain =
      ((Stmt.walkAll ss m).outcomes, ⟨(Stmt.walkAll ss m).machine, []⟩) := by
    rw [Runner.drain, Runner.take_eq (Nat.le_refl _), Runner.walk_start]
  have hkeeps := Stmt.walkAll_keeps ss m
  refine ⟨hdrain, ?_, ?_, ?_, ?_, ?_⟩
  · rw [Machine.run, hdrain]
    exact congrArg _ (Walk.forM_outcomes _)
  · rw [hdrain]
    exact hkeeps.pin
  · rw [hdrain]
    exact hkeeps.stack
  · rw [hdrain]
    exact Runner.next_of_nil rfl
  · intro r after e hnext
    have hyields := r.next_yields
    rw [hnext] at hyields
    exact Runner.next_of_nil hyields.1

/-- A branch that fails at a module that nobody has defined leaves no pin behind. -/
theorem Runner.drain_eq_walk_failure :
    ((Machine.new ⟨[], []⟩).run [.branch
        (.literal (.boolean true) (Lexeme.token ⟨.keyword, "true"⟩))
        (.moduleCall "unknown" [] .origin) none .origin]).2 =
        .error ⟨.notImplemented .module "unknown", some .origin⟩ ∧
      (Runner.start (Machine.new ⟨[], []⟩) [.branch
        (.literal (.boolean true) (Lexeme.token ⟨.keyword, "true"⟩))
        (.moduleCall "unknown" [] .origin) none .origin]).drain.2.machine.pin = none :=
  ⟨rfl, (Runner.drain_eq_walk _ _).2.2.1⟩

end SolidScript
