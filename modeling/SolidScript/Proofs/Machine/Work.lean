import SolidScript.Proofs.Machine.Walk

namespace SolidScript

namespace Runner

/-- Leaves all open branches. -/
def unwind (work : List Work) (m : Machine) : Machine :=
  match outermost? work with
  | some pin => m.setPin pin
  | none => m

@[simp] theorem unwind_nil (m : Machine) : unwind [] m = m := rfl

@[simp] theorem unwind_statement (s : Stmt) (work : List Work) (m : Machine) :
    unwind (.statement s :: work) m = unwind work m := rfl

/-- A pin that is put back inside another branch does not last. -/
@[simp] theorem unwind_restore (pin : Option ScopeId) (work : List Work) (m : Machine) :
    unwind (.restore pin :: work) m = unwind work (m.setPin pin) := by
  have houter : outermost? (.restore pin :: work) = some ((outermost? work).getD pin) := by
    simp [outermost?, List.getLast?_cons]
  rw [unwind, unwind, houter]
  cases outermost? work <;> rfl

@[simp] theorem unwind_statements (ss : List Stmt) (work : List Work) (m : Machine) :
    unwind (ss.map .statement ++ work) m = unwind work m := by
  induction ss with
  | nil => rfl
  | cons s ss ih => exact ih

theorem abort_eq (m : Machine) (work : List Work) (e : EvalError) :
    abort m work e = .failed e ⟨unwind work m, []⟩ := by
  rw [abort, unwind]
  cases outermost? work <;> rfl

end Runner

namespace Walk

/-- If the walk failed, all open branches are left. -/
def leaving (w : Walk) (work : List Work) : Walk :=
  match w.result with
  | .ok () => w
  | .error _ => { w with machine := Runner.unwind work w.machine }

theorem andThen_assoc (w : Walk) (f g : Machine → Walk) :
    (w.andThen f).andThen g = w.andThen fun m => (f m).andThen g := by
  obtain ⟨steps, m, e | _⟩ := w
  · rfl
  · simp only [andThen]
    cases hresult : (f m).result <;> simp [hresult]

theorem leaving_andThen (w : Walk) (f : Machine → Walk) (work : List Work) :
    (w.andThen f).leaving work = (w.leaving work).andThen fun m => (f m).leaving work := by
  obtain ⟨steps, m, e | _⟩ := w
  · rfl
  · simp only [andThen, leaving]
    cases hresult : (f m).result <;> simp [hresult]

theorem leaving_statements (w : Walk) (ss : List Stmt) (work : List Work) :
    w.leaving (ss.map .statement ++ work) = w.leaving work := by
  simp only [leaving, Runner.unwind_statements]

end Walk

/-- The direct walk over a stack of work. -/
def Work.walkAll : List Work → Machine → Walk
  | [], m => ⟨[], m, .ok ()⟩
  | .restore pin :: work, m => Work.walkAll work (m.setPin pin)
  | .statement s :: work, m => ((s.walk m).leaving work).andThen (Work.walkAll work)

/-- Statements on the stack are walked over like a list of them. -/
theorem Work.walkAll_statements (ss : List Stmt) (work : List Work) (m : Machine) :
    Work.walkAll (ss.map .statement ++ work) m =
      ((Stmt.walkAll ss m).leaving work).andThen (Work.walkAll work) := by
  induction ss generalizing m with
  | nil => simp [Stmt.walkAll, Walk.leaving, Walk.andThen]
  | cons s ss ih =>
    have hrest : Work.walkAll (ss.map .statement ++ work) =
        fun m => ((Stmt.walkAll ss m).leaving work).andThen (Work.walkAll work) := funext ih
    rw [List.map_cons, List.cons_append, Work.walkAll, Walk.leaving_statements, hrest, Stmt.walkAll,
      Walk.leaving_andThen, Walk.andThen_assoc]

/-- A branch on the stack, with the pin behind it, is walked over like a branch. -/
theorem Work.walkAll_branch (s : Stmt) (work : List Work) (m : Machine) :
    Work.walkAll (.statement s :: .restore m.pin :: work)
        (m.childScope.1.setPin (some m.childScope.2)) =
      ((Walk.inChild m s.walk).leaving work).andThen (Work.walkAll work) := by
  simp only [Work.walkAll, Walk.inChild]
  obtain ⟨steps, n, e | _⟩ := s.walk (m.childScope.1.setPin (some m.childScope.2))
  · simp [Walk.leaving, Walk.andThen]
  · simp [Walk.leaving, Walk.andThen]

namespace Runner

theorem weight_pos (s : Stmt) : 0 < s.weight := by
  cases s with
  | compound ss span => rw [Stmt.weight]; omega
  | branch condition thenBranch elseBranch span => cases elseBranch <;> rw [Stmt.weight] <;> omega
  | _ => simp [Stmt.weight]

theorem weightAll_append (first second : List Work) :
    Work.weightAll (first ++ second) = Work.weightAll first + Work.weightAll second := by
  induction first with
  | nil => simp [Work.weightAll]
  | cons w first ih => simp only [List.cons_append, Work.weightAll, ih]; omega

theorem weightAll_statements (ss : List Stmt) :
    Work.weightAll (ss.map .statement) = Stmt.weightAll ss := by
  induction ss with
  | nil => simp [Work.weightAll, Stmt.weightAll]
  | cons s ss ih => simp only [List.map_cons, Work.weightAll, Work.weight, Stmt.weightAll, ih]

end Runner

end SolidScript
