import SolidScript.Proofs.Machine.Isolation

namespace SolidScript

/-- A turn with more work behind it. A failure drops that too. -/
def Turn.onto (tail : List Work) : Turn → Turn
  | .idle => .idle
  | .silent next => .silent ⟨next.machine, next.work ++ tail⟩
  | .stepped step next => .stepped step ⟨next.machine, next.work ++ tail⟩
  | .failed e next => .failed e next

namespace Runner

variable {m : Machine} {r next : Runner} {ss ts : List Stmt}

theorem abort_onto (m : Machine) (work : List Work) (e : EvalError) (ss : List Stmt) :
    abort m (work ++ ss.map .statement) e = (abort m work e).onto (ss.map .statement) := by
  have hnone (n : Machine) : unwind (ss.map .statement) n = n := by
    simpa using unwind_statements ss [] n
  rw [abort_eq, abort_eq, unwind_append, hnone]
  rfl

theorem enter_onto (m : Machine) (work : List Work) (branch? : Option Stmt) (tail : List Work) :
    enter m (work ++ tail) branch? = (enter m work branch?).onto tail := by
  cases branch? <;> rfl

theorem visit_onto (m : Machine) (work : List Work) (s : Stmt) (ss : List Stmt) :
    visit m (work ++ ss.map .statement) s = (visit m work s).onto (ss.map .statement) := by
  cases s with
  | compound body span => simp [visit, Turn.onto]
  | branch condition a b span =>
    simp only [visit]
    split
    · exact enter_onto ..
    · exact enter_onto ..
    · exact abort_onto ..
  | assignment target token value span =>
    simp only [visit]
    split
    · rfl
    · exact abort_onto ..
  | moduleCall name arguments span =>
    simp only [visit]
    split
    · rfl
    · exact abort_onto ..
  | _ => rfl

/-- What is behind the work does not matter to a turn. -/
theorem turn_onto (m : Machine) {work : List Work} (hwork : work ≠ []) (ss : List Stmt) :
    (Runner.mk m (work ++ ss.map .statement)).turn =
      (Runner.mk m work).turn.onto (ss.map .statement) := by
  match work with
  | [] => exact absurd rfl hwork
  | .restore pin :: work => rfl
  | .statement s :: work => exact visit_onto m work s ss

/-- A turn goes on with what the runner has ahead, or drops it. -/
theorem Turns.walk_cases (h : r.Turns next) :
    (r.walk.machine, r.walk.result) = (next.walk.machine, next.walk.result) ∨ next.work = [] := by
  have hfollows := r.turn_follows
  rw [Turns] at h
  generalize r.turn = turn at h hfollows
  cases turn with
  | idle => cases h
  | silent later =>
    cases h
    rw [hfollows.2]
    exact .inl rfl
  | stepped step later =>
    cases h
    rw [hfollows.2]
    exact .inl rfl
  | failed e later =>
    cases h
    exact .inr hfollows.1

/-- As long as there is work left, the runner has that ahead which the run comes to. -/
theorem run_of_goes (h : (start m ss).Goes r) (hwork : r.work ≠ []) :
    m.run ss = (r.walk.machine, r.walk.result) := by
  refine h.invariant (P := fun r => r.work ≠ [] → m.run ss = (r.walk.machine, r.walk.result))
    (fun _ => ?_) (fun before after hturn hbefore hafter => ?_) hwork
  · rw [walk_start, Machine.run_eq]
  · obtain hon | hnil := hturn.walk_cases
    · exact (hbefore hturn.work_ne_nil).trans hon
    · exact absurd hnil hafter

/-- Where a runner over two lists of statements is: before the seam between them, behind it, or at
the end since the first ones have failed. -/
inductive Stage (m : Machine) (ss ts : List Stmt) : Runner → Prop
  | first {n : Machine} {work : List Work} (hwork : work ≠ [])
    (hgoes : (start m ss).Goes ⟨n, work⟩) : Stage m ss ts ⟨n, work ++ ts.map .statement⟩
  | second {r : Runner} (hok : (m.run ss).2 = .ok ())
    (hseam : (start m (ss ++ ts)).Goes (start (m.run ss).1 ts))
    (hgoes : (start (m.run ss).1 ts).Goes r) : Stage m ss ts r
  | failed {n : Machine} {e : EvalError} (herror : (m.run ss).2 = .error e)
    (hboth : (m.run (ss ++ ts)).2 = .error e) : Stage m ss ts ⟨n, []⟩

theorem stage_start (m : Machine) (ss ts : List Stmt) : Stage m ss ts (start m (ss ++ ts)) := by
  cases ss with
  | nil => exact .second rfl .refl .refl
  | cons s ss =>
    rw [start, List.map_append]
    exact .first (List.cons_ne_nil _ _) .refl

/-- The first statements are under way, or they have just been done with. -/
theorem stage_of_goes (hgoes : (start m ss).Goes r)
    (hrun : m.run ss = (r.walk.machine, r.walk.result))
    (hboth : (start m (ss ++ ts)).Goes ⟨r.machine, r.work ++ ts.map .statement⟩) :
    Stage m ss ts ⟨r.machine, r.work ++ ts.map .statement⟩ := by
  by_cases hwork : r.work = []
  · rw [walk_of_nil hwork] at hrun
    have hseam : Runner.mk r.machine (r.work ++ ts.map .statement) = start (m.run ss).1 ts := by
      rw [hrun, hwork]
      rfl
    rw [hseam] at hboth ⊢
    exact .second (by rw [hrun]) hboth .refl
  · exact .first hwork hgoes

theorem Stage.turns (h : Stage m ss ts r) (hgoes : (start m (ss ++ ts)).Goes r)
    (hturn : r.Turns next) : Stage m ss ts next := by
  cases h with
  | @first n work hwork hfirst =>
    have hboth := hgoes.tail hturn
    have hrun := run_of_goes hfirst hwork
    have hfollows := (Runner.mk n work).turn_follows
    rw [Turns, turn_onto n hwork] at hturn
    cases hcase : (Runner.mk n work).turn with
    | idle =>
      rw [hcase] at hturn
      cases hturn
    | silent later =>
      rw [hcase] at hturn hfollows
      cases hturn
      rw [hfollows.2] at hrun
      exact stage_of_goes (hfirst.tail (congrArg Turn.next? hcase)) hrun hboth
    | stepped step later =>
      rw [hcase] at hturn hfollows
      cases hturn
      rw [hfollows.2] at hrun
      exact stage_of_goes (hfirst.tail (congrArg Turn.next? hcase)) hrun hboth
    | failed e later =>
      have hall := run_of_goes hgoes (by simp [hwork])
      have hthrough := (Runner.mk n (work ++ ts.map .statement)).turn_follows
      rw [turn_onto n hwork, hcase] at hthrough
      rw [hcase] at hturn hfollows
      cases hturn
      obtain ⟨n', work'⟩ := next
      obtain ⟨rfl, hwalk⟩ := hfollows
      rw [hwalk] at hrun
      rw [hthrough.2] at hall
      exact .failed (congrArg Prod.snd hrun) (congrArg Prod.snd hall)
  | second hok hseam hsecond => exact .second hok hseam (hsecond.tail hturn)
  | failed => exact absurd rfl hturn.work_ne_nil

/-- A runner over two lists of statements is always in one of the stages. -/
theorem Goes.stage (h : (start m (ss ++ ts)).Goes r) : Stage m ss ts r := by
  induction h with
  | refl => exact stage_start m ss ts
  | tail hgoes hturn ih => exact ih.turns hgoes hturn

end Runner

end SolidScript
