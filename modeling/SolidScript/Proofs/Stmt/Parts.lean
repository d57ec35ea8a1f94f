import SolidScript.Proofs.Evaluation
import SolidScript.Settings

namespace SolidScript

mutual

/-- A statement and the statements inside of it: in braces and in branches, and, if `deep`, in the
bodies of modules. -/
def Stmt.parts (deep : Bool) : Stmt → List Stmt
  | .assignment target token value span => [.assignment target token value span]
  | .moduleCall name arguments span => [.moduleCall name arguments span]
  | .moduleDef name parameters body span =>
    .moduleDef name parameters body span :: if deep then body.parts deep else []
  | .functionDef name parameters body span => [.functionDef name parameters body span]
  | .branch condition thenBranch none span =>
    .branch condition thenBranch none span :: thenBranch.parts deep
  | .branch condition thenBranch (some elseBranch) span =>
    .branch condition thenBranch (some elseBranch) span ::
      (thenBranch.parts deep ++ elseBranch.parts deep)
  | .compound statements span => .compound statements span :: Stmt.partsAll deep statements
  | .expression expr span => [.expression expr span]

/-- Statements and the statements inside of them. -/
def Stmt.partsAll (deep : Bool) : List Stmt → List Stmt
  | [] => []
  | s :: ss => s.parts deep ++ Stmt.partsAll deep ss

end

namespace Stmt

/-- The expressions of a statement, but not those of the statements inside of it. -/
def expressions : Stmt → List Expr
  | .assignment _ _ value _ => value.parts
  | .moduleCall _ arguments _ => Argument.partsAll arguments
  | .moduleDef _ parameters _ _ => Expr.partsAll (parameters.filterMap Parameter.default?)
  | .functionDef _ parameters body _ =>
    Expr.partsAll (parameters.filterMap Parameter.default?) ++ body.parts
  | .branch condition _ _ _ => condition.parts
  | .compound .. => []
  | .expression expr _ => expr.parts

/-- The name of the module that is called, if the statement is a call. -/
def callee? : Stmt → Option String
  | .moduleCall name _ _ => some name
  | _ => none

variable {deep : Bool} {s : Stmt} {ss : List Stmt}

theorem self_mem_parts (deep : Bool) (s : Stmt) : s ∈ s.parts deep := by
  cases s with
  | branch condition thenBranch elseBranch span => cases elseBranch <;> simp [parts]
  | _ => simp [parts]

theorem parts_subset_partsAll (h : s ∈ ss) : s.parts deep ⊆ partsAll deep ss := by
  induction ss with
  | nil => cases h
  | cons t ss ih =>
    rw [partsAll]
    obtain rfl | h := List.mem_cons.mp h
    · exact List.subset_append_left _ _
    · exact fun _ hp => List.mem_append_right _ (ih h hp)

theorem parts_subset_compound (h : s ∈ ss) (span : Span) :
    s.parts deep ⊆ (compound ss span).parts deep := by
  rw [parts]
  exact fun _ hp => List.mem_cons_of_mem _ (parts_subset_partsAll h hp)

theorem parts_subset_branch {condition : Expr} {a : Stmt} {b : Option Stmt} {span : Span}
    (h : s = a ∨ b = some s) : s.parts deep ⊆ (branch condition a b span).parts deep := by
  intro t ht
  cases b with
  | none =>
    obtain rfl | h := h
    · rw [parts]
      exact List.mem_cons_of_mem _ ht
    · cases h
  | some other =>
    rw [parts]
    refine List.mem_cons_of_mem _ (List.mem_append.mpr ?_)
    obtain rfl | h := h
    · exact .inl ht
    · obtain rfl := Option.some.inj h
      exact .inr ht

end Stmt

/-- Whether a program defines a function of the name, at any depth. -/
def DefinesFunction (program : List Stmt) (name : String) : Prop :=
  ∃ s ∈ Stmt.partsAll true program, s.declares? = some (.function, name)

/-- A program that stays within what can be run: it has no ranges; outside of modules it calls only
modules that the settings list, and it defines none of their names anew; and it calls none of its
own functions. -/
structure WellBehaved (settings : Settings) (program : List Stmt) : Prop where
  ranges : ∀ s ∈ Stmt.partsAll true program, ∀ e ∈ s.expressions, e.isRange = false
  calls : ∀ s ∈ Stmt.partsAll false program, ∀ name ∈ s.callee?,
    ∃ b ∈ settings.builtins, b.name = name
  modules : ∀ s ∈ Stmt.partsAll true program, ∀ b ∈ settings.builtins,
    s.declares? ≠ some (.module, b.name)
  functions : ∀ s ∈ Stmt.partsAll true program, ∀ e ∈ s.expressions, ∀ name ∈ e.callee?,
    ¬DefinesFunction program name

instance (program : List Stmt) (name : String) : Decidable (DefinesFunction program name) :=
  inferInstanceAs (Decidable (∃ s ∈ Stmt.partsAll true program,
    s.declares? = some (.function, name)))

instance (settings : Settings) (program : List Stmt) : Decidable (WellBehaved settings program) :=
  decidable_of_iff
    ((∀ s ∈ Stmt.partsAll true program, ∀ e ∈ s.expressions, e.isRange = false) ∧
      (∀ s ∈ Stmt.partsAll false program, ∀ name ∈ s.callee?,
        ∃ b ∈ settings.builtins, b.name = name) ∧
      (∀ s ∈ Stmt.partsAll true program, ∀ b ∈ settings.builtins,
        s.declares? ≠ some (.module, b.name)) ∧
      ∀ s ∈ Stmt.partsAll true program, ∀ e ∈ s.expressions, ∀ name ∈ e.callee?,
        ¬DefinesFunction program name)
    ⟨fun ⟨ranges, calls, modules, functions⟩ => ⟨ranges, calls, modules, functions⟩,
      fun h => ⟨h.ranges, h.calls, h.modules, h.functions⟩⟩

/-- The expressions of a program that stays within what can be run. -/
theorem WellBehaved.tame {settings : Settings} {program : List Stmt} {s : Stmt}
    (h : WellBehaved settings program) (hs : s ∈ Stmt.partsAll true program) :
    Expr.Tame (DefinesFunction program) s.expressions :=
  fun e he => ⟨h.ranges s hs e he, h.functions s hs e he⟩

end SolidScript
