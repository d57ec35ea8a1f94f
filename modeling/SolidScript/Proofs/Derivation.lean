import SolidScript.Derivation.Statements

namespace SolidScript.Derivation

theorem bind_eq_ok_iff {ε α β : Type} {x : Except ε α} {f : α → Except ε β} {b : β} :
    x >>= f = .ok b ↔ ∃ a, x = .ok a ∧ f a = .ok b := by
  cases x with
  | error e => exact ⟨nofun, fun ⟨_, h, _⟩ => nomatch h⟩
  | ok a => exact ⟨fun h => ⟨a, rfl, h⟩, fun ⟨_, h, hf⟩ => Except.ok.inj h ▸ hf⟩

attribute [local simp] statements statementsAll

variable {d : Derivation} {ds es : List Derivation} {ss ts : List Stmt}

theorem statementsAll_cons_eq_ok_iff :
    statementsAll (d :: ds) = .ok ss ↔ ∃ first rest, d.statements = .ok first ∧
      statementsAll ds = .ok rest ∧ ss = first ++ rest := by
  rw [statementsAll, bind_eq_ok_iff]
  constructor
  · rintro ⟨first, hfirst, hmore⟩
    obtain ⟨rest, hrest, hpure⟩ := bind_eq_ok_iff.mp hmore
    exact ⟨first, rest, hfirst, hrest, (Except.ok.inj hpure).symm⟩
  · rintro ⟨first, rest, hfirst, hrest, rfl⟩
    exact ⟨first, hfirst, bind_eq_ok_iff.mpr ⟨rest, hrest, rfl⟩⟩

theorem statements_sequence (ds : List Derivation) :
    (sequence ds).statements = statementsAll ds := by
  rw [statements]

theorem statementsAll_nil : statementsAll [] = .ok [] := by
  rw [statementsAll]

theorem statementsAll_cons (d : Derivation) (ds : List Derivation) :
    statementsAll (d :: ds) = do return (← d.statements) ++ (← statementsAll ds) := by
  rw [statementsAll]

theorem statementsAll_singleton (d : Derivation) : statementsAll [d] = d.statements := by
  rw [statementsAll_cons, statementsAll_nil]
  cases d.statements with
  | error e => rfl
  | ok ss => exact congrArg Except.ok (List.append_nil ss)

/-- The first part of a sequence comes first, also with what it blames. -/
theorem statementsAll_join (ds es : List Derivation) :
    statementsAll (ds ++ es) = do return (← statementsAll ds) ++ (← statementsAll es) := by
  induction ds with
  | nil =>
    rw [List.nil_append, statementsAll_nil]
    cases statementsAll es with
    | error e => rfl
    | ok ss => rfl
  | cons d ds ih =>
    rw [List.cons_append, statementsAll_cons, statementsAll_cons, ih]
    simp only [bind_assoc, pure_bind, List.append_assoc]

theorem statementsAll_append (hds : statementsAll ds = .ok ss) (hes : statementsAll es = .ok ts) :
    statementsAll (ds ++ es) = .ok (ss ++ ts) := by
  rw [statementsAll_join, hds, hes]
  rfl

/-- A terminator adds nothing. -/
theorem statements_terminated {last : Token}
    (h : (sequence [d, .terminator last]).statements = .ok ss) : d.statements = .ok ss := by
  have hlast : statementsAll [terminator last] = .ok [] := by
    rw [statementsAll, statements, statementsAll]
    rfl
  rw [statements] at h
  obtain ⟨first, rest, hfirst, hrest, rfl⟩ := statementsAll_cons_eq_ok_iff.mp h
  rw [hlast] at hrest
  obtain rfl := Except.ok.inj hrest
  rw [hfirst, List.append_nil]

theorem statements_of_not_identifier {target : Expr} (h : ∀ name t, target ≠ .identifier name t)
    (token : Token) (value : Expr) (span : Span) :
    (assignment target token value span).statements = .error (.invalidTarget token) := by
  cases target with
  | identifier name t => exact absurd rfl (h name t)
  | _ => simp

/-- Only a name can be assigned to. -/
theorem identifier_of_statements {target value : Expr} {token : Token} {span : Span}
    (h : (assignment target token value span).statements = .ok ss) :
    ∃ name t, target = .identifier name t ∧ ss = [.assignment name t value span] := by
  by_cases hname : ∃ name t, target = .identifier name t
  · obtain ⟨name, t, rfl⟩ := hname
    rw [statements] at h
    exact ⟨name, t, rfl, (Except.ok.inj h).symm⟩
  · rw [statements_of_not_identifier (by simpa using hname)] at h
    cases h

theorem statements_branch {elseBranch : Derivation} (h : elseBranch ≠ .absent) (condition : Expr)
    (thenBranch : Derivation) (span : Span) :
    (branch condition thenBranch elseBranch span).statements = (do
      let other ← elseBranch.statements
      let taken ← thenBranch.statements
      return [.branch condition (Stmt.join (thenBranch.span?.getD span) taken)
        (some (Stmt.join (elseBranch.span?.getD span) other)) span]) := by
  rw [statements]
  exact h

section Inside

variable {condition : Expr} {body thenBranch elseBranch : Derivation} {span : Span}

theorem inside_compound (h : (compound (.sequence ds) span).statements = .ok ss) :
    ∃ inner, statementsAll ds = .ok inner ∧ ss = [.compound inner span] := by
  rw [statements, statements] at h
  obtain ⟨inner, hinner, hpure⟩ := bind_eq_ok_iff.mp h
  exact ⟨inner, hinner, (Except.ok.inj hpure).symm⟩

theorem inside_branch (h : (branch condition thenBranch .absent span).statements = .ok ss) :
    ∃ taken, thenBranch.statements = .ok taken ∧
      ss = [.branch condition (Stmt.join (thenBranch.span?.getD span) taken) none span] := by
  rw [statements] at h
  obtain ⟨taken, htaken, hpure⟩ := bind_eq_ok_iff.mp h
  exact ⟨taken, htaken, (Except.ok.inj hpure).symm⟩

theorem inside_branches (habsent : elseBranch ≠ .absent)
    (h : (branch condition thenBranch elseBranch span).statements = .ok ss) :
    ∃ taken other, thenBranch.statements = .ok taken ∧ elseBranch.statements = .ok other ∧
      ss = [.branch condition (Stmt.join (thenBranch.span?.getD span) taken)
        (some (Stmt.join (elseBranch.span?.getD span) other)) span] := by
  rw [statements_branch habsent] at h
  obtain ⟨other, hother, hmore⟩ := bind_eq_ok_iff.mp h
  obtain ⟨taken, htaken, hpure⟩ := bind_eq_ok_iff.mp hmore
  exact ⟨taken, other, htaken, hother, (Except.ok.inj hpure).symm⟩

theorem inside_moduleDef {name : String} {parameters : List Parameter}
    (h : (moduleDef name parameters body span).statements = .ok ss) :
    ∃ inner, body.statements = .ok inner ∧
      ss = [.moduleDef name parameters (Stmt.join (body.span?.getD span) inner) span] := by
  rw [statements] at h
  obtain ⟨inner, hinner, hpure⟩ := bind_eq_ok_iff.mp h
  exact ⟨inner, hinner, (Except.ok.inj hpure).symm⟩

end Inside

end SolidScript.Derivation
