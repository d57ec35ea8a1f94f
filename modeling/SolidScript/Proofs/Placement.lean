import SolidScript.Proofs.Derivation
import SolidScript.Proofs.Expr.Places

namespace SolidScript

/-- A parameter without any places. -/
def Parameter.placeless (p : Parameter) : Parameter := ⟨p.name, p.default?.map Expr.placeless⟩

mutual

/-- The statement without any places. -/
def Stmt.placeless : Stmt → Stmt
  | .assignment target token value _ =>
    .assignment target token.placeless value.placeless .origin
  | .moduleCall name arguments _ => .moduleCall name (arguments.map Argument.placeless) .origin
  | .moduleDef name parameters body _ =>
    .moduleDef name (parameters.map Parameter.placeless) body.placeless .origin
  | .functionDef name parameters body _ =>
    .functionDef name (parameters.map Parameter.placeless) body.placeless .origin
  | .branch condition thenBranch none _ =>
    .branch condition.placeless thenBranch.placeless none .origin
  | .branch condition thenBranch (some elseBranch) _ =>
    .branch condition.placeless thenBranch.placeless (some elseBranch.placeless) .origin
  | .compound statements _ => .compound (Stmt.placelessAll statements) .origin
  | .expression expr _ => .expression expr.placeless .origin

/-- Statements without any places. -/
def Stmt.placelessAll : List Stmt → List Stmt
  | [] => []
  | s :: ss => s.placeless :: Stmt.placelessAll ss

end

@[simp] theorem Stmt.placelessAll_eq (ss : List Stmt) :
    Stmt.placelessAll ss = ss.map Stmt.placeless := by
  induction ss with
  | nil => rfl
  | cons s ss ih => rw [Stmt.placelessAll, ih, List.map_cons]

mutual

/-- The derivation tree without any places. -/
def Derivation.placeless : Derivation → Derivation
  | .sequence items => .sequence (Derivation.placelessAll items)
  | .terminator token => .terminator token.placeless
  | .absent => .absent
  | .expression expr _ => .expression expr.placeless .origin
  | .assignment target token value _ =>
    .assignment target.placeless token.placeless value.placeless .origin
  | .moduleCall name arguments _ => .moduleCall name (arguments.map Argument.placeless) .origin
  | .branch condition thenBranch elseBranch _ =>
    .branch condition.placeless thenBranch.placeless elseBranch.placeless .origin
  | .compound body _ => .compound body.placeless .origin
  | .moduleDef name parameters body _ =>
    .moduleDef name (parameters.map Parameter.placeless) body.placeless .origin
  | .functionDef name parameters body _ =>
    .functionDef name (parameters.map Parameter.placeless) body.placeless .origin

/-- Derivation trees without any places. -/
def Derivation.placelessAll : List Derivation → List Derivation
  | [] => []
  | d :: ds => d.placeless :: Derivation.placelessAll ds

end

@[simp] theorem Derivation.placelessAll_eq (ds : List Derivation) :
    Derivation.placelessAll ds = ds.map Derivation.placeless := by
  induction ds with
  | nil => rfl
  | cons d ds ih => rw [Derivation.placelessAll, ih, List.map_cons]

/-- The error without any places. -/
def ParseError.placeless : ParseError → ParseError
  | .unexpectedEnd _ => .unexpectedEnd 0
  | .ambiguous derivations token => .ambiguous derivations token.placeless
  | .unexpectedToken token => .unexpectedToken token.placeless
  | .invalidTarget token => .invalidTarget token.placeless

namespace Stmt

@[simp] theorem declares?_placeless (s : Stmt) : s.placeless.declares? = s.declares? := by
  cases s with
  | branch condition thenBranch elseBranch span =>
    cases elseBranch <;> simp only [placeless, declares?]
  | _ => simp only [placeless, declares?]

theorem settle_placeless (s : Stmt) (ss : List Stmt) :
    (settle s ss).map placeless = settle s.placeless (ss.map placeless) := by
  induction ss with
  | nil => rfl
  | cons t ts ih =>
    have hsame : s.placeless.redeclares t.placeless = s.redeclares t := by simp [redeclares]
    by_cases hredeclares : s.redeclares t
    · simp [settle, hsame, hredeclares]
    · simp [settle, hsame, hredeclares, ih]

theorem hoist_placeless (ss : List Stmt) :
    (hoist ss).map placeless = hoist (ss.map placeless) := by
  have hfold (done : List Stmt) :
      (ss.foldl (fun done s => settle s done) done).map placeless =
        (ss.map placeless).foldl (fun done s => settle s done) (done.map placeless) := by
    induction ss generalizing done with
    | nil => rfl
    | cons s ss ih => rw [List.foldl_cons, ih, settle_placeless, List.map_cons, List.foldl_cons]
  exact hfold []

/-- Whether statements are joined depends on their number only. -/
theorem join_placeless {ss ts : List Stmt} (h : ss.map placeless = ts.map placeless)
    (a b : Span) : (join a ss).placeless = (join b ts).placeless := by
  match ss, ts, h with
  | [], [], _ => rfl
  | [s], [t], h => exact (List.cons.inj h).1
  | s :: s' :: ss, t :: t' :: ts, h => simp [join, placeless, h]
  | [s], t :: t' :: ts, h => cases (List.cons.inj h).2
  | s :: s' :: ss, [t], h => cases (List.cons.inj h).2

end Stmt

namespace Derivation

/-- What comes of drawing statements from a tree, without any places. -/
def placelessResult : Except ParseError (List Stmt) → Except ParseError (List Stmt)
  | .ok ss => .ok (ss.map Stmt.placeless)
  | .error e => .error e.placeless

theorem placelessResult_bind {a b : Except ParseError (List Stmt)}
    {f g : List Stmt → Except ParseError (List Stmt)} (h : placelessResult a = placelessResult b)
    (hf : ∀ ss ts, ss.map Stmt.placeless = ts.map Stmt.placeless →
      placelessResult (f ss) = placelessResult (g ts)) :
    placelessResult (a >>= f) = placelessResult (b >>= g) := by
  cases a with
  | error e =>
    cases b with
    | error e' => exact h
    | ok ts => cases h
  | ok ss =>
    cases b with
    | error e => cases h
    | ok ts => exact hf ss ts (Except.ok.inj h)

theorem placelessResult_pure {ss ts : List Stmt}
    (h : ss.map Stmt.placeless = ts.map Stmt.placeless) :
    placelessResult (pure ss) = placelessResult (pure ts) :=
  congrArg Except.ok h

theorem statements_assignment_placeless {target target' value value' : Expr} {token token' : Token}
    (span span' : Span) (htarget : target.placeless = target'.placeless)
    (htoken : token.placeless = token'.placeless) (hvalue : value.placeless = value'.placeless) :
    placelessResult (assignment target token value span).statements =
      placelessResult (assignment target' token' value' span').statements := by
  by_cases hname : ∃ name t, target = .identifier name t
  · obtain ⟨name, t, rfl⟩ := hname
    cases target' <;> simp [Expr.mapTokens] at htarget
    simp [statements, placelessResult, Stmt.placeless, htarget, hvalue]
  · have hname' : ∀ name t, target' ≠ .identifier name t := by
      rintro name t rfl
      cases target <;> simp [Expr.mapTokens] at htarget
      exact hname ⟨_, _, rfl⟩
    rw [statements_of_not_identifier (by simpa using hname), statements_of_not_identifier hname']
    simp [placelessResult, ParseError.placeless, htoken]

theorem eq_absent_of_placeless {d : Derivation} (h : d.placeless = .absent) : d = .absent := by
  cases d <;> simp [placeless] at h
  rfl

mutual

theorem statements_placeless : (d e : Derivation) → d.placeless = e.placeless →
    placelessResult d.statements = placelessResult e.statements
  | .sequence items, e, h => by
    cases e <;> simp [placeless] at h
    rw [statements, statements]
    exact statementsAll_placeless _ _ h
  | .terminator token, e, h => by
    cases e <;> simp [placeless] at h
    rfl
  | .absent, e, h => by
    cases e <;> simp [placeless] at h
    rfl
  | .expression expr span, e, h => by
    cases e <;> simp [placeless] at h
    simp [statements, placelessResult, Stmt.placeless, h]
  | .assignment target token value span, e, h => by
    cases e <;> simp [placeless] at h
    exact statements_assignment_placeless span _ h.1 h.2.1 h.2.2
  | .moduleCall name arguments span, e, h => by
    cases e <;> simp [placeless] at h
    simp [statements, placelessResult, Stmt.placeless, h]
  | .branch condition thenBranch elseBranch span, e, h => by
    cases e with
    | branch condition' thenBranch' elseBranch' span' =>
      simp only [placeless, branch.injEq, and_true] at h
      obtain ⟨hcondition, hthen, helse⟩ := h
      by_cases habsent : elseBranch = .absent
      · subst habsent
        obtain rfl := eq_absent_of_placeless helse.symm
        rw [statements, statements]
        refine placelessResult_bind (statements_placeless thenBranch _ hthen) fun ss ts hss => ?_
        have htaken := Stmt.join_placeless hss (thenBranch.span?.getD span)
          (thenBranch'.span?.getD span')
        exact placelessResult_pure (by simp [Stmt.placeless, hcondition, htaken])
      · have habsent' : elseBranch' ≠ .absent := by
          rintro rfl
          exact habsent (eq_absent_of_placeless helse)
        rw [statements_branch habsent, statements_branch habsent']
        refine placelessResult_bind (statements_placeless elseBranch _ helse) fun ss ts hss => ?_
        refine placelessResult_bind (statements_placeless thenBranch _ hthen) fun ss' ts' hss' => ?_
        have hother := Stmt.join_placeless hss (elseBranch.span?.getD span)
          (elseBranch'.span?.getD span')
        have htaken := Stmt.join_placeless hss' (thenBranch.span?.getD span)
          (thenBranch'.span?.getD span')
        exact placelessResult_pure (by simp [Stmt.placeless, hcondition, hother, htaken])
    | _ => simp [placeless] at h
  | .compound body span, e, h => by
    cases e <;> simp [placeless] at h
    rw [statements, statements]
    refine placelessResult_bind (statements_placeless body _ h) fun ss ts hss => ?_
    exact placelessResult_pure (by simp [Stmt.placeless, hss])
  | .moduleDef name parameters body span, e, h => by
    cases e with
    | moduleDef name' parameters' body' span' =>
      simp only [placeless, moduleDef.injEq, and_true] at h
      obtain ⟨hname, hparameters, hbody⟩ := h
      rw [statements, statements]
      refine placelessResult_bind (statements_placeless body _ hbody) fun ss ts hss => ?_
      have hjoined := Stmt.join_placeless hss (body.span?.getD span) (body'.span?.getD span')
      exact placelessResult_pure (by simp [Stmt.placeless, hname, hparameters, hjoined])
    | _ => simp [placeless] at h
  | .functionDef name parameters body span, e, h => by
    cases e <;> simp [placeless] at h
    simp [statements, placelessResult, Stmt.placeless, h]

theorem statementsAll_placeless : (ds es : List Derivation) →
    ds.map placeless = es.map placeless →
    placelessResult (statementsAll ds) = placelessResult (statementsAll es)
  | [], [], _ => rfl
  | d :: ds, e :: es, h => by
    obtain ⟨hfirst, hrest⟩ := List.cons.inj h
    rw [statementsAll, statementsAll]
    refine placelessResult_bind (statements_placeless d e hfirst) fun ss ts hss => ?_
    refine placelessResult_bind (statementsAll_placeless ds es hrest) fun ss' ts' hss' => ?_
    exact placelessResult_pure (by simp [hss, hss'])

end

end Derivation

end SolidScript
