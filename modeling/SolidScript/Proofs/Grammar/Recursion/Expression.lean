import SolidScript.Proofs.Grammar.Progress

namespace SolidScript.Grammar

open Rule

section Expressions

variable {n : Nat} {sub other : Rule Expr}

private theorem closing_agree (symbol : String) :
    Agree n (fun found => found.elim 0 fun _ => 1) (closing symbol) (closing symbol) :=
  .optional _

theorem listRound_agree {α : Type} {close : String} {item same : Rule α} {items : List α}
    (h : Agree n (fun _ => 1) item same) :
    Agree n Round.cost (listRound close item items) (listRound close same items) := by
  refine (closing_agree close).bind fun found => ?_
  cases found with
  | some last => exact .pure rfl
  | none =>
    refine (h.limit (Nat.sub_le ..)).bind fun next => ?_
    refine (Agree.accept _).bind fun taken => ?_
    cases taken with
    | true => exact .pure rfl
    | false => exact (Agree.token _).bind fun last => .pure rfl

theorem listUntil_agree {α : Type} {close : String} {item same : Rule α}
    (h : Agree n (fun _ => 1) item same) :
    Agree n (fun _ => 0) (listUntil close item) (listUntil close same) :=
  .loop fun _ => listRound_agree h

theorem argument_agree (h : Agree n (fun _ => 1) sub other) :
    Agree n (fun _ => 1) (argument sub) (argument other) := by
  refine (Agree.look startsNamed).bind fun named => ?_
  cases named with
  | true =>
    refine (Agree.token _).bind fun name => (Agree.token _).bind fun eq => ?_
    exact (h.limit (by omega)).bind fun value => .pure rfl
  | false => exact h.bind fun value => .pure rfl

theorem arguments_agree (h : Agree n (fun _ => 1) sub other) :
    Agree (n + 1) (fun _ => 1) (arguments sub) (arguments other) :=
  (Agree.token _).bind fun _ => (listUntil_agree (argument_agree h)).mono (by omega) (by simp)

private theorem nameOrCall_agree (h : Agree n (fun _ => 1) sub other) :
    Agree (n + 1) (fun _ => 1) (nameOrCall sub) (nameOrCall other) := by
  refine (Agree.token _).bind fun name => (Agree.look _).bind fun called => ?_
  cases called with
  | true => exact ((arguments_agree h).limit (by omega)).bind fun args => .pure rfl
  | false => exact .pure rfl

private theorem bracketed_agree (h : Agree n (fun _ => 1) sub other) :
    Agree (n + 1) (fun _ => 1) (bracketed sub) (bracketed other) := by
  refine (Agree.token _).bind fun first => (closing_agree "]").bind fun found => ?_
  cases found with
  | some last => exact .pure rfl
  | none =>
    refine (h.limit (by simp)).bind fun a => (Agree.accept _).bind fun colon => ?_
    cases colon with
    | true =>
      refine (h.limit (by simp; omega)).bind fun b => (Agree.accept _).bind fun again => ?_
      cases again with
      | true =>
        exact (h.limit (by simp; omega)).bind fun c => (Agree.token _).bind fun last => .pure rfl
      | false => exact (Agree.token _).bind fun last => .pure rfl
    | false =>
      refine (Agree.accept _).bind fun comma => ?_
      cases comma with
      | true =>
        exact ((listUntil_agree h).limit (by simp; omega)).bind fun others => .pure rfl
      | false => exact (Agree.token _).bind fun last => .pure rfl

private theorem parenthesised_agree (h : Agree n (fun _ => 1) sub other) :
    Agree (n + 1) (fun _ => 1) (parenthesised sub) (parenthesised other) :=
  (Agree.token _).bind fun _ => (h.limit (by omega)).bind fun _ => (Agree.token _).bind fun _ =>
    .pure rfl

theorem primary_agree (h : Agree n (fun _ => 1) sub other) :
    Agree (n + 1) (fun _ => 1) (primary sub) (primary other) where
  eq ts hlen := by
    cases ts with
    | nil => rfl
    | cons t ts =>
      simp only [primary, (nameOrCall_agree h).eq _ hlen, (bracketed_agree h).eq _ hlen,
        (parenthesised_agree h).eq _ hlen]
  takes ts e rest hlen hread := by
    cases ts with
    | nil => cases hread
    | cons t ts =>
      simp only [primary] at hread
      split at hread
      · cases hread
        simp
      · split at hread
        · exact (nameOrCall_agree h).takes _ e rest hlen hread
        · split at hread
          · exact (bracketed_agree h).takes _ e rest hlen hread
          · split at hread
            · exact (parenthesised_agree h).takes _ e rest hlen hread
            · cases hread

theorem indexRound_agree {object : Expr} (h : Agree n (fun _ => 1) sub other) :
    Agree n Round.cost (indexRound sub object) (indexRound other object) := by
  refine (Agree.accept _).bind fun taken => ?_
  cases taken with
  | true => exact (h.limit (by simp)).bind fun i => (Agree.token _).bind fun last => .pure rfl
  | false => exact .pure rfl

theorem indexed_agree (h : Agree n (fun _ => 1) sub other) :
    Agree (n + 1) (fun _ => 1) (indexed sub) (indexed other) :=
  (primary_agree h).bind fun _ => (Agree.loop fun _ => indexRound_agree h).mono (by omega) (by simp)

theorem unary_agree (h : Agree n (fun _ => 1) sub other) :
    Agree n (fun _ => 1) (unary sub) (unary other) := by
  constructor
  · intro ts hlen
    fun_induction unary sub ts with
    | case1 => exact h.eq [] hlen
    | case2 t ts op hop ih =>
      simp only [List.length_cons] at hlen
      simp only [unary, hop, ih (by omega)]
    | case3 t ts hop => simpa only [unary, hop] using h.eq (t :: ts) hlen
  · intro ts e rest hlen hread
    fun_induction unary sub ts generalizing e with
    | case1 => exact h.takes [] e rest hlen hread
    | case2 t ts op hop ih =>
      simp only [List.length_cons] at hlen ⊢
      cases hinner : unary sub ts with
      | stuck left => simp [hinner, Outcome.map] at hread
      | done inner left =>
        simp only [hinner, Outcome.map, Outcome.done.injEq] at hread
        have htakes := ih inner (by omega) (by rw [hinner, hread.2])
        omega
    | case3 t ts hop => exact h.takes (t :: ts) e rest hlen hread

theorem operationRound_agree {level : List BinaryOp} {left : Expr}
    (h : Agree n (fun _ => 1) sub other) :
    Agree n Round.cost (operationRound level sub left) (operationRound level other left) := by
  refine (Agree.optional _).bind fun op => ?_
  cases op with
  | some op => exact (h.limit (by simp)).bind fun right => .pure rfl
  | none => exact .pure rfl

theorem levelled_agree {level : List BinaryOp} (h : Agree n (fun _ => 1) sub other) :
    Agree n (fun _ => 1) (levelled level sub) (levelled level other) :=
  h.bind fun _ => (Agree.loop fun _ => operationRound_agree h).mono (by omega) (by simp)

theorem operation_agree (h : Agree n (fun _ => 1) sub other) :
    Agree (n + 1) (fun _ => 1) (operation sub) (operation other) := by
  unfold operation
  have hunary := unary_agree (indexed_agree h)
  generalize unary (indexed sub) = first at hunary ⊢
  generalize unary (indexed other) = second at hunary ⊢
  induction BinaryOp.levels generalizing first second with
  | nil => exact hunary
  | cons level levels ih => exact ih _ _ (levelled_agree hunary)

theorem conditional_agree (h : Agree n (fun _ => 1) sub other) :
    Agree (n + 1) (fun _ => 1) (conditional sub) (conditional other) := by
  refine (operation_agree h).bind fun condition => (Agree.accept _).bind fun asked => ?_
  cases asked with
  | true =>
    exact (h.limit (by simp)).bind fun a => (Agree.token _).bind fun _ =>
      (h.limit (by simp; omega)).bind fun b => .pure rfl
  | false => exact .pure rfl

end Expressions

/-- An expression takes at least one token. -/
theorem expression_takes : Takes (fun _ => 1) expression := knot_takes conditional_agree

theorem expression_agree {n : Nat} : Agree n (fun _ => 1) expression expression :=
  .of_takes expression_takes

/-- An expression is a conditional over expressions. -/
theorem expression_eq : expression = conditional expression := knot_eq conditional_agree

/-- Where no operator begins, an expression is stuck where its first primary expression is. -/
theorem expression_stuck {t : Token} {ts rest : List Token} (hop : unaryOp? t = none)
    (h : primary expression (t :: ts) = .stuck rest) : expression (t :: ts) = .stuck rest := by
  have hunary : unary (indexed expression) (t :: ts) = .stuck rest := by
    simp [unary, hop, indexed, h]
  have hlevels (levels : List (List BinaryOp)) {operand : Rule Expr}
      (hoperand : operand (t :: ts) = .stuck rest) :
      levels.foldl (fun operand level => levelled level operand) operand (t :: ts) =
        .stuck rest := by
    induction levels generalizing operand with
    | nil => exact hoperand
    | cons level levels ih =>
      apply ih
      change (operand (t :: ts)).andThen _ = _
      rw [hoperand]
      rfl
  rw [expression_eq]
  change (operation expression (t :: ts)).andThen _ = _
  rw [operation, hlevels _ hunary]
  rfl

end SolidScript.Grammar
