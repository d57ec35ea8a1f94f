import SolidScript.Proofs.Grammar.Prediction.Brackets

namespace SolidScript.Grammar

open Rule

section Levels

variable {n : Nat} {sub operand : Rule Expr} {wide : Follow}

theorem primary_reads_name {t : Token} (ht : t.isName) :
    Reads (primary sub) [t] (.identifier t.text t) (Follow.symbols ("[" :: operandFollow)) := by
  intro rest hrest
  have hcall : rest.head?.any (·.isPunct "(") = false := by
    have hnot := Follow.not_isPunct_of_symbols (s := "(") (by decide) hrest
    cases hhead : rest.head? <;> simp_all
  rw [List.singleton_append, primary_of_isName ht, nameOrCall_of_isName ht,
    if_neg (by simp [hcall])]

theorem primary_predicts (h : Inner n sub) :
    Predicts (n + 1) (fun _ => 1) (· = some Token.someName)
      (fun _ => Follow.symbols ("[" :: operandFollow)) (primary sub) := by
  have hopens : Opens (primary sub) (· = some Token.someName)
      (fun _ => Follow.symbols ("[" :: operandFollow)) :=
    ⟨_, _, primary_reads_name Token.someName_isName, fun _ _ => rfl⟩
  refine ⟨Agree.takes_of_forall fun _ => (primary_agree h.predicts.agree).limit (Nat.le_succ _),
    fun ts hlen => ?_, hopens⟩
  cases ts with
  | nil => exact .nil rfl hopens
  | cons t ts =>
    cases hliteral : Literal.ofToken? t with
    | some value =>
      exact .of_done [t] (primary_of_literal hliteral ts) fun other _ =>
        primary_of_literal hliteral other
    | none =>
      by_cases hname : t.isName
      · have hrule := nameOrCall_predicts h
        refine .of_head (primary_of_isName hname) hrule.takes ((hrule.below _ hlen).mono ?_)
        exact fun _ o ho => Follow.not_isPunct_of_symbols (by decide) ho
      · by_cases hsquare : t.isPunct "["
        · have hrule : Predicts (n + 1) _ Follow.any _ _ := bracketed_predicts h trivial
          exact .of_head (primary_of_square hsquare) hrule.takes
            ((hrule.below _ hlen).mono fun _ _ _ => trivial)
        · by_cases hround : t.isPunct "("
          · have hrule : Predicts (n + 1) _ Follow.any _ _ := parenthesised_predicts h trivial
            exact .of_head (primary_of_round hround) hrule.takes
              ((hrule.below _ hlen).mono fun _ _ _ => trivial)
          · exact .of_stuck [] fun other => by
              simp [primary, hliteral, hname, hsquare, hround]

private theorem indexRound_predicts (h : Inner n sub) (object : Expr) :
    Predicts n (fun _ => 0) (Follow.symbols operandFollow) (fun _ => Follow.symbols operandFollow)
      (indexRound sub object) := by
  have hstop {o : Option Token} (ho : Follow.symbols operandFollow o) :
      ∀ t ∈ o, t.isPunct "[" = false := Follow.not_isPunct_of_symbols (by decide) ho
  refine .accept_bind (Nat.zero_le _) ?_ (.pure fun o ho => ⟨ho, hstop ho⟩)
    fun _ _ o ho => ⟨ho, hstop ho⟩
  exact (closed_predicts h (by omega) (by decide)).narrow fun _ _ _ => trivial

theorem indexed_predicts (h : Inner n sub) :
    Predicts (n + 1) (fun _ => 1) (· = some Token.someName) (fun _ => Follow.symbols operandFollow)
      (indexed sub) := by
  refine (primary_predicts h).bind (fun object => ?_) fun _ _ _ => Follow.symbols_mono (by simp)
  have hloop : Predicts n (fun _ => 0) (Follow.symbols operandFollow)
      (fun _ => Follow.symbols operandFollow) (loop (indexRound sub) object) := by
    refine .loop object (fun object => ?_) (fun object ts hlen => ?_) (fun object => ?_)
      fun _ _ _ _ _ => id
    · exact Agree.takes_of_forall fun _ => indexRound_agree h.predicts.agree
    · refine ((indexRound_predicts h object).below ts hlen).mono fun round o ho => ?_
      cases round <;> exact ho
    · refine ⟨[], object, fun rest hrest => ?_, fun _ => id⟩
      have hstop := Follow.not_isPunct_of_symbols (s := "[") (by decide) hrest
      simp [indexRound, took, accept_of_not hstop]
  exact hloop.mono (by omega) (fun _ => Nat.le_refl _) (fun _ => Follow.symbols_mono (by simp))
    fun _ _ => id

theorem unary_predicts
    (h : Predicts n (fun _ => 1) (· = some Token.someName) (fun _ => wide) operand) :
    Predicts n (fun _ => 1) (· = some Token.someName) (fun _ => wide) (unary operand) := by
  have hopens : Opens (unary operand) (· = some Token.someName) (fun _ => wide) := by
    obtain ⟨us, e, hus, hhead⟩ := h.opens
    refine ⟨us, e, fun rest hrest => ?_, hhead⟩
    have hfirst := hhead rest hrest
    cases hts : us ++ rest with
    | nil => simp [hts] at hfirst
    | cons t ts =>
      obtain rfl : t = Token.someName := by simpa [hts] using hfirst
      rw [← hus rest hrest, hts]
      rfl
  refine ⟨Agree.takes_of_forall fun _ => unary_agree h.agree, fun ts hlen => ?_, hopens⟩
  induction ts with
  | nil =>
    refine .nil ?_ hopens
    cases hread : operand [] with
    | done e rest => simpa using h.takes [] e rest hread
    | stuck rest =>
      cases rest with
      | nil => exact hread
      | cons t rest =>
        obtain ⟨us, hus, _⟩ := (h.below [] hlen).stuck hread
        simp at hus
  | cons t ts ih =>
    cases hop : unaryOp? t with
    | none =>
      exact .of_head (fun us => by simp [unary, hop]) h.takes (h.below (t :: ts) hlen)
    | some op =>
      have hinner : PredictsAt (do
          let e ← unary operand
          return .unary op e ⟨t.offset, e.span.stop⟩ : Rule Expr) (fun _ => wide) ts := by
        exact (ih (by simp at hlen; omega)).map fun _ _ => id
      refine .prepend [t] (fun us => ?_) hinner
      simp only [List.singleton_append, unary, hop, bind_apply]
      cases unary operand us <;> rfl

/-- Operands with operators of one level between them stop where an operand does, less the operators
of the level. -/
theorem levelled_predicts {level : List BinaryOp} {l m : List String} (hle : m ⊆ l)
    (hops : ∀ op ∈ level, op.symbol ∉ m)
    (h : Predicts n (fun _ => 1) (· = some Token.someName) (fun _ => Follow.symbols l) operand) :
    Predicts n (fun _ => 1) (· = some Token.someName) (fun _ => Follow.symbols m)
      (levelled level operand) := by
  have hround (left : Expr) : Predicts n (fun _ => 0) (Follow.symbols m)
      (fun _ => Follow.symbols m) (operationRound level operand left) := by
    refine .optional_bind (Nat.zero_le _) (fun op => ?_)
      (.pure fun o ho => ⟨ho, binaryOp?_eq_none hops ho⟩)
      fun _ _ o ho => ⟨ho, binaryOp?_eq_none hops ho⟩
    have hright : Predicts (n - 1) (fun _ => 1) Follow.any (fun _ => Follow.symbols l) operand :=
      h.start (Nat.sub_le ..) trivial
    exact .drop (hright.map fun _ _ => Follow.symbols_mono hle)
  refine h.bind (fun left => ?_) fun _ _ _ => Follow.symbols_mono hle
  have hloop : Predicts n (fun _ => 0) (Follow.symbols m) (fun _ => Follow.symbols m)
      (loop (operationRound level operand) left) := by
    refine .loop left (fun left => ?_) (fun left ts hlen => ?_) (fun left => ?_)
      fun _ _ _ _ _ => id
    · exact Agree.takes_of_forall fun _ => operationRound_agree h.agree
    · refine ((hround left).below ts hlen).mono fun round o ho => ?_
      cases round <;> exact ho
    · refine ⟨[], left, fun rest hrest => ?_, fun _ => id⟩
      simp [operationRound, optional_of_none (binaryOp?_eq_none hops hrest)]
  exact hloop.mono (by omega) (fun _ => Nat.le_refl _) (fun _ => Follow.symbols_mono hle)
    fun _ _ => id

theorem operation_predicts (h : Inner n sub) :
    Predicts (n + 1) (fun _ => 1) (· = some Token.someName)
      (fun _ => Follow.symbols ("?" :: closers)) (operation sub) := by
  have hlevels {levels : List (List BinaryOp)} {l : List String} {operand : Rule Expr}
      (hsymbols : (levelSymbols levels ++ l).Nodup)
      (hoperand : Predicts (n + 1) (fun _ => 1) (· = some Token.someName)
        (fun _ => Follow.symbols (levelSymbols levels ++ l)) operand) :
      Predicts (n + 1) (fun _ => 1) (· = some Token.someName) (fun _ => Follow.symbols l)
        (levels.foldl (fun operand level => levelled level operand) operand) := by
    induction levels generalizing operand with
    | nil => exact hoperand
    | cons level levels ih =>
      obtain ⟨hlevel, hsymbols⟩ := levelSymbols_disjoint hsymbols
      exact ih hsymbols (levelled_predicts (by simp [levelSymbols]) hlevel hoperand)
  exact hlevels (by decide) (unary_predicts (indexed_predicts h))

theorem conditional_predicts (h : Inner n sub) :
    Predicts (n + 1) (fun _ => 1) (· = some Token.someName) (fun _ => Follow.symbols closers)
      (conditional sub) := by
  have hstop {o : Option Token} (ho : Follow.symbols closers o) :
      Follow.symbols ("?" :: closers) o ∧ ∀ t ∈ o, t.isPunct "?" = false :=
    ⟨Follow.symbols_mono (by simp) ho, Follow.not_isPunct_of_symbols (by decide) ho⟩
  refine (operation_predicts h).bind (fun condition => ?_) fun _ _ o ho => (hstop ho).1
  refine .accept_bind (Nat.zero_le _) ?_ (.pure fun o ho => hstop ho) fun _ _ o ho => hstop ho
  refine ((h.predicts.start (by omega) trivial).ends fun thenExpr => ?_).drop
  refine .token_bind (Token.ofPunct ":") (by simp) (closers_ofPunct (by decide)) fun _ => ?_
  have helse : Predicts (n + 1 - 1 - 1 - 1 - 1) (fun _ => 1) Follow.any
      (fun _ => Follow.symbols closers) sub :=
    h.predicts.start (by omega) trivial
  exact .drop (helse.map fun _ _ => id)

theorem conditional_reads_name {t : Token} (ht : t.isName) :
    Reads (conditional sub) [t] (.identifier t.text t) (Follow.symbols closers) :=
  conditional_reads_primary (unaryOp?_of_isName ht) (primary_reads_name ht)

end Levels

/-- Expressions predict on lists of any length. The induction is on the length: the expressions
inside an expression start at least one token later. -/
theorem expression_inner (n : Nat) : Inner n expression := by
  have hreads {t : Token} (ht : t.isName) :
      Reads expression [t] (.identifier t.text t) (Follow.symbols closers) := by
    rw [expression_eq]
    exact conditional_reads_name ht
  induction n with
  | zero =>
    exact ⟨⟨expression_takes, fun _ hlen => absurd hlen (Nat.not_lt_zero _),
      _, _, hreads Token.someName_isName, fun _ _ => rfl⟩, hreads⟩
  | succ n ih =>
    refine ⟨?_, hreads⟩
    rw [expression_eq]
    exact conditional_predicts ih

end SolidScript.Grammar
