import SolidScript.Proofs.Grammar.Call
import SolidScript.Proofs.Grammar.Lists

namespace SolidScript.Grammar

open Rule

section Announced

variable {t : Token} {p : Production}

theorem not_isPunct_of_isKeyword {word symbol : String} (h : t.isKeyword word) :
    t.isPunct symbol = false := by
  simp only [Token.isKeyword, Bool.and_eq_true, decide_eq_true_eq] at h
  simp [Token.isPunct, h.1]

private theorem not_isKeyword_of_isKeyword {a b : String} (h : t.isKeyword a) (hne : a ≠ b) :
    t.isKeyword b = false := by
  simp only [Token.isKeyword, Bool.and_eq_true, decide_eq_true_eq] at h
  simp [Token.isKeyword, h.2, hne]

private theorem satisfies_of_done {α : Type} {q : Token → Bool} {f : Token → Rule α} {v : α}
    {ts rest : List Token} (h : (token q >>= f) (t :: ts) = .done v rest) : q t := by
  obtain ⟨u, mid, htoken, _⟩ := bind_eq_done_iff.mp h
  obtain ⟨hu, hts⟩ := token_eq_done htoken
  cases hts
  exact hu

/-- What announces a production cannot begin an expression. -/
theorem expression_of_announced (h : Production.announced? t = some p) (ts : List Token) :
    expression (t :: ts) = .stuck (t :: ts) := by
  have hnone : Literal.ofToken? t = none ∧ t.isName = false ∧ t.isPunct "[" = false ∧
      t.isPunct "(" = false ∧ unaryOp? t = none := by
    obtain ⟨_, ht⟩ | ⟨_, ht⟩ | ⟨_, ht⟩ | ⟨_, ht⟩ | ⟨_, ht⟩ := announced?_cases h <;>
      simp only [Token.isPunct, Token.isKeyword, Bool.and_eq_true, decide_eq_true_eq] at ht <;>
      simp [Literal.ofToken?, Token.isName, Token.isPunct, unaryOp?, UnaryOp.all, UnaryOp.symbol,
        ht]
  obtain ⟨hliteral, hname, hsquare, hround, hop⟩ := hnone
  exact expression_stuck hop (by simp [primary, hliteral, hname, hsquare, hround])

/-- Where nothing is announced and no expression begins, no statement does. -/
theorem statement_stuck {ts : List Token} (h : Production.announced? t = none)
    (hread : expression (t :: ts) = .stuck (t :: ts)) :
    statement (t :: ts) = .stuck (t :: ts) := by
  rw [statement_eq, anyStatement, h]
  exact bind_of_stuck hread _

/-- No statement begins with `else`. -/
theorem statement_of_else (ht : t.isKeyword "else") (ts : List Token) :
    statement (t :: ts) = .stuck (t :: ts) := by
  obtain ⟨hkind, htext⟩ : t.kind = .keyword ∧ t.text = "else" := by
    simpa [Token.isKeyword] using ht
  refine statement_stuck ?_ (expression_stuck ?_ ?_)
  · simp [Production.announced?, Token.isPunct, Token.isKeyword, hkind, htext]
  · simp [unaryOp?, Token.isPunct, hkind]
  · simp [primary, Literal.ofToken?, Token.isName, Token.isPunct, hkind, htext]

/-- No statement begins with what closes a block. -/
theorem statement_of_brace (ht : t.isPunct "\x7d") (ts : List Token) :
    statement (t :: ts) = .stuck (t :: ts) := by
  obtain ⟨hkind, htext⟩ : t.kind = .punct ∧ t.text = "\x7d" := by
    simpa [Token.isPunct] using ht
  refine statement_stuck ?_ (expression_stuck ?_ ?_)
  · simp [Production.announced?, Token.isPunct, Token.isKeyword, hkind, htext]
  · simp [unaryOp?, Token.isPunct, hkind, htext, UnaryOp.all, UnaryOp.symbol]
  · simp [primary, Literal.ofToken?, Token.isName, Token.isPunct, hkind, htext]

theorem announced?_of_expression {e : Expr} {ts rest : List Token}
    (h : expression (t :: ts) = .done e rest) : Production.announced? t = none := by
  refine Option.eq_none_iff_forall_ne_some.mpr fun q hq => ?_
  rw [expression_of_announced hq] at h
  cases h

theorem announced?_of_isName (ht : t.isName) : Production.announced? t = none :=
  announced?_of_expression ((expression_inner 0).reads ht [] (Follow.symbols_none _))

/-- Each of the five productions is announced by the token with which it begins. -/
theorem announced?_iff : Production.announced? t = some p ↔
    (p = .empty ∧ t.isPunct ";") ∨ (p = .compound ∧ t.isPunct "\x7b") ∨
      (p = .branch ∧ t.isKeyword "if") ∨ (p = .moduleDef ∧ t.isKeyword "module") ∨
      (p = .functionDef ∧ t.isKeyword "function") := by
  refine ⟨announced?_cases, ?_⟩
  rintro (⟨rfl, ht⟩ | ⟨rfl, ht⟩ | ⟨rfl, ht⟩ | ⟨rfl, ht⟩ | ⟨rfl, ht⟩)
  · simp [Production.announced?, ht]
  · have hother := Token.not_isPunct_of_isPunct (b := ";") ht (by decide)
    simp [Production.announced?, ht, hother]
  · simp [Production.announced?, ht, not_isPunct_of_isKeyword ht]
  · have hif := not_isKeyword_of_isKeyword (b := "if") ht (by decide)
    simp [Production.announced?, ht, not_isPunct_of_isKeyword ht, hif]
  · have hif := not_isKeyword_of_isKeyword (b := "if") ht (by decide)
    have hmodule := not_isKeyword_of_isKeyword (b := "module") ht (by decide)
    simp [Production.announced?, ht, not_isPunct_of_isKeyword ht, hif, hmodule]

/-- A production that reads tokens is announced by the first of them, or it is one of the three
that begin with an expression, and then none is announced. -/
theorem announced_of_parse {ts rest : List Token} {d : Derivation}
    (h : p.parse statement (t :: ts) = .done d rest) :
    Production.announced? t = some p ∨ Production.announced? t = none ∧
      (p = .moduleCall ∨ p = .assignment ∨ p = .expression) := by
  cases p with
  | empty => exact .inl (announced?_iff.mpr (by simp [satisfies_of_done h]))
  | compound =>
    obtain ⟨⟨items, span⟩, mid, hinner, _⟩ := bind_eq_done_iff.mp h
    exact .inl (announced?_iff.mpr (by simp [satisfies_of_done (spanned_eq_done hinner).1]))
  | branch =>
    obtain ⟨⟨parts, span⟩, mid, hinner, _⟩ := bind_eq_done_iff.mp h
    exact .inl (announced?_iff.mpr (by simp [satisfies_of_done (spanned_eq_done hinner).1]))
  | moduleDef =>
    obtain ⟨⟨parts, span⟩, mid, hinner, _⟩ := bind_eq_done_iff.mp h
    exact .inl (announced?_iff.mpr (by simp [satisfies_of_done (spanned_eq_done hinner).1]))
  | functionDef =>
    obtain ⟨⟨parts, span⟩, mid, hinner, _⟩ := bind_eq_done_iff.mp h
    exact .inl (announced?_iff.mpr (by simp [satisfies_of_done (spanned_eq_done hinner).1]))
  | moduleCall => exact .inr ⟨announced?_of_isName (satisfies_of_done h), .inl rfl⟩
  | assignment =>
    obtain ⟨⟨parts, span⟩, mid, hinner, _⟩ := bind_eq_done_iff.mp h
    obtain ⟨target, left, htarget, _⟩ := bind_eq_done_iff.mp (spanned_eq_done hinner).1
    exact .inr ⟨announced?_of_expression htarget, .inr (.inl rfl)⟩
  | expression =>
    obtain ⟨e, mid, he, _⟩ := bind_eq_done_iff.mp h
    exact .inr ⟨announced?_of_expression he, .inr (.inr rfl)⟩

end Announced

section Simple

private theorem terminated_eq_done {node d : Derivation} {ts rest : List Token}
    (h : terminated node ts = .done d rest) : ∃ u, u.isPunct ";" ∧ ts = u :: rest := by
  obtain ⟨u, mid, hlast, hpure⟩ := bind_eq_done_iff.mp h
  obtain ⟨hu, hts⟩ := token_eq_done hlast
  cases hpure
  exact ⟨u, hu, hts⟩

/-- An assignment covers the bytes from its first token to the last one of its value. -/
private theorem spanOf_assignment {t u : Token} {us vs rest : List Token}
    (hus : (us ++ u :: vs).head? = some t) (hvs : vs ≠ []) :
    Token.spanOf (consumed (us ++ u :: (vs ++ rest)) rest) =
      ⟨t.offset, (Token.spanOf (consumed (vs ++ rest) rest)).stop⟩ := by
  have hall : us ++ u :: (vs ++ rest) = (us ++ u :: vs) ++ rest := by simp
  have hfirst := List.head?_eq_some_head hvs
  have hlast := List.getLast?_eq_some_getLast hvs
  have hend : (us ++ u :: vs).getLast? = some (vs.getLast hvs) := by
    rw [List.getLast?_append, List.getLast?_cons, hlast]
    rfl
  rw [hall, consumed_append, consumed_append]
  simp only [Token.spanOf, hus, hend, hfirst, hlast]

variable {t : Token} {target : Expr} {ts mid : List Token}

theorem expressionStatement_of_call (h : expression ts = .done target mid)
    (hcall : target.IsCall) : expressionStatement ts = .stuck mid := by
  obtain ⟨n, args, span, rfl⟩ := hcall
  exact bind_of_done h _

theorem expressionStatement_of_not_call (h : expression ts = .done target mid)
    (hcall : ¬target.IsCall) :
    expressionStatement ts = terminated (.expression target target.span) mid := by
  rw [expressionStatement, bind_of_done h]
  cases target with
  | call n args span => exact absurd ⟨n, args, span, rfl⟩ hcall
  | _ => rfl

variable (htarget : expression (t :: ts) = .done target mid)

include htarget

/-- In front of an equals sign an expression is the target of an assignment. -/
theorem simple_of_equals {u : Token} {us : List Token} (hmid : mid = u :: us)
    (hu : u.isPunct "=") : simple (t :: ts) = assignment (t :: ts) := by
  subst hmid
  change (expression >>= _) (t :: ts) = (spanned _ >>= _) (t :: ts)
  rw [bind_of_done htarget, simpleRest_of_equals hu]
  have hblock : (do
      let target ← expression
      let _ ← punct "="
      let value ← expression
      return (target, value) : Rule (Expr × Expr)) (t :: ts) =
        (do return (target, ← expression) : Rule (Expr × Expr)) us := by
    rw [bind_of_done htarget, bind_of_done (punct_of_isPunct hu us)]
  cases hvalue : expression us with
  | stuck rest =>
    rw [bind_of_stuck hvalue] at hblock
    rw [bind_of_stuck (sliced_of_stuck hvalue), bind_of_stuck (spanned_of_stuck hblock)]
  | done value rest =>
    rw [bind_of_done hvalue] at hblock
    obtain ⟨front, hfront, _⟩ := (expression_predictsAt _).done htarget
    obtain ⟨vs, rfl, _⟩ := (expression_predictsAt _).done hvalue
    have hvs : vs ≠ [] := by
      rintro rfl
      have htakes : rest.length + 1 ≤ rest.length := expression_takes _ value rest hvalue
      omega
    have hhead : (front ++ u :: vs).head? = some t := by
      cases front with
      | nil => exact congrArg List.head? hfront.symm
      | cons first front => exact congrArg List.head? hfront.symm
    rw [bind_of_done (sliced_of_done hvalue), bind_of_done (spanned_of_done hblock), hfront,
      spanOf_assignment hhead hvs]

theorem assignment_of_not_equals (hequals : ∀ u ∈ mid.head?, u.isPunct "=" = false) :
    assignment (t :: ts) = .stuck mid := by
  have hblock : (do
      let target ← expression
      let _ ← punct "="
      let value ← expression
      return (target, value) : Rule (Expr × Expr)) (t :: ts) = .stuck mid := by
    rw [bind_of_done htarget]
    exact bind_of_stuck (token_of_not hequals) _
  exact bind_of_stuck (spanned_of_stuck hblock) _

theorem moduleCall_of_call (hcall : target.IsCall) (ht : t.isName) :
    ∃ node, moduleCall (t :: ts) = terminated node mid ∧
      ((∀ u ∈ mid.head?, u.isPunct "=" = false) → simple (t :: ts) = terminated node mid) := by
  obtain ⟨n, args, span, rfl⟩ := hcall
  obtain ⟨close, hargs, rfl, rfl⟩ := arguments_of_expression ht htarget
  refine ⟨.moduleCall t.text args ⟨t.offset, close.stop⟩, ?_, fun hequals => ?_⟩
  · rw [moduleCall, name, bind_of_done (token_of_satisfies ht ts), bind_of_done hargs]
  · change (expression >>= _) (t :: ts) = _
    rw [bind_of_done htarget, simpleRest_of_call hequals, if_pos ht]

/-- A call is a module call if it begins with its name. In parentheses it is no statement. -/
theorem simple_of_call (hcall : target.IsCall)
    (hequals : ∀ u ∈ mid.head?, u.isPunct "=" = false) :
    simple (t :: ts) = if t.isName then moduleCall (t :: ts) else .stuck mid := by
  by_cases ht : t.isName
  · obtain ⟨node, hmodule, hsimple⟩ := moduleCall_of_call htarget hcall ht
    rw [if_pos ht, hmodule, hsimple hequals]
  · obtain ⟨n, args, span, rfl⟩ := hcall
    change (expression >>= _) (t :: ts) = _
    rw [bind_of_done htarget, simpleRest_of_call hequals, if_neg ht, if_neg ht]
    rfl

theorem simple_of_not_call (hcall : ¬target.IsCall)
    (hequals : ∀ u ∈ mid.head?, u.isPunct "=" = false) :
    simple (t :: ts) = expressionStatement (t :: ts) := by
  rw [expressionStatement_of_not_call htarget hcall]
  change (expression >>= _) (t :: ts) = _
  rw [bind_of_done htarget]
  exact simpleRest_of_not_call (fun n args span he => hcall ⟨n, args, span, he⟩) hequals

theorem mid_of_moduleCall {d : Derivation} {rest : List Token}
    (h : moduleCall (t :: ts) = .done d rest) :
    target.IsCall ∧ ∃ u, u.isPunct ";" ∧ mid = u :: rest := by
  have ht := satisfies_of_done h
  rw [moduleCall, name, bind_of_done (token_of_satisfies ht ts)] at h
  obtain ⟨⟨args, close⟩, left, hargs, hlast⟩ := bind_eq_done_iff.mp h
  obtain ⟨u, hu, rfl⟩ := terminated_eq_done hlast
  have hcall := expression_of_arguments ht hargs (Follow.symbols_some (by decide) hu)
  rw [htarget] at hcall
  cases hcall
  exact ⟨⟨t.text, args, _, rfl⟩, u, hu, rfl⟩

theorem mid_of_expressionStatement {d : Derivation} {rest : List Token}
    (h : expressionStatement (t :: ts) = .done d rest) :
    ¬target.IsCall ∧ ∃ u, u.isPunct ";" ∧ mid = u :: rest := by
  by_cases hcall : target.IsCall
  · rw [expressionStatement_of_call htarget hcall] at h
    cases h
  · rw [expressionStatement_of_not_call htarget hcall] at h
    exact ⟨hcall, terminated_eq_done h⟩

omit htarget in
theorem simple_of_moduleCall {d : Derivation} {rest : List Token}
    (h : moduleCall (t :: ts) = .done d rest) : simple (t :: ts) = .done d rest := by
  have ht := satisfies_of_done h
  have hread := h
  rw [moduleCall, name, bind_of_done (token_of_satisfies ht ts)] at hread
  obtain ⟨⟨args, close⟩, left, hargs, hlast⟩ := bind_eq_done_iff.mp hread
  obtain ⟨u, hu, rfl⟩ := terminated_eq_done hlast
  have htarget := expression_of_arguments ht hargs (Follow.symbols_some (by decide) hu)
  have hequals : ∀ v ∈ (u :: rest).head?, v.isPunct "=" = false := by
    rintro _ ⟨⟩
    exact Token.not_isPunct_of_isPunct hu (by decide)
  rw [simple_of_call htarget ⟨_, _, _, rfl⟩ hequals, if_pos ht, h]

/-- What follows an expression is only looked at behind it. -/
theorem simple_rest : (simple (t :: ts)).rest <:+ mid := by
  have hread : simple (t :: ts) = simpleRest t target mid := bind_of_done htarget _
  rw [hread]
  exact (simpleRest_predictsAt t target mid).rest_suffix

/-- Of the three productions that begin with an expression only that one reads the tokens which they
are read as: an equals sign behind the expression tells the assignments apart, and a call the module
calls. -/
private theorem simple_production {d : Derivation} {rest : List Token}
    (h : simple (t :: ts) = .done d rest) :
    ∃ p : Production, p.parse statement (t :: ts) = .done d rest ∧
      ∀ (q : Production) (e : Derivation) (left : List Token),
        q = .moduleCall ∨ q = .assignment ∨ q = .expression →
          q.parse statement (t :: ts) = .done e left → q = p := by
  by_cases hequals : ∀ u ∈ mid.head?, u.isPunct "=" = false
  · have hassignment := assignment_of_not_equals htarget hequals
    by_cases hcall : target.IsCall
    · rw [simple_of_call htarget hcall hequals] at h
      split at h
      · refine ⟨.moduleCall, h, ?_⟩
        rintro _ e left (rfl | rfl | rfl) hq
        · rfl
        · cases hassignment.symm.trans hq
        · exact absurd hcall (mid_of_expressionStatement htarget hq).1
      · cases h
    · refine ⟨.expression, (simple_of_not_call htarget hcall hequals).symm.trans h, ?_⟩
      rintro _ e left (rfl | rfl | rfl) hq
      · exact absurd (mid_of_moduleCall htarget hq).1 hcall
      · cases hassignment.symm.trans hq
      · rfl
  · obtain ⟨u, us, rfl, hu⟩ := exists_cons_of_not hequals
    have hend {v : Token} {left : List Token} (hv : v.isPunct ";") (hmid : u :: us = v :: left) :
        False := by
      obtain ⟨rfl, rfl⟩ := List.cons.inj hmid
      exact absurd (Token.isPunct_unique hu hv) (by decide)
    refine ⟨.assignment, (simple_of_equals htarget rfl hu).symm.trans h, ?_⟩
    rintro _ e left (rfl | rfl | rfl) hq
    · obtain ⟨_, v, hv, hmid⟩ := mid_of_moduleCall htarget hq
      exact (hend hv hmid).elim
    · rfl
    · obtain ⟨_, v, hv, hmid⟩ := mid_of_expressionStatement htarget hq
      exact (hend hv hmid).elim

end Simple

/-- What is read as a statement is read alike by one production, and by no other. -/
theorem statement_production {ts rest : List Token} {d : Derivation}
    (h : statement ts = .done d rest) :
    ∃ p : Production, p.parse statement ts = .done d rest ∧
      ∀ (q : Production) (e : Derivation) (left : List Token),
        q.parse statement ts = .done e left → q = p := by
  rw [statement_eq] at h
  cases ts with
  | nil => cases h
  | cons t ts =>
    simp only [anyStatement] at h
    split at h
    · next p ht =>
      refine ⟨p, h, fun q e left hq => ?_⟩
      obtain hq | ⟨hq, _⟩ := announced_of_parse hq
      · exact Option.some.inj (hq.symm.trans ht)
      · rw [ht] at hq
        cases hq
    · next ht =>
      obtain ⟨target, mid, htarget, _⟩ := bind_eq_done_iff.mp h
      obtain ⟨p, hp, hunique⟩ := simple_production htarget h
      refine ⟨p, hp, fun q e left hq => ?_⟩
      obtain hannounced | ⟨_, hsimple⟩ := announced_of_parse hq
      · rw [ht] at hannounced
        cases hannounced
      · exact hunique q e left hsimple hq

end SolidScript.Grammar
