import SolidScript.Proofs.Grammar.Ambiguity
import SolidScript.Proofs.Grammar.Blindness.Expression

namespace SolidScript.Grammar

open Rule

section Parts

theorem terminated_alike {d e : Derivation} (h : d.placeless = e.placeless) :
    Alike Derivation.placeless (terminated d) (terminated e) :=
  (Alike.punct ";").bind fun t u htu => .pure (by simp [Derivation.placeless, h, htu])

private theorem parameter_alike : Alike Parameter.placeless parameter parameter := by
  refine Alike.name.bind fun n n' hn => (Alike.took "=").bind fun taken _ htaken => ?_
  obtain rfl : taken = _ := htaken
  cases taken with
  | true =>
    refine expression_alike.bind fun value value' hvalue => .pure ?_
    simp [Parameter.placeless, Token.text_of_placeless hn, hvalue]
  | false => exact .pure (by simp [Parameter.placeless, Token.text_of_placeless hn])

private theorem parameters_alike :
    Alike (List.map Parameter.placeless) parameters parameters :=
  (Alike.punct "(").bind fun _ _ _ => (listUntil_alike parameter_alike).bind fun _ _ h => .pure h

end Parts

section Productions

variable {sub : Rule Derivation} (h : Alike Derivation.placeless sub sub)

private theorem emptyStatement_alike : Alike Derivation.placeless emptyStatement emptyStatement :=
  (Alike.punct ";").bind fun t u htu => .pure (by simp [Derivation.placeless, htu])

include h

private theorem compound_alike : Alike Derivation.placeless (compound sub) (compound sub) := by
  have hblock : Alike (List.map Derivation.placeless) (loop (blockRound sub) [])
      (loop (blockRound sub) []) := by
    refine .loop (f := List.map Derivation.placeless) (fun as bs has => ?_) rfl
    refine (Alike.took "\x7d").bind fun taken _ htaken => ?_
    obtain rfl : taken = _ := htaken
    cases taken with
    | true => exact .pure (by simp [Round.view, has])
    | false => exact h.bind fun d e hde => .pure (by simp [Round.view, has, hde])
  refine .spanned_bind (List.map Derivation.placeless) ?_ fun items items' _ _ hitems => .pure ?_
  · exact (Alike.punct "\x7b").bind fun _ _ _ => hblock
  · simp [Derivation.placeless, hitems]

private theorem branch_alike : Alike Derivation.placeless (branch sub) (branch sub) := by
  refine .spanned_bind (fun v => (v.1.placeless, v.2.1.placeless, v.2.2.placeless)) ?_
    fun a b _ _ hab => ?_
  · refine (Alike.keyword "if").bind fun _ _ _ => (Alike.punct "(").bind fun _ _ _ => ?_
    refine expression_alike.bind fun c c' hc => (Alike.punct ")").bind fun _ _ _ => ?_
    refine h.bind fun d d' hd => ?_
    refine (Alike.accept fun _ => rfl).bind fun taken _ htaken => ?_
    obtain rfl : taken = _ := htaken
    cases taken with
    | true => exact h.bind fun e e' he => .pure (by simp [hc, hd, he])
    | false => exact .pure (by simp [hc, hd])
  · simp only [Prod.mk.injEq] at hab
    exact .pure (by simp [Derivation.placeless, hab])

private theorem moduleDef_alike : Alike Derivation.placeless (moduleDef sub) (moduleDef sub) := by
  refine .spanned_bind (fun v => (v.1.text, v.2.1.map Parameter.placeless, v.2.2.placeless)) ?_
    fun a b _ _ hab => ?_
  · refine (Alike.keyword "module").bind fun _ _ _ => Alike.name.bind fun n n' hn => ?_
    refine parameters_alike.bind fun params params' hparams => h.bind fun d d' hd => .pure ?_
    simp [Token.text_of_placeless hn, hparams, hd]
  · simp only [Prod.mk.injEq] at hab
    exact .pure (by simp [Derivation.placeless, hab])

omit h

private theorem functionDef_alike : Alike Derivation.placeless functionDef functionDef := by
  refine .spanned_bind (fun v => (v.1.text, v.2.1.map Parameter.placeless, v.2.2.placeless)) ?_
    fun a b _ _ hab => ?_
  · refine (Alike.keyword "function").bind fun _ _ _ => Alike.name.bind fun n n' hn => ?_
    refine parameters_alike.bind fun params params' hparams => ?_
    refine (Alike.punct "=").bind fun _ _ _ => ?_
    refine expression_alike.bind fun e e' he => .pure ?_
    simp [Token.text_of_placeless hn, hparams, he]
  · simp only [Prod.mk.injEq] at hab
    exact terminated_alike (by simp [Derivation.placeless, hab])

end Productions

section Statements

theorem isCall_of_placeless {d e : Expr} (h : d.placeless = e.placeless) (hd : d.IsCall) :
    ∃ n args args' span span', d = .call n args span ∧ e = .call n args' span' ∧
      args.map Argument.placeless = args'.map Argument.placeless := by
  obtain ⟨n, args, span, rfl⟩ := hd
  cases e <;> simp [Expr.mapTokens] at h
  obtain ⟨rfl, hargs⟩ := h
  exact ⟨n, args, _, span, _, rfl, rfl, hargs⟩

/-- What is no call stands for itself. -/
theorem simpleRest_eq {t : Token} {e : Expr} (h : ¬e.IsCall) :
    simpleRest t e = (do
      if ← took "=" then
        let (value, slice) ← sliced expression
        terminated (.assignment e t value ⟨t.offset, (Token.spanOf slice).stop⟩)
      else
        terminated (.expression e e.span)) := by
  cases e with
  | call n args span => exact absurd ⟨n, args, span, rfl⟩ h
  | _ => rfl

private theorem simpleRest_alike {t u : Token} {d e : Expr} (htu : t.placeless = u.placeless)
    (hde : d.placeless = e.placeless) :
    Alike Derivation.placeless (simpleRest t d) (simpleRest u e) := by
  have hvalue : Alike Derivation.placeless (do
      let (value, slice) ← sliced expression
      terminated (.assignment d t value ⟨t.offset, (Token.spanOf slice).stop⟩)) (do
      let (value, slice) ← sliced expression
      terminated (.assignment e u value ⟨u.offset, (Token.spanOf slice).stop⟩)) := by
    refine expression_alike.sliced.bind fun value value' hvalue => terminated_alike ?_
    simp [Derivation.placeless, htu, hde, hvalue]
  by_cases hcall : d.IsCall
  · obtain ⟨n, args, args', span, span', rfl, rfl, hargs⟩ := isCall_of_placeless hde hcall
    refine (Alike.took "=").bind fun taken _ htaken => ?_
    obtain rfl : taken = _ := htaken
    cases taken with
    | true => exact hvalue
    | false =>
      have hname := Token.congr_of_placeless (f := Token.isName) (fun _ => rfl) htu
      by_cases hu : u.isName
      · simpa [hname, hu] using terminated_alike (by simp [Derivation.placeless, hargs])
      · simpa [hname, hu] using Alike.refuse
  · have hcall' : ¬e.IsCall := by
      intro he
      obtain ⟨n, _, args, _, span, _, rfl, _⟩ := isCall_of_placeless hde.symm he
      exact hcall ⟨n, args, span, rfl⟩
    rw [simpleRest_eq hcall, simpleRest_eq hcall']
    refine (Alike.took "=").bind fun taken _ htaken => ?_
    obtain rfl : taken = _ := htaken
    cases taken with
    | true => exact hvalue
    | false => exact terminated_alike (by simp [Derivation.placeless, hde])

private theorem simple_alike : Alike Derivation.placeless simple simple := by
  intro ts us hts
  match ts, us, hts with
  | [], [], _ => rfl
  | t :: ts, u :: us, hts =>
    have hfirst := (List.cons.inj hts).1
    exact expression_alike.bind (fun d e hde => simpleRest_alike hfirst hde) _ _ hts

private theorem anyStatement_alike {sub : Rule Derivation}
    (h : Alike Derivation.placeless sub sub) :
    Alike Derivation.placeless (anyStatement sub) (anyStatement sub) := by
  intro ts us hts
  match ts, us, hts with
  | [], [], _ => rfl
  | t :: ts, u :: us, hts =>
    have hfirst := (List.cons.inj hts).1
    have hannounced := Token.congr_of_placeless (f := Production.announced?) (fun _ => rfl) hfirst
    simp only [anyStatement, hannounced]
    split
    · next p hp =>
      obtain ⟨rfl, _⟩ | ⟨rfl, _⟩ | ⟨rfl, _⟩ | ⟨rfl, _⟩ | ⟨rfl, _⟩ := announced?_cases hp
      · exact emptyStatement_alike _ _ hts
      · exact compound_alike h _ _ hts
      · exact branch_alike h _ _ hts
      · exact moduleDef_alike h _ _ hts
      · exact functionDef_alike _ _ hts
    · exact simple_alike _ _ hts

theorem statement_alike : Alike Derivation.placeless statement statement :=
  .knot fun _ => anyStatement_alike

theorem program_alike : Alike (List.map fun s => s.1.placeless) program program := by
  refine .loop (f := List.map fun s => s.1.placeless) (fun as bs has => ?_) rfl
  refine (Alike.look fun ts => by cases ts <;> rfl).bind fun ended _ hended => ?_
  obtain rfl : ended = _ := hended
  cases ended with
  | true => exact .pure (by simp [Round.view, has])
  | false =>
    exact statement_alike.sliced.bind fun s s' hs => .pure (by simp [Round.view, has, hs])

end Statements

/-- Tokens that differ in their places only are the same program, or are refused for the same
reason. -/
theorem parseTokens_placeless {ts us : List Token}
    (h : ts.map Token.placeless = us.map Token.placeless) :
    (∃ d e, parseTokens ts = .ok d ∧ parseTokens us = .ok e ∧ d.placeless = e.placeless) ∨
      ∃ e f, parseTokens ts = .error e ∧ parseTokens us = .error f ∧ e.placeless = f.placeless := by
  have hsame := program_alike ts us h
  cases hts : program ts <;> cases hus : program us <;>
    simp only [hts, hus, Outcome.view, Prod.mk.injEq, Option.some.injEq, reduceCtorEq, false_and,
      true_and] at hsame
  case done.done =>
    refine .inl ⟨_, _, parseTokens_of_done hts, parseTokens_of_done hus, ?_⟩
    simpa [Derivation.placeless, Function.comp_def] using hsame.1
  case stuck.stuck rest left =>
    cases rest <;> cases left
    case nil.nil => exact .inr ⟨_, _, parseTokens_of_ended hts, parseTokens_of_ended hus, rfl⟩
    case nil.cons => cases hsame
    case cons.nil => cases hsame
    case cons.cons =>
      refine .inr ⟨_, _, parseTokens_of_stuck hts, parseTokens_of_stuck hus, ?_⟩
      exact congrArg ParseError.unexpectedToken (List.cons.inj hsame).1

end SolidScript.Grammar
