import SolidScript.Proofs.Grammar.Blindness
import SolidScript.Proofs.Grammar.Predictive.Expression

namespace SolidScript.Grammar

open Rule

section Lists

variable {α γ : Type} {close : String} {item : Rule α} {seen : α → γ}

theorem listRound_alike (h : Alike seen item item) {as bs : List α}
    (has : as.map seen = bs.map seen) :
    Alike (Round.view (List.map seen) fun v => v.1.map seen) (listRound close item as)
      (listRound close item bs) := by
  refine (Alike.closing close).bind fun found found' hfound => ?_
  match found, found', hfound with
  | some last, some last', _ => exact .pure (by simp [Round.view, has])
  | none, none, _ =>
    refine h.bind fun next next' hnext => (Alike.took ",").bind fun taken _ htaken => ?_
    obtain rfl : taken = _ := htaken
    cases taken with
    | true => exact .pure (by simp [Round.view, has, hnext])
    | false =>
      refine (Alike.punct close).bind fun last last' _ => .pure ?_
      simp [Round.view, has, hnext]

theorem listUntil_alike (h : Alike seen item item) :
    Alike (fun v => v.1.map seen) (listUntil close item) (listUntil close item) :=
  .loop (fun _ _ => listRound_alike h) rfl

end Lists

section Expressions

variable {sub operand : Rule Expr} (h : Alike Expr.placeless sub sub)

include h

theorem argument_alike : Alike Argument.placeless (argument sub) (argument sub) := by
  have hlook (ts : List Token) : startsNamed (ts.map Token.placeless) = startsNamed ts := by
    match ts with
    | [] => rfl
    | [t] => rfl
    | t :: u :: ts => rfl
  refine (Alike.look hlook).bind fun named _ hnamed => ?_
  obtain rfl : named = _ := hnamed
  cases named with
  | true =>
    refine Alike.name.bind fun n n' hn => (Alike.punct "=").bind fun _ _ _ => ?_
    refine h.bind fun value value' hvalue => .pure ?_
    simp [Argument.mapTokens, Token.text_of_placeless hn, hvalue]
  | false =>
    refine h.bind fun value value' hvalue => .pure ?_
    simp [Argument.mapTokens, hvalue]

theorem arguments_alike :
    Alike (fun v => v.1.map Argument.placeless) (arguments sub) (arguments sub) :=
  (Alike.punct "(").bind fun _ _ _ => listUntil_alike (argument_alike h)

private theorem nameOrCall_alike : Alike Expr.placeless (nameOrCall sub) (nameOrCall sub) := by
  refine Alike.name.bind fun n n' hn => ?_
  refine (Alike.look fun ts => by cases ts <;> rfl).bind fun called _ hcalled => ?_
  obtain rfl : called = _ := hcalled
  cases called with
  | true =>
    refine (arguments_alike h).bind fun args args' hargs => .pure ?_
    simp [Expr.mapTokens, Token.text_of_placeless hn, hargs]
  | false => exact .pure (by simp [Expr.mapTokens, Token.text_of_placeless hn, hn])

private theorem bracketed_alike : Alike Expr.placeless (bracketed sub) (bracketed sub) := by
  refine (Alike.punct "[").bind fun _ _ _ => (Alike.closing "]").bind fun found found' hfound => ?_
  match found, found', hfound with
  | some last, some last', _ => exact .pure (by simp [Expr.mapTokens])
  | none, none, _ =>
    refine h.bind fun a a' ha => (Alike.took ":").bind fun colon _ hcolon => ?_
    obtain rfl : colon = _ := hcolon
    cases colon with
    | true =>
      refine h.bind fun b b' hb => (Alike.took ":").bind fun again _ hagain => ?_
      obtain rfl : again = _ := hagain
      cases again with
      | true =>
        refine h.bind fun c c' hc => (Alike.punct "]").bind fun _ _ _ => .pure ?_
        simp [Expr.mapTokens, ha, hb, hc]
      | false =>
        refine (Alike.punct "]").bind fun _ _ _ => .pure ?_
        simp [Expr.mapTokens, ha, hb]
    | false =>
      refine (Alike.took ",").bind fun comma _ hcomma => ?_
      obtain rfl : comma = _ := hcomma
      cases comma with
      | true =>
        refine (listUntil_alike h).bind fun others others' hothers => .pure ?_
        simp [Expr.mapTokens, ha, hothers]
      | false =>
        refine (Alike.punct "]").bind fun _ _ _ => .pure ?_
        simp [Expr.mapTokens, ha]

private theorem parenthesised_alike :
    Alike Expr.placeless (parenthesised sub) (parenthesised sub) :=
  (Alike.punct "(").bind fun _ _ _ => h.bind fun _ _ he => (Alike.punct ")").bind fun _ _ _ =>
    .pure he

private theorem primary_alike : Alike Expr.placeless (primary sub) (primary sub) := by
  intro ts us hts
  match ts, us, hts with
  | [], [], _ => rfl
  | t :: ts, u :: us, hts =>
    obtain ⟨hfirst, hrest⟩ := List.cons.inj hts
    have hliteral := Token.congr_of_placeless (f := Literal.ofToken?) (fun _ => rfl) hfirst
    have hname := Token.congr_of_placeless (f := Token.isName) (fun _ => rfl) hfirst
    have hpunct (s : String) := Token.congr_of_placeless (f := (·.isPunct s)) (fun _ => rfl) hfirst
    simp only [primary, hliteral, hname, hpunct]
    split
    · simp [Outcome.view, Expr.mapTokens, hfirst, hrest]
    · split
      · exact nameOrCall_alike h _ _ hts
      · split
        · exact bracketed_alike h _ _ hts
        · split
          · exact parenthesised_alike h _ _ hts
          · simp [Outcome.view, hfirst, hrest]

private theorem indexed_alike : Alike Expr.placeless (indexed sub) (indexed sub) := by
  refine (primary_alike h).bind fun object object' hobject => .loop (fun a b hab => ?_) hobject
  refine (Alike.took "[").bind fun taken _ htaken => ?_
  obtain rfl : taken = _ := htaken
  cases taken with
  | true =>
    refine h.bind fun i i' hi => (Alike.punct "]").bind fun _ _ _ => .pure ?_
    simp [Round.view, Expr.mapTokens, hab, hi]
  | false => exact .pure (by simp [Round.view, hab])

omit h

private theorem unary_alike (h : Alike Expr.placeless operand operand) :
    Alike Expr.placeless (unary operand) (unary operand) := by
  intro ts us hts
  induction ts generalizing us with
  | nil =>
    obtain rfl := List.map_eq_nil_iff.mp hts.symm
    exact h [] [] rfl
  | cons t ts ih =>
    match us, hts with
    | u :: us, hts =>
      obtain ⟨hfirst, hrest⟩ := List.cons.inj hts
      have hop := Token.congr_of_placeless (f := unaryOp?) (fun _ => rfl) hfirst
      have hinner := ih us hrest
      simp only [unary, hop]
      split
      · cases hread : unary operand ts <;> cases hread' : unary operand us <;>
          simp_all [Outcome.view, Outcome.map, Expr.mapTokens]
      · exact h _ _ hts

private theorem levelled_alike (level : List BinaryOp) (h : Alike Expr.placeless operand operand) :
    Alike Expr.placeless (levelled level operand) (levelled level operand) := by
  refine h.bind fun left left' hleft => .loop (fun a b hab => ?_) hleft
  have hop (t u : Token) (htu : t.placeless = u.placeless) :
      (binaryOp? level t).map id = (binaryOp? level u).map id :=
    Token.congr_of_placeless (f := fun t => (binaryOp? level t).map id) (fun _ => rfl) htu
  refine (Alike.optional hop).bind fun op op' hsame => ?_
  match op, op', hsame with
  | some op, some _, rfl =>
    refine h.bind fun right right' hright => .pure ?_
    simp [Round.view, Expr.mapTokens, hab, hright]
  | none, none, _ => exact .pure (by simp [Round.view, hab])

private theorem operation_alike (h : Alike Expr.placeless sub sub) :
    Alike Expr.placeless (operation sub) (operation sub) := by
  unfold operation
  have hunary := unary_alike (indexed_alike h)
  generalize unary (indexed sub) = first at hunary ⊢
  induction BinaryOp.levels generalizing first with
  | nil => exact hunary
  | cons level levels ih => exact ih _ (levelled_alike level hunary)

theorem conditional_alike (h : Alike Expr.placeless sub sub) :
    Alike Expr.placeless (conditional sub) (conditional sub) := by
  refine (operation_alike h).bind fun condition condition' hcondition => ?_
  refine (Alike.took "?").bind fun asked _ hasked => ?_
  obtain rfl : asked = _ := hasked
  cases asked with
  | true =>
    refine h.bind fun a a' ha => (Alike.punct ":").bind fun _ _ _ => ?_
    refine h.bind fun b b' hb => .pure ?_
    simp [Expr.mapTokens, hcondition, ha, hb]
  | false => exact .pure hcondition

theorem expression_alike : Alike Expr.placeless expression expression :=
  .knot fun _ => conditional_alike

end Expressions

end SolidScript.Grammar
