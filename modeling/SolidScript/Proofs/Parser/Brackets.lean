import SolidScript.Proofs.Grammar.Prediction.Production
import SolidScript.Proofs.Parser.Refusal

namespace SolidScript

/-- What is read from a first token to a last one covers the bytes between them. -/
theorem spanOf_consumed {first last : Token} {us rest : List Token} (h : last :: rest <:+ us) :
    Token.spanOf (consumed (first :: us) rest) = ⟨first.offset, last.stop⟩ := by
  obtain ⟨front, rfl⟩ := h
  have hsplit : first :: (front ++ last :: rest) = (first :: front ++ [last]) ++ rest := by simp
  rw [hsplit, consumed_append]
  exact Token.spanOf_between rfl List.getLast?_concat

namespace Parser

section Closed

variable {α β γ : Type} {part : Parser (α × Token)} {rule : Rule (α × Token)} {q : Token → Bool}
  {first : Token} {us : List Token}

/-- What stands between a first token and the one that closes it, with the bytes from the one to the
other, and what follows. -/
theorem Simulates.closed {retreat : Retreat} {g : β × Span → Parser γ} {f : β × Span → Rule γ}
    (hfirst : q first) (h : Simulates part rule .never us) (hlast : rule.ClosesAt us)
    (value : Token → α → β)
    (hnext : ∀ v last rest, rule us = .done (v, last) rest →
      Simulates (g (value first v, ⟨first.offset, last.stop⟩))
        (f (value first v, ⟨first.offset, last.stop⟩)) retreat rest) :
    Simulates (do
        let found ← Parser.spanned do
          let first ← Parser.token q
          let (v, _) ← part
          return value first v
        g found)
      (fun _ => (do
        let (v, last) ← rule
        f (value first v, ⟨first.offset, last.stop⟩) : Rule γ) us)
      retreat (first :: us) := by
  have hblock : Simulates (do
        let first ← Parser.token q
        let (v, _) ← part
        return value first v)
      (fun _ => (do return value first (← rule).1 : Rule β) us) .never (first :: us) := by
    change Attempt.Follows _ _ _ _
    rw [bind_token_of_satisfies hfirst]
    exact Attempt.Follows.widen (h.map fun found => value first found.1) (List.suffix_cons first us)
  have hspan : Rule.spanned (fun _ => (do return value first (← rule).1 : Rule β) us)
      (first :: us) = (do
        let (v, last) ← rule
        return (value first v, ⟨first.offset, last.stop⟩) : Rule (β × Span)) us := by
    rw [Rule.bind_apply, Rule.bind_apply]
    cases hread : rule us with
    | stuck rest => simp [Rule.spanned, Rule.sliced]
    | done found rest =>
      obtain ⟨v, last⟩ := found
      simp [Rule.spanned, Rule.sliced, spanOf_consumed (hlast _ _ _ hread)]
  have hall := hblock.spanned.bind_never fun found rest hfound _ => by
    rw [hspan] at hfound
    obtain ⟨⟨v, last⟩, mid, hread, hpure⟩ := Rule.bind_eq_done_iff.mp hfound
    cases hpure
    exact hnext v last rest hread
  change Attempt.Follows _ _ _ _ at hall
  rw [Rule.bind_apply, hspan, ← Rule.bind_apply, bind_assoc] at hall
  exact hall

end Closed

end Parser

namespace Grammar

open Rule

/-- A range behind its first part and the colon, with the closing bracket. -/
def rangeRest (sub : Rule Expr) (a : Expr) : Rule ((Expr × Expr × Option Expr) × Token) := do
  let b ← sub
  if ← took ":" then
    let c ← sub
    return ((a, b, some c), ← punct "]")
  else
    return ((a, b, none), ← punct "]")

/-- A range behind its opening bracket, with the closing one. -/
def rangeParts (sub : Rule Expr) : Rule ((Expr × Expr × Option Expr) × Token) := do
  let a ← sub
  let _ ← punct ":"
  rangeRest sub a

end Grammar

/-- A range of two or three parts. -/
def Expr.rangeOf (parts : Expr × Expr × Option Expr) (span : Span) : Expr :=
  match parts with
  | (a, b, some c) => .steppedRange a b c span
  | (a, b, none) => .range a b span

namespace Grammar

open Rule

variable {first t : Token} {us vs : List Token} {a : Expr}

/-- Brackets are a range if a colon follows the first expression. -/
theorem bracketed_of_colon (hfirst : first.isPunct "[") (ha : expression us = .done a (t :: vs))
    (ht : t.isPunct ":") : bracketed expression (first :: us) = (do
      let (parts, last) ← rangeParts expression
      return Expr.rangeOf parts ⟨first.offset, last.stop⟩ : Rule Expr) us := by
  have hclosing := elements_closing.closing_eq ha
  rw [bracketed, bind_of_done (punct_of_isPunct hfirst us), bind_of_done hclosing]
  change (expression >>= _) us = _
  rw [bind_of_done ha, bind_of_done (took_of_isPunct ht vs), if_pos rfl, rangeParts, bind_assoc,
    bind_of_done ha, bind_assoc, bind_of_done (punct_of_isPunct ht vs), rangeRest, bind_assoc]
  refine congrArg (fun more => (expression >>= more) vs) (funext fun b => ?_)
  rw [bind_assoc]
  refine congrArg (took ":" >>= ·) (funext fun taken => ?_)
  cases taken with
  | true => simp only [if_true, bind_assoc, pure_bind, Expr.rangeOf]
  | false => simp only [Bool.false_eq_true, if_false, bind_assoc, pure_bind, Expr.rangeOf]

/-- Otherwise they are a vector. -/
theorem bracketed_of_not_colon (hfirst : first.isPunct "[")
    (h : ∀ a mid, expression us = .done a mid → ∀ t ∈ mid.head?, t.isPunct ":" = false) :
    bracketed expression (first :: us) = (do
      let (elements, last) ← listUntil "]" expression
      return .vector elements ⟨first.offset, last.stop⟩ : Rule Expr) us := by
  by_cases hclose : ∀ t ∈ us.head?, t.isPunct "]" = false
  · rw [bracketed, bind_of_done (punct_of_isPunct hfirst us), bind_of_done (closing_of_not hclose),
      bind_apply (listUntil "]" expression), listUntil_of_not_close expression_takes hclose,
      ← bind_apply, bind_assoc]
    change (expression >>= _) us = _
    cases ha : expression us with
    | stuck rest => rw [bind_of_stuck ha, bind_of_stuck ha]
    | done a mid =>
      rw [bind_of_done ha, bind_of_done ha, bind_of_done (took_of_not (h a mid ha)),
        if_neg (by decide), bind_assoc]
      refine congrArg (fun more => (took "," >>= more) mid) (funext fun taken => ?_)
      cases taken with
      | true => simp only [if_true, bind_assoc, pure_bind]
      | false => simp only [Bool.false_eq_true, if_false, bind_assoc, pure_bind]
  · obtain ⟨t, us, rfl, ht⟩ := exists_cons_of_not hclose
    have hlist : listUntil "]" expression (t :: us) = .done ([], t) us := rounds_of_close ht _ us
    rw [bracketed, bind_of_done (punct_of_isPunct hfirst _),
      bind_of_done (closing_of_isPunct ht us), bind_of_done hlist]

end Grammar

namespace Parser

open Grammar (closers bracketed expression_takes expression_of_closer)

/-- A range behind its opening bracket, with the closing one. -/
def rangeParts (sub : Parser Expr) : Parser ((Expr × Expr × Option Expr) × Token) := do
  let a ← sub
  let _ ← punct ":"
  let b ← sub
  let c? ← orNot do
    let _ ← punct ":"
    sub
  return ((a, b, c?), ← punct "]")

theorem range_eq (sub : Parser Expr) : range sub = do
    let (parts, span) ← spanned do
      let _ ← punct "["
      let (parts, _) ← rangeParts sub
      return parts
    return Expr.rangeOf parts span := by
  rw [range, rangeParts]
  simp only [bind_assoc, pure_bind]
  refine congrArg (spanned _ >>= ·) (funext fun ((a, b, c?), span) => ?_)
  cases c? <;> rfl

theorem vector_eq (sub : Parser Expr) : vector sub = do
    let (elements, span) ← spanned do
      let _ ← punct "["
      let (elements, _) ← (do
        let elements ← separated sub
        return (elements, ← punct "]") : Parser (List Expr × Token))
      return elements
    return .vector elements span := by
  rw [vector]
  simp only [bind_assoc, pure_bind]

section Brackets

variable {sub : Parser Expr} {first : Token} {us : List Token}
  (hsub : ∀ vs, vs.length ≤ us.length → Simulates sub Grammar.expression (.symbols openers) vs)

theorem openers_not_closer : ∀ s ∈ openers, s ∉ closers := by decide

/-- Behind an expression that has been cut short there is nothing that closes it. -/
theorem refuses_closer {mid rest : List Token} {s : String} (h : Retreat.symbols openers mid rest)
    (hs : s ∈ closers) : (punct s).Refuses mid :=
  refuses_punct (Retreat.not_closer openers_not_closer hs h)

include hsub

theorem rangeRest_simulates (a : Expr) : Simulates (do
      let b ← sub
      let c? ← orNot do
        let _ ← punct ":"
        sub
      return ((a, b, c?), ← punct "]")) (Grammar.rangeRest Grammar.expression a) .never us := by
  refine (hsub us (Nat.le_refl _)).bind_refused (fun b mid _ hmid => ?_) fun b mid rest hback => ?_
  · have hthird : ∀ t vs, mid = t :: vs → t.isPunct ":" →
        Simulates sub Grammar.expression (.symbols openers) vs := by
      rintro t vs rfl _
      exact hsub vs (Nat.le_trans (Nat.le_succ _) hmid.length_le)
    refine Simulates.optional (f := fun c? => do return ((a, b, c?), ← Rule.punct "]")) hthird
      ?_ ?_ ?_ ?_
    · exact fun t vs c left _ _ _ => (Simulates.token _).map _
    · exact fun _ => (Simulates.token _).map _
    · exact fun c left rest hfurther hback =>
        ((refuses_closer hback (by decide)).bind _).retreats (Nat.le_of_lt hfurther)
    · rintro t vs rest rfl ht _ hrest
      have hlast : (punct "]").Refuses (t :: vs) := by
        refine refuses_punct ?_
        rintro _ ⟨⟩
        exact Token.not_isPunct_of_isPunct ht (by decide)
      exact (hlast.bind _).retreats (Nat.le_trans hrest.length_le (Nat.le_succ _))
  · exact ((refuses_closer hback (by decide)).bind _).orNot_bind
      ((refuses_closer hback (by decide)).bind _)

theorem rangeParts_simulates :
    Simulates (rangeParts sub) (Grammar.rangeParts Grammar.expression) .never us := by
  refine (hsub us (Nat.le_refl _)).bind_refused (fun a mid _ hmid => ?_) fun a mid rest hback => ?_
  · refine (Simulates.token _).bind_never fun _ vs _ hvs => ?_
    have hlen := Nat.le_trans hvs.length_le hmid.length_le
    exact rangeRest_simulates (fun ws hws => hsub ws (Nat.le_trans hws hlen)) a
  · exact (refuses_closer hback (by decide)).bind _

omit hsub in
/-- An expression does not begin with a closer. -/
theorem not_closer_of_done {a : Expr} {mid : List Token} {s : String}
    (ha : Grammar.expression us = .done a mid) (hs : s ∈ closers) :
    ∀ t ∈ us.head?, t.isPunct s = false := by
  cases us with
  | nil => exact fun _ => nofun
  | cons t us =>
    rintro _ ⟨⟩
    exact Grammar.not_closer_of_expression hs ha

theorem elements_simulates : Simulates (do
      let elements ← separated sub
      return (elements, ← punct "]")) (Rule.listUntil "]" Grammar.expression) .never us := by
  refine Simulates.list hsub (fun t vs hlen ht => ?_) fun mid rest hback t ht => ?_
  · exact (hsub (t :: vs) hlen).refuses_of_stuck (expression_of_closer (by decide) ht vs)
  · exact ⟨Retreat.not_closer openers_not_closer (by decide) hback t ht,
      Retreat.not_closer openers_not_closer (by decide) hback t ht⟩

/-- A vector comes at least as far as its first element. -/
theorem elements_rest {a : Expr} {mid : List Token} (ha : Grammar.expression us = .done a mid)
    (hclose : ∀ t ∈ us.head?, t.isPunct "]" = false) :
    (Rule.listUntil "]" Grammar.expression us).rest <:+ mid := by
  have hmid := ((hsub us (Nat.le_refl _)).done ha).1
  rw [Rule.listUntil_of_not_close expression_takes hclose, Rule.bind_of_done ha]
  by_cases hcomma : ∀ t ∈ mid.head?, t.isPunct "," = false
  · rw [Rule.bind_of_done (Rule.took_of_not hcomma)]
    exact ((Simulates.token _).map _).rest_suffix
  · obtain ⟨t, left, rfl, ht⟩ := Rule.exists_cons_of_not hcomma
    have hlen : left.length ≤ us.length := Nat.le_trans (Nat.le_succ _) hmid.length_le
    have hothers := elements_simulates fun vs hvs => hsub vs (Nat.le_trans hvs hlen)
    rw [Rule.bind_of_done (Rule.took_of_isPunct ht left)]
    exact (hothers.map _).rest_suffix.trans (List.suffix_cons t left)

omit hsub in
theorem rangeParts_closesAt : (Grammar.rangeParts Grammar.expression).ClosesAt us := by
  have hexpression {ts rest : List Token} {e : Expr} (h : Grammar.expression ts = .done e rest) :
      rest <:+ ts := (Grammar.expression_predictsAt ts).suffix h
  refine .bind (fun _ _ => hexpression) fun a _ _ => ?_
  refine .bind (fun t vs h => (Rule.token_eq_done h).2 ▸ List.suffix_cons t vs) fun _ _ _ => ?_
  refine .bind (fun _ _ => hexpression) fun b _ _ => ?_
  refine .bind (fun _ _ => Rule.accept_suffix) fun taken _ _ => ?_
  cases taken with
  | true => exact .bind (fun _ _ => hexpression) fun c _ _ => .token _
  | false => exact .token _

theorem range_simulates (hfirst : first.isPunct "[") : Simulates (range sub) (fun _ => (do
      let (parts, last) ← Grammar.rangeParts Grammar.expression
      return Expr.rangeOf parts ⟨first.offset, last.stop⟩ : Rule Expr) us)
      .never (first :: us) := by
  rw [range_eq]
  exact Simulates.closed (q := (·.isPunct "["))
    (f := fun (parts, span) => (return Expr.rangeOf parts span : Rule Expr)) hfirst
    (rangeParts_simulates hsub) rangeParts_closesAt (fun _ parts => parts) fun _ _ _ _ => .pure _

theorem vector_simulates (hfirst : first.isPunct "[") : Simulates (vector sub) (fun _ => (do
      let (elements, last) ← Rule.listUntil "]" Grammar.expression
      return .vector elements ⟨first.offset, last.stop⟩ : Rule Expr) us)
      .never (first :: us) := by
  rw [vector_eq]
  exact Simulates.closed (q := (·.isPunct "["))
    (f := fun (elements, span) => (return .vector elements span : Rule Expr)) hfirst
    (elements_simulates hsub)
    (Rule.closesAt_listUntil fun h => (Grammar.expression_predictsAt _).suffix h)
    (fun _ elements => elements) fun _ _ _ _ => .pure _

/-- A vector fails at the colon behind its first element. -/
theorem vector_of_colon {a : Expr} {t : Token} {vs : List Token} (hfirst : first.isPunct "[")
    (ha : Grammar.expression us = .done a (t :: vs)) (ht : t.isPunct ":") :
    (vector sub (first :: us)).value? = none ∧
      (vector sub (first :: us)).left? = some (vs.length + 1) := by
  have hread : Rule.listUntil "]" Grammar.expression us = .stuck (t :: vs) := by
    rw [Rule.listUntil_of_not_close expression_takes, Rule.bind_of_done ha,
      Rule.bind_of_done (Rule.took_of_other ht (by decide) vs)]
    · simp [Rule.punct, Rule.token, Token.not_isPunct_of_isPunct ht (b := "]") (by decide)]
    · exact not_closer_of_done ha (by decide)
  have h := vector_simulates hsub hfirst
  have hstuck : (fun _ => (do
      let (elements, last) ← Rule.listUntil "]" Grammar.expression
      return .vector elements ⟨first.offset, last.stop⟩ : Rule Expr) us) (first :: us) =
      .stuck (t :: vs) := Rule.bind_of_stuck hread _
  exact ⟨h.value?_of_stuck hstuck, (h.stuck hstuck).2.1⟩

/-- If no colon follows the first expression, a range fails, and a vector comes at least as far. -/
theorem rangeParts_of_not_colon
    (h : ∀ a mid, Grammar.expression us = .done a mid → ∀ t ∈ mid.head?, t.isPunct ":" = false) :
    ∃ rest, Grammar.rangeParts Grammar.expression us = .stuck rest ∧
      (Rule.listUntil "]" Grammar.expression us).rest <:+ rest := by
  cases ha : Grammar.expression us with
  | stuck rest =>
    refine ⟨rest, Rule.bind_of_stuck ha _, ?_⟩
    by_cases hclose : ∀ t ∈ us.head?, t.isPunct "]" = false
    · rw [Rule.listUntil_of_not_close expression_takes hclose, Rule.bind_of_stuck ha]
      exact List.suffix_refl rest
    · obtain ⟨t, vs, rfl, ht⟩ := Rule.exists_cons_of_not hclose
      rw [expression_of_closer (by decide) ht] at ha
      cases ha
      exact (elements_simulates hsub).rest_suffix
  | done a mid =>
    refine ⟨mid, ?_, elements_rest hsub ha (not_closer_of_done ha (by decide))⟩
    rw [Grammar.rangeParts, Rule.bind_of_done ha]
    exact Rule.bind_of_stuck (Rule.token_of_not (h a mid ha)) _

/-- What stands in brackets is a range or a vector. The one that is not meant does not come further
than the other one. -/
theorem brackets_simulates (hfirst : first.isPunct "[") :
    Simulates (choice [range sub, vector sub]) (bracketed Grammar.expression) .never
      (first :: us) := by
  by_cases hcolon : ∃ a t vs, Grammar.expression us = .done a (t :: vs) ∧ t.isPunct ":"
  · obtain ⟨a, t, vs, ha, ht⟩ := hcolon
    obtain ⟨hnone, hleft⟩ := vector_of_colon hsub hfirst ha ht
    have hbracketed := Grammar.bracketed_of_colon hfirst ha ht
    have hrange : Simulates (range sub) (bracketed Grammar.expression) .never (first :: us) := by
      rw [Simulates, hbracketed]
      exact range_simulates hsub hfirst
    have hrest : (bracketed Grammar.expression (first :: us)).rest <:+ vs := by
      have hvs : vs.length ≤ us.length :=
        Nat.le_trans (Nat.le_succ _) ((hsub us (Nat.le_refl _)).done ha).1.length_le
      have hmore := rangeRest_simulates (fun ws hws => hsub ws (Nat.le_trans hws hvs)) a
      rw [hbracketed, Grammar.rangeParts, bind_assoc, Rule.bind_of_done ha, bind_assoc,
        Rule.bind_of_done (Rule.punct_of_isPunct ht vs)]
      exact (hmore.map _).rest_suffix
    refine hrange.orElse_right ?_ ?_ <;> rw [choice_singleton]
    · exact hnone
    · intro n hn
      rw [hleft] at hn
      exact Option.some.inj hn ▸ Nat.le_trans hrest.length_le (Nat.le_succ _)
  · have hnot : ∀ a mid, Grammar.expression us = .done a mid →
        ∀ t ∈ mid.head?, t.isPunct ":" = false := by
      intro a mid ha t ht
      obtain ⟨vs, rfl⟩ := List.head?_eq_some_iff.mp ht
      exact Bool.eq_false_iff.mpr fun hpunct => hcolon ⟨a, t, vs, ha, hpunct⟩
    have hbracketed := Grammar.bracketed_of_not_colon hfirst hnot
    obtain ⟨rest, hparts, hrest⟩ := rangeParts_of_not_colon hsub hnot
    have hrange := range_simulates hsub hfirst
    have hstuck := Rule.bind_of_stuck hparts fun found =>
      (return Expr.rangeOf found.1 ⟨first.offset, found.2.stop⟩ : Rule Expr)
    have hvector : Simulates (vector sub) (bracketed Grammar.expression) .never (first :: us) := by
      rw [Simulates, hbracketed]
      exact vector_simulates hsub hfirst
    rw [← choice_singleton (vector sub)] at hvector
    refine hvector.orElse_left (hrange.value?_of_stuck hstuck) ?_
    rw [hbracketed, Rule.rest_map]
    exact (hrange.stuck hstuck).2.2.within.mono hrest.length_le

end Brackets

end Parser

end SolidScript
