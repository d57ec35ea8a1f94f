import SolidScript.Proofs.Grammar.Precedence
import SolidScript.Proofs.Grammar.Prediction.Expression

namespace SolidScript.Grammar

open Rule

/-- A closer cannot begin an expression. -/
theorem expression_of_closer {t : Token} {s : String} (hs : s ∈ closers) (ht : t.isPunct s)
    (ts : List Token) : expression (t :: ts) = .stuck (t :: ts) := by
  have hother {a : String} (hne : a ∉ closers) : t.isPunct a = false :=
    Token.not_isPunct_of_isPunct ht fun heq => hne (heq ▸ hs)
  have hop : unaryOp? t = none := by
    have hunary : ∀ op ∈ UnaryOp.all, op.symbol ∉ closers := by decide
    exact List.find?_eq_none.mpr fun op hop => by simp [hother (hunary op hop)]
  refine expression_stuck hop ?_
  simp [primary, ofToken?_of_isPunct ht, Token.not_isName_of_isPunct ht,
    hother (a := "[") (by decide), hother (a := "(") (by decide)]

theorem not_closer_of_expression {t : Token} {ts rest : List Token} {v : Expr} {s : String}
    (hs : s ∈ closers) (h : expression (t :: ts) = .done v rest) : t.isPunct s = false := by
  refine Bool.eq_false_iff.mpr fun ht => ?_
  rw [expression_of_closer hs ht] at h
  cases h

/-- The tokens are items with commas between them, and are read as the values; one more comma may
follow the last item. -/
inductive Listed {α : Type} (item : Rule α) (follow : Follow) : List Token → List α → Prop
  | nil : Listed item follow [] []
  | one {us : List Token} {v : α} (hread : Reads item us v follow) : Listed item follow us [v]
  | more {us ts : List Token} {v : α} {vs : List α} {comma : Token}
      (hread : Reads item us v follow) (hcomma : comma.isPunct ",")
      (hrest : Listed item follow ts vs) : Listed item follow (us ++ comma :: ts) (v :: vs)

/-- The items of a list before its end: none of them begins with the closing punctuation, and all
of them stop at it and at commas. -/
structure Closing {α : Type} (item : Rule α) (follow : Follow) (close : String) : Prop where
  takes : Takes (fun _ => 1) item
  start : ∀ {t ts v rest}, item (t :: ts) = .done v rest → t.isPunct close = false
  stops : ∀ {t : Token}, t.isPunct close ∨ t.isPunct "," → follow (some t)
  comma : close ≠ ","

namespace Closing

variable {α : Type} {item : Rule α} {follow : Follow} {close : String}

/-- At an item there is no closing punctuation. -/
theorem closing_eq (h : Closing item follow close) {us rest : List Token} {v : α}
    (hread : item us = .done v rest) : closing close us = .done none us := by
  cases us with
  | nil =>
    have htakes : rest.length + 1 ≤ 0 := h.takes [] v rest hread
    omega
  | cons t us =>
    apply closing_of_not
    rintro _ ⟨⟩
    exact h.start hread

theorem loop_eq (h : Closing item follow close) {us rest : List Token} {vs items : List α}
    {last : Token} (hlast : last.isPunct close) (hus : Listed item follow us vs) :
    loop (listRound close item) items (us ++ last :: rest) = .done (items ++ vs, last) rest := by
  induction hus generalizing items with
  | nil =>
    apply loop_of_finished
    simp [listRound, closing_of_isPunct hlast]
  | one hread =>
    have hitem := hread (last :: rest) (h.stops (.inl hlast))
    apply loop_of_finished
    simp [listRound, h.closing_eq hitem, hitem, took_of_other hlast h.comma, punct_of_isPunct hlast]
  | @more us ts v vs comma hread hcomma hrest ih =>
    have hitem := hread (comma :: (ts ++ last :: rest)) (h.stops (.inr hcomma))
    have hround : listRound close item items (us ++ comma :: (ts ++ last :: rest)) =
        .done (.again (items ++ [v])) (ts ++ last :: rest) := by
      simp [listRound, h.closing_eq hitem, hitem, took_of_isPunct hcomma]
    have htakes (items : List α) : Takes Round.cost (listRound close item items) :=
      Agree.takes_of_forall fun _ => listRound_agree (.of_takes h.takes)
    rw [List.append_assoc, List.cons_append, Rule.loop_eq items htakes, bind_apply, hround]
    change loop (listRound close item) (items ++ [v]) _ = _
    rw [ih, List.append_assoc, List.singleton_append]

end Closing

section Vectors

variable {us vs ws : List Token} {t u first last : Token}

theorem elements_closing : Closing expression (Follow.symbols closers) "]" where
  takes := expression_takes
  start := not_closer_of_expression (by decide)
  stops h := h.elim (Follow.symbols_some (by decide)) (Follow.symbols_some (by decide))
  comma := by decide

/-- Items with commas between them are a vector. -/
theorem ReadsAt.vector {elements values : List Expr} {span : Span} (hfirst : first.isPunct "[")
    (hlast : last.isPunct "]") (hvalues : values.map Expr.erase = elements.map Expr.erase)
    (h : Listed expression (Follow.symbols closers) us values) :
    ReadsAt 0 (first :: (us ++ [last])) (.vector elements span) := by
  refine ⟨.vector values ⟨first.offset, last.stop⟩, ?_, fun rest _ => ?_⟩
  · simp only [Expr.mapTokens, Expr.mapTokensAll_eq, hvalues]
  change primary expression (first :: (us ++ [last] ++ rest)) = .done _ rest
  rw [primary_of_square hfirst, List.append_assoc, List.singleton_append]
  cases h with
  | nil => simp [bracketed, punct_of_isPunct hfirst, closing_of_isPunct hlast]
  | one hread =>
    have hitem := hread (last :: rest) (elements_closing.stops (.inl hlast))
    simp [bracketed, punct_of_isPunct hfirst, elements_closing.closing_eq hitem, hitem,
      took_of_other hlast, punct_of_isPunct hlast]
  | @more us ts v values comma hread hcomma hrest =>
    have hitem := hread (comma :: (ts ++ last :: rest)) (elements_closing.stops (.inr hcomma))
    have hothers : listUntil "]" expression (ts ++ last :: rest) = .done (values, last) rest :=
      elements_closing.loop_eq hlast hrest
    rw [List.append_assoc, List.cons_append]
    simp [bracketed, punct_of_isPunct hfirst, elements_closing.closing_eq hitem, hitem,
      took_of_other hcomma, took_of_isPunct hcomma, hothers]

theorem ReadsAt.range {a b : Expr} {span : Span} (hfirst : first.isPunct "[") (ht : t.isPunct ":")
    (hlast : last.isPunct "]") (ha : ReadsWhole us a) (hb : ReadsWhole vs b) :
    ReadsAt 0 (first :: (us ++ t :: (vs ++ [last]))) (.range a b span) := by
  obtain ⟨x, hx, hstart⟩ := ha
  obtain ⟨y, hy, hstop⟩ := hb
  refine ⟨.range x y ⟨first.offset, last.stop⟩, ?_, fun rest _ => ?_⟩
  · simp only [Expr.mapTokens, hx, hy]
  have hone := hstart (t :: (vs ++ last :: rest)) (Follow.symbols_some (by decide) ht)
  have htwo := hstop (last :: rest) (Follow.symbols_some (by decide) hlast)
  change primary expression (first :: (us ++ t :: (vs ++ [last]) ++ rest)) = .done _ rest
  rw [primary_of_square hfirst]
  simp [bracketed, punct_of_isPunct hfirst, elements_closing.closing_eq hone, hone,
    took_of_isPunct ht, htwo, took_of_other hlast, punct_of_isPunct hlast]

theorem ReadsAt.steppedRange {a b c : Expr} {span : Span} (hfirst : first.isPunct "[")
    (ht : t.isPunct ":") (hu : u.isPunct ":") (hlast : last.isPunct "]") (ha : ReadsWhole us a)
    (hb : ReadsWhole vs b) (hc : ReadsWhole ws c) :
    ReadsAt 0 (first :: (us ++ t :: (vs ++ u :: (ws ++ [last])))) (.steppedRange a b c span) := by
  obtain ⟨x, hx, hstart⟩ := ha
  obtain ⟨y, hy, hstep⟩ := hb
  obtain ⟨z, hz, hstop⟩ := hc
  refine ⟨.steppedRange x y z ⟨first.offset, last.stop⟩, ?_, fun rest _ => ?_⟩
  · simp only [Expr.mapTokens, hx, hy, hz]
  have hone := hstart (t :: (vs ++ u :: (ws ++ last :: rest))) (Follow.symbols_some (by decide) ht)
  have htwo := hstep (u :: (ws ++ last :: rest)) (Follow.symbols_some (by decide) hu)
  have hthree := hstop (last :: rest) (Follow.symbols_some (by decide) hlast)
  change primary expression (first :: (us ++ t :: (vs ++ u :: (ws ++ [last])) ++ rest)) =
    .done _ rest
  rw [primary_of_square hfirst]
  simp [bracketed, punct_of_isPunct hfirst, elements_closing.closing_eq hone, hone,
    took_of_isPunct ht, htwo, took_of_isPunct hu, hthree, punct_of_isPunct hlast]

end Vectors

section Calls

variable {us : List Token} {t u first last : Token}

/-- The tokens of an expression are no named argument: a name in front of an equals sign would have
been the whole expression. -/
theorem startsNamed_of_expression {v : Expr} {rest : List Token} (h : expression us = .done v rest)
    (hrest : Follow.symbols [",", ")"] rest.head?) : startsNamed us = false := by
  refine Bool.eq_false_iff.mpr fun hnamed => ?_
  match us, hnamed with
  | name :: equals :: us, hnamed =>
    obtain ⟨hname, hequals⟩ : name.isName ∧ equals.isPunct "=" := by
      simpa [startsNamed] using hnamed
    have hcloser : Follow.symbols closers (some equals) := Follow.symbols_some (by decide) hequals
    have hread := (expression_inner 0).reads hname (equals :: us) hcloser
    rw [List.singleton_append, h] at hread
    cases hread
    have hnot := Follow.not_isPunct_of_symbols (s := "=") (by decide) hrest equals rfl
    rw [hequals] at hnot
    cases hnot

theorem positional_reads {v : Expr} (h : Reads expression us v (Follow.symbols closers)) :
    Reads (argument expression) us (.positional v) (Follow.symbols [",", ")"]) := by
  intro rest hrest
  have hread := h rest (Follow.symbols_mono (by decide) hrest)
  rw [argument_of_positional (startsNamed_of_expression hread hrest), bind_apply, hread]
  rfl

theorem named_reads {v : Expr} (ht : t.isName) (hu : u.isPunct "=")
    (h : Reads expression us v (Follow.symbols closers)) :
    Reads (argument expression) (t :: u :: us) (.named t.text v) (Follow.symbols [",", ")"]) := by
  intro rest hrest
  have hread := h rest (Follow.symbols_mono (by decide) hrest)
  change argument expression ([t, u] ++ (us ++ rest)) = _
  rw [argument_of_named ht hu, bind_apply, hread]
  rfl

theorem arguments_closing : Closing (argument expression) (Follow.symbols [",", ")"]) ")" where
  takes := Agree.takes_of_forall fun _ => argument_agree expression_agree
  start {t ts v rest} h := by
    by_cases hname : t.isName
    · refine Bool.eq_false_iff.mpr fun hpunct => ?_
      rw [Token.not_isName_of_isPunct hpunct] at hname
      cases hname
    · have hnamed : startsNamed (t :: ts) = false := by cases ts <;> simp [startsNamed, hname]
      rw [argument_of_positional hnamed] at h
      obtain ⟨e, mid, hread, _⟩ := bind_eq_done_iff.mp h
      exact not_closer_of_expression (by decide) hread
  stops h := h.elim (Follow.symbols_some (by decide)) (Follow.symbols_some (by decide))
  comma := by decide

theorem ReadsAt.call {name : String} {arguments values : List Argument} {span : Span}
    (ht : t.isName) (hname : t.text = name) (hfirst : first.isPunct "(") (hlast : last.isPunct ")")
    (hvalues : values.map Argument.erase = arguments.map Argument.erase)
    (h : Listed (argument expression) (Follow.symbols [",", ")"]) us values) :
    ReadsAt 0 (t :: first :: (us ++ [last])) (.call name arguments span) := by
  refine ⟨.call t.text values ⟨t.offset, last.stop⟩, ?_, fun rest _ => ?_⟩
  · simp only [Expr.mapTokens, Argument.mapTokensAll_eq, hvalues, hname]
  have hlist : listUntil ")" (argument expression) (us ++ last :: rest) =
      .done (values, last) rest := arguments_closing.loop_eq hlast h
  have hargs : Grammar.arguments expression (first :: (us ++ last :: rest)) =
      .done (values, last) rest := by
    simp [Grammar.arguments, punct_of_isPunct hfirst, hlist]
  change primary expression (t :: first :: (us ++ [last] ++ rest)) = .done _ rest
  rw [primary_of_isName ht, nameOrCall_of_isName ht, List.append_assoc, List.singleton_append,
    if_pos (by simpa using hfirst), bind_apply, hargs]
  rfl

end Calls

end SolidScript.Grammar
