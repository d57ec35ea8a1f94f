import SolidScript.Proofs.Grammar.Reading
import SolidScript.Proofs.Node
import SolidScript.Proofs.Token.Nesting

namespace SolidScript

open Grammar

section Balance

mutual

/-- An expression closes every parenthesis and every bracket that it opens. -/
theorem Expr.Written.balanced {limit : Nat} {us : List Token} {e : Expr} :
    Expr.Written limit us e → Token.Balanced us
  | .literal ht => .plain fun mark _ => Bool.eq_false_iff.mpr fun hmark => by
    rw [ofToken?_of_isPunct hmark] at ht
    cases ht
  | .identifier ht => .name ht
  | .vector hfirst hlast helements => .brackets hfirst (Expr.Written.balanced_row helements) hlast
  | .range hfirst hcolon hlast ha hb => by
    have hinner := ha.balanced.append (Token.Balanced.cons (.punct hcolon (by decide)) hb.balanced)
    simpa using Token.Balanced.brackets hfirst hinner hlast
  | .steppedRange hfirst hcolon hsecond hlast ha hb hc => by
    have hlater := hb.balanced.append (Token.Balanced.cons (.punct hsecond (by decide)) hc.balanced)
    have hinner := ha.balanced.append (Token.Balanced.cons (.punct hcolon (by decide)) hlater)
    simpa using Token.Balanced.brackets hfirst hinner hlast
  | .parenthesised hfirst hlast he => .parentheses hfirst he.balanced hlast
  | @Expr.Written.unary _ _ _ op _ _ ht he =>
    .cons (.punct ht (by cases op <;> decide)) he.balanced
  | @Expr.Written.binary _ _ _ _ op _ _ _ hleft ht hright =>
    hleft.balanced.append (.cons (.punct ht (by cases op <;> decide)) hright.balanced)
  | .conditional _ hcondition ht ha hu hb =>
    hcondition.balanced.append (.cons (.punct ht (by decide))
      (ha.balanced.append (.cons (.punct hu (by decide)) hb.balanced)))
  | .index _ hobject hfirst hi hlast =>
    hobject.balanced.append (.brackets hfirst hi.balanced hlast)
  | .call ht hfirst hlast harguments =>
    .cons (.name ht) (.parentheses hfirst (Argument.Written.balanced_row harguments) hlast)

theorem Expr.Written.balanced_row {us : List Token} {es : List Expr} :
    Separated (Expr.Written 13) us es → Token.Balanced us
  | .nil => rfl
  | .one item => item.balanced
  | .more item hcomma others =>
    item.balanced.append (.cons (.punct hcomma (by decide)) (Expr.Written.balanced_row others))

theorem Argument.Written.balanced {us : List Token} {a : Argument} :
    Argument.Written us a → Token.Balanced us
  | .positional hvalue => hvalue.balanced
  | .named ht hequals hvalue =>
    .cons (.name ht) (.cons (.punct hequals (by decide)) hvalue.balanced)

theorem Argument.Written.balanced_row {us : List Token} {as : List Argument} :
    Separated Argument.Written us as → Token.Balanced us
  | .nil => rfl
  | .one item => item.balanced
  | .more item hcomma others =>
    item.balanced.append (.cons (.punct hcomma (by decide)) (Argument.Written.balanced_row others))

end

end Balance

/-- The tokens in the middle are those that the span of the expression covers. -/
structure Expr.Framed (opens core closes : List Token) (e : Expr) : Prop where
  opens : ∀ t ∈ opens, t.isPunct "("
  closes : ∀ t ∈ closes, t.isPunct ")"
  nonempty : core ≠ []
  span : e.span = Token.spanOf core
  complete : Token.Balanced core → Expr.Written 13 core e

namespace Expr

/-- All the tokens are covered. -/
theorem exists_framed_of_span {us : List Token} {e : Expr} (h : Expr.Written 13 us e)
    (hspan : e.span = Token.spanOf us) :
    ∃ opens core closes, us = opens ++ (core ++ closes) ∧ e.Framed opens core closes :=
  ⟨[], us, [], by simp, nofun, nofun, h.ne_nil, hspan, fun _ => h⟩

/-- Balanced tokens up to something behind an expression contain it from its first token on. -/
theorem Framed.opens_eq_nil {limit : Nat} {opens core closes rest : List Token} {e : Expr}
    (h : e.Framed opens core closes) (he : Expr.Written limit (opens ++ (core ++ closes)) e)
    (hrest : Token.Balanced (core ++ (closes ++ rest))) : opens = [] :=
  he.balanced.opens_eq_nil h.opens (by rwa [List.append_assoc])

/-- Balanced tokens from the first one of an expression on contain it up to its last token. -/
theorem Framed.closes_eq_nil {limit : Nat} {opens core closes : List Token} {e : Expr}
    (h : e.Framed opens core closes) (he : Expr.Written limit (opens ++ (core ++ closes)) e)
    (hcore : Token.Balanced (opens ++ core)) : closes = [] :=
  hcore.closes_eq_nil (by rw [List.append_assoc]; exact he.balanced) h.closes

/-- The tokens from inside one operand to inside another one that stands behind it. -/
theorem Framed.join {j k : Nat} {opens core closes opens' core' closes' mid : List Token}
    {a b e : Expr} (ha : a.Framed opens core closes) (hb : b.Framed opens' core' closes')
    (hwa : Expr.Written j (opens ++ (core ++ closes)) a)
    (hwb : Expr.Written k (opens' ++ (core' ++ closes')) b) (hmid : Token.Balanced mid)
    (he : Expr.Written 13 (opens ++ (core ++ closes) ++ (mid ++ (opens' ++ (core' ++ closes')))) e)
    (hspan : e.span = ⟨a.span.start, b.span.stop⟩) :
    e.Framed opens (core ++ (closes ++ (mid ++ (opens' ++ core')))) closes' where
  opens := ha.opens
  closes := hb.closes
  nonempty := List.append_ne_nil_of_left_ne_nil ha.nonempty _
  span := by
    have hlast : closes ++ (mid ++ (opens' ++ core')) = (closes ++ (mid ++ opens')) ++ core' := by
      simp
    rw [hspan, ha.span, hb.span, hlast, Token.spanOf_ends ha.nonempty hb.nonempty]
  complete hcore := by
    -- If a parenthesis in front of the first operand were left out, what closes it would be left;
    -- one behind the second operand has no counterpart in balanced tokens.
    obtain rfl := ha.opens_eq_nil hwa hcore
    have hright : Token.Balanced (opens' ++ core') := by
      refine hmid.of_append (hwa.balanced.of_append ?_)
      simpa using hcore
    obtain rfl := hb.closes_eq_nil hwb hright
    simpa using he

end Expr

/-- The span of an expression covers its tokens but for parentheses at their edges. -/
theorem Expr.Written.framed {limit lo hi : Nat} {us : List Token} {e : Expr}
    (h : Expr.Written limit us e) (hus : Token.Between lo us hi) :
    ∃ opens core closes, us = opens ++ (core ++ closes) ∧ e.Framed opens core closes := by
  induction h using Expr.Written.induct generalizing lo hi with
  | literal ht => exact exists_framed_of_span (.literal ht) rfl
  | identifier ht => exact exists_framed_of_span (.identifier ht) rfl
  | vector hfirst hlast helements =>
    exact exists_framed_of_span (.vector hfirst hlast helements)
      (Token.spanOf_between rfl (by simp [List.getLast?_cons])).symm
  | range hfirst hcolon hlast ha hb =>
    exact exists_framed_of_span (.range hfirst hcolon hlast ha hb)
      (Token.spanOf_between rfl (by simp [List.getLast?_cons])).symm
  | steppedRange hfirst hcolon hsecond hlast ha hb hc =>
    exact exists_framed_of_span (.steppedRange hfirst hcolon hsecond hlast ha hb hc)
      (Token.spanOf_between rfl (by simp [List.getLast?_cons])).symm
  | call ht hfirst hlast harguments =>
    exact exists_framed_of_span (.call ht hfirst hlast harguments)
      (Token.spanOf_between rfl (by simp [List.getLast?_cons])).symm
  | @parenthesised _ _ _ first last hfirst hlast he ih =>
    obtain ⟨_, _, hmore⟩ := Token.between_cons.mp hus
    obtain ⟨mid, hinner, _⟩ := Token.between_append.mp hmore
    obtain ⟨opens, core, closes, rfl, hframed⟩ := ih hinner
    refine ⟨first :: opens, core, closes ++ [last], by simp, ?_⟩
    exact { hframed with
      opens := List.forall_mem_cons.mpr ⟨hfirst, hframed.opens⟩
      closes := List.forall_mem_append.mpr ⟨hframed.closes, List.forall_mem_singleton.mpr hlast⟩ }
  | @unary _ _ _ t op _ ht he ih =>
    obtain ⟨_, _, hoperand⟩ := Token.between_cons.mp hus
    obtain ⟨opens, core, closes, rfl, hframed⟩ := ih hoperand
    refine ⟨[], t :: (opens ++ core), closes, by simp, nofun, hframed.closes, nofun, ?_, ?_⟩
    · have hends : Token.spanOf ([t] ++ (opens ++ core)) = _ :=
        Token.spanOf_ends (List.cons_ne_nil t []) hframed.nonempty
      rw [Expr.span, hframed.span]
      exact hends.symm
    · intro hcore
      have hplain : Token.Balanced [t] := .punct ht (by cases op <;> decide)
      obtain rfl := hframed.closes_eq_nil he (hplain.of_append hcore)
      rw [List.append_nil] at he
      exact .unary (by decide) ht he
  | @binary _ _ _ _ _ t op _ hleft ht hright ihleft ihright =>
    obtain ⟨mid, hbefore, hmore⟩ := Token.between_append.mp hus
    obtain ⟨hoperator, hproper, hafter⟩ := Token.between_cons.mp hmore
    obtain ⟨opens, core, closes, rfl, hframed⟩ := ihleft hbefore
    obtain ⟨opens', core', closes', rfl, hframed'⟩ := ihright hafter
    have hplain : Token.Balanced [t] := .punct ht (by cases op <;> decide)
    have hrank : op.rank ≤ 13 := by cases op <;> decide
    refine ⟨opens, _, closes', ?_, hframed.join hframed' hleft hright hplain
      (.binary hrank hleft ht hright) (hleft.merge_span hright hbefore (by omega) hafter)⟩
    simp
  | @conditional _ _ vs _ _ _ _ t u _ hcondition ht ha hu hb ihcondition _ ihb =>
    obtain ⟨mid, hbefore, hmore⟩ := Token.between_append.mp hus
    obtain ⟨hquestion, hproper, hlater⟩ := Token.between_cons.mp hmore
    obtain ⟨mid', hvs, hcolon, hproper', hafter⟩ := Token.between_append.mp hlater
    have hle := hvs.le
    obtain ⟨opens, core, closes, rfl, hframed⟩ := ihcondition hbefore
    obtain ⟨opens', core', closes', rfl, hframed'⟩ := ihb hafter
    have hinner : Token.Balanced (t :: (vs ++ [u])) :=
      .cons (.punct ht (by decide)) (ha.balanced.append (.punct hu (by decide)))
    refine ⟨opens, _, closes', ?_, hframed.join hframed' hcondition hb hinner
      (by simpa using Expr.Written.conditional (by decide) hcondition ht ha hu hb)
      (hcondition.merge_span hb hbefore (by omega) hafter)⟩
    simp
  | @index _ _ vs _ _ first last _ hobject hfirst hindex hlast ihobject =>
    obtain ⟨mid, hbefore, _⟩ := Token.between_append.mp hus
    obtain ⟨opens, core, closes, rfl, hframed⟩ := ihobject hbefore
    refine ⟨opens, core ++ (closes ++ first :: (vs ++ [last])), [], by simp, hframed.opens, nofun,
      List.append_ne_nil_of_left_ne_nil hframed.nonempty _, ?_, ?_⟩
    · have hlater : closes ++ first :: (vs ++ [last]) = (closes ++ first :: vs) ++ [last] := by simp
      rw [Expr.span, hframed.span, hlater,
        Token.spanOf_ends hframed.nonempty (List.cons_ne_nil last [])]
      rfl
    · intro hcore
      obtain rfl := hframed.opens_eq_nil hobject hcore
      simpa using Expr.Written.index (by decide) hobject hfirst hindex hlast

end SolidScript
