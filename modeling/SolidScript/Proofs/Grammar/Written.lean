import SolidScript.Proofs.Expr.Rendering
import SolidScript.Proofs.Grammar.Predictive.Expression
import SolidScript.Proofs.Grammar.Yield

namespace SolidScript

mutual

/-- The tokens are a way to write the expression in a place for ranks up to the limit. -/
inductive Expr.Written : Nat → List Token → Expr → Prop
  | literal {limit : Nat} {t : Token} {value : Literal} (ht : Literal.ofToken? t = some value) :
    Expr.Written limit [t] (.literal value t)
  | identifier {limit : Nat} {t : Token} (ht : t.isName) :
    Expr.Written limit [t] (.identifier t.text t)
  | vector {limit : Nat} {first last : Token} {us : List Token} {elements : List Expr}
    (hfirst : first.isPunct "[") (hlast : last.isPunct "]")
    (helements : Separated (Expr.Written 13) us elements) :
    Expr.Written limit (first :: (us ++ [last])) (.vector elements ⟨first.offset, last.stop⟩)
  | range {limit : Nat} {first colon last : Token} {us vs : List Token} {a b : Expr}
    (hfirst : first.isPunct "[") (hcolon : colon.isPunct ":") (hlast : last.isPunct "]")
    (ha : Expr.Written 13 us a) (hb : Expr.Written 13 vs b) :
    Expr.Written limit (first :: (us ++ colon :: (vs ++ [last])))
      (.range a b ⟨first.offset, last.stop⟩)
  | steppedRange {limit : Nat} {first colon second last : Token} {us vs ws : List Token}
    {a b c : Expr} (hfirst : first.isPunct "[") (hcolon : colon.isPunct ":")
    (hsecond : second.isPunct ":") (hlast : last.isPunct "]") (ha : Expr.Written 13 us a)
    (hb : Expr.Written 13 vs b) (hc : Expr.Written 13 ws c) :
    Expr.Written limit (first :: (us ++ colon :: (vs ++ second :: (ws ++ [last]))))
      (.steppedRange a b c ⟨first.offset, last.stop⟩)
  | parenthesised {limit : Nat} {first last : Token} {us : List Token} {e : Expr}
    (hfirst : first.isPunct "(") (hlast : last.isPunct ")") (he : Expr.Written 13 us e) :
    Expr.Written limit (first :: (us ++ [last])) e
  | unary {limit : Nat} {t : Token} {us : List Token} {op : UnaryOp} {e : Expr}
    (hlimit : 2 ≤ limit) (ht : t.isPunct op.symbol) (he : Expr.Written 2 us e) :
    Expr.Written limit (t :: us) (.unary op e ⟨t.offset, e.span.stop⟩)
  | binary {limit : Nat} {t : Token} {us vs : List Token} {op : BinaryOp} {left right : Expr}
    (hlimit : op.rank ≤ limit) (hleft : Expr.Written op.rank us left) (ht : t.isPunct op.symbol)
    (hright : Expr.Written (op.rank - 1) vs right) :
    Expr.Written limit (us ++ t :: vs) (.binary left op right (left.span.merge right.span))
  | conditional {limit : Nat} {t u : Token} {us vs ws : List Token} {condition a b : Expr}
    (hlimit : 13 ≤ limit) (hcondition : Expr.Written 12 us condition) (ht : t.isPunct "?")
    (ha : Expr.Written 13 vs a) (hu : u.isPunct ":") (hb : Expr.Written 13 ws b) :
    Expr.Written limit (us ++ t :: (vs ++ u :: ws))
      (.conditional condition a b (condition.span.merge b.span))
  | index {limit : Nat} {first last : Token} {us vs : List Token} {object i : Expr}
    (hlimit : 1 ≤ limit) (hobject : Expr.Written 1 us object) (hfirst : first.isPunct "[")
    (hi : Expr.Written 13 vs i) (hlast : last.isPunct "]") :
    Expr.Written limit (us ++ first :: (vs ++ [last]))
      (.index object i ⟨object.span.start, last.stop⟩)
  | call {limit : Nat} {t first last : Token} {us : List Token} {arguments : List Argument}
    (ht : t.isName) (hfirst : first.isPunct "(") (hlast : last.isPunct ")")
    (harguments : Separated Argument.Written us arguments) :
    Expr.Written limit (t :: first :: (us ++ [last])) (.call t.text arguments ⟨t.offset, last.stop⟩)

/-- The tokens are a way to write the argument. -/
inductive Argument.Written : List Token → Argument → Prop
  | positional {us : List Token} {value : Expr} (hvalue : Expr.Written 13 us value) :
    Argument.Written us (.positional value)
  | named {t equals : Token} {us : List Token} {value : Expr} (ht : t.isName)
    (hequals : equals.isPunct "=") (hvalue : Expr.Written 13 us value) :
    Argument.Written (t :: equals :: us) (.named t.text value)

end

/-- What may stand in a place may stand where more is allowed. -/
theorem Expr.Written.mono {j k : Nat} {us : List Token} {e : Expr} (hjk : j ≤ k)
    (h : Expr.Written j us e) : Expr.Written k us e := by
  cases h with
  | literal ht => exact .literal ht
  | identifier ht => exact .identifier ht
  | vector hfirst hlast helements => exact .vector hfirst hlast helements
  | range hfirst hcolon hlast ha hb => exact .range hfirst hcolon hlast ha hb
  | steppedRange hfirst hcolon hsecond hlast ha hb hc =>
    exact .steppedRange hfirst hcolon hsecond hlast ha hb hc
  | parenthesised hfirst hlast he => exact .parenthesised hfirst hlast he
  | unary hlimit ht he => exact .unary (Nat.le_trans hlimit hjk) ht he
  | binary hlimit hleft ht hright => exact .binary (Nat.le_trans hlimit hjk) hleft ht hright
  | conditional hlimit hcondition ht ha hu hb =>
    exact .conditional (Nat.le_trans hlimit hjk) hcondition ht ha hu hb
  | index hlimit hobject hfirst hi hlast =>
    exact .index (Nat.le_trans hlimit hjk) hobject hfirst hi hlast
  | call ht hfirst hlast harguments => exact .call ht hfirst hlast harguments

theorem Expr.Written.ne_nil {limit : Nat} {us : List Token} {e : Expr}
    (h : Expr.Written limit us e) : us ≠ [] := by
  cases h <;> simp

/-- Induction on the way an expression is written, through its parts but not through the items of
lists. -/
@[elab_as_elim]
theorem Expr.Written.induct
    {P : (limit : Nat) → (us : List Token) → (e : Expr) → Expr.Written limit us e → Prop}
    (literal : ∀ {limit t value} (ht : Literal.ofToken? t = some value), P limit _ _ (.literal ht))
    (identifier : ∀ {limit t} (ht : Token.isName t), P limit _ _ (.identifier ht))
    (vector : ∀ {limit us elements} {first last : Token} (hfirst : first.isPunct "[")
      (hlast : last.isPunct "]") (helements : Separated (Expr.Written 13) us elements),
      P limit _ _ (.vector hfirst hlast helements))
    (range : ∀ {limit us vs a b} {first colon last : Token} (hfirst : first.isPunct "[")
      (hcolon : colon.isPunct ":") (hlast : last.isPunct "]") (ha : Expr.Written 13 us a)
      (hb : Expr.Written 13 vs b), P 13 us a ha → P 13 vs b hb →
      P limit _ _ (.range hfirst hcolon hlast ha hb))
    (steppedRange : ∀ {limit us vs ws a b c} {first colon second last : Token}
      (hfirst : first.isPunct "[") (hcolon : colon.isPunct ":") (hsecond : second.isPunct ":")
      (hlast : last.isPunct "]") (ha : Expr.Written 13 us a) (hb : Expr.Written 13 vs b)
      (hc : Expr.Written 13 ws c), P 13 us a ha → P 13 vs b hb → P 13 ws c hc →
      P limit _ _ (.steppedRange hfirst hcolon hsecond hlast ha hb hc))
    (parenthesised : ∀ {limit us e} {first last : Token} (hfirst : first.isPunct "(")
      (hlast : last.isPunct ")") (he : Expr.Written 13 us e), P 13 us e he →
      P limit _ _ (.parenthesised hfirst hlast he))
    (unary : ∀ {limit us e} {t : Token} {op : UnaryOp} (hlimit : 2 ≤ limit)
      (ht : t.isPunct op.symbol) (he : Expr.Written 2 us e), P 2 us e he →
      P limit _ _ (.unary hlimit ht he))
    (binary : ∀ {limit us vs left right} {t : Token} {op : BinaryOp} (hlimit : op.rank ≤ limit)
      (hleft : Expr.Written op.rank us left) (ht : t.isPunct op.symbol)
      (hright : Expr.Written (op.rank - 1) vs right), P op.rank us left hleft →
      P (op.rank - 1) vs right hright → P limit _ _ (.binary hlimit hleft ht hright))
    (conditional : ∀ {limit us vs ws condition a b} {t u : Token} (hlimit : 13 ≤ limit)
      (hcondition : Expr.Written 12 us condition) (ht : t.isPunct "?")
      (ha : Expr.Written 13 vs a) (hu : u.isPunct ":") (hb : Expr.Written 13 ws b),
      P 12 us condition hcondition → P 13 vs a ha → P 13 ws b hb →
      P limit _ _ (.conditional hlimit hcondition ht ha hu hb))
    (index : ∀ {limit us vs object i} {first last : Token} (hlimit : 1 ≤ limit)
      (hobject : Expr.Written 1 us object) (hfirst : first.isPunct "[")
      (hi : Expr.Written 13 vs i) (hlast : last.isPunct "]"), P 1 us object hobject →
      P 13 vs i hi → P limit _ _ (.index hlimit hobject hfirst hi hlast))
    (call : ∀ {limit us arguments} {t first last : Token} (ht : t.isName)
      (hfirst : first.isPunct "(") (hlast : last.isPunct ")")
      (harguments : Separated Argument.Written us arguments),
      P limit _ _ (.call ht hfirst hlast harguments))
    {limit : Nat} {us : List Token} {e : Expr} (h : Expr.Written limit us e) : P limit us e h :=
  @Expr.Written.rec P (fun _ _ _ => True) (fun _ _ _ => True) (fun _ _ _ => True) literal identifier
    (fun hfirst hlast helements _ => vector hfirst hlast helements) range steppedRange
    parenthesised unary binary conditional index
    (fun ht hfirst hlast harguments _ => call ht hfirst hlast harguments)
    (fun _ _ => trivial) (fun _ _ _ _ => trivial) trivial (fun _ _ => trivial)
    (fun _ _ _ _ _ => trivial) trivial (fun _ _ => trivial) (fun _ _ _ _ _ => trivial) _ _ _ h

namespace Grammar

open Rule

section Expressions

variable {sub operand : Rule Expr}

section Parts

variable (h : Yields sub (Expr.Written 13))

include h

private theorem argument_yields : Yields (argument sub) Argument.Written := by
  refine .look_bind fun named => ?_
  cases named with
  | true =>
    refine .token_bind fun n hn => .token_bind fun equals hequals => ?_
    refine h.bind fun us value hvalue => .pure ?_
    rw [List.append_nil]
    exact .named hn hequals hvalue
  | false =>
    refine h.bind fun us value hvalue => .pure ?_
    rw [List.append_nil]
    exact .positional hvalue

theorem arguments_yields :
    Yields (arguments sub) fun us v => ∃ first ws, us = first :: (ws ++ [v.2]) ∧
      first.isPunct "(" ∧ v.2.isPunct ")" ∧ Separated Argument.Written ws v.1 := by
  refine .token_bind fun first hfirst ts v rest hread => ?_
  obtain ⟨us, rfl, ws, rfl, hlast, hws⟩ := (Yields.listUntil (argument_yields h)) ts v rest hread
  exact ⟨_, rfl, first, ws, rfl, hfirst, hlast, hws⟩

private theorem nameOrCall_yields : Yields (nameOrCall sub) (Expr.Written 0) := by
  refine .token_bind fun n hn => .look_bind fun called => ?_
  cases called with
  | true =>
    refine (arguments_yields h).bind ?_
    rintro _ ⟨args, last⟩ ⟨first, ws, rfl, hfirst, hlast, hws⟩
    refine .pure ?_
    rw [List.append_nil]
    exact .call hn hfirst hlast hws
  | false => exact .pure (.identifier hn)

private theorem bracketed_yields : Yields (bracketed sub) (Expr.Written 0) := by
  refine .token_bind fun first hfirst => .closing_bind (fun last hlast => .pure ?_) ?_
  · exact Expr.Written.vector hfirst hlast .nil
  · refine h.bind fun us a ha => .accept_bind (fun colon hcolon => ?_) ?_
    · refine h.bind fun vs b hb => .accept_bind (fun second hsecond => ?_) ?_
      · refine h.bind fun ws c hc => .token_bind fun last hlast => .pure ?_
        exact .steppedRange hfirst hcolon hsecond hlast ha hb hc
      · refine .token_bind fun last hlast => .pure ?_
        exact .range hfirst hcolon hlast ha hb
    · refine .accept_bind (fun comma hcomma => ?_) (.token_bind fun last hlast => .pure ?_)
      · refine (Yields.listUntil h).bind ?_
        rintro _ ⟨others, last⟩ ⟨ws, rfl, hlast, hws⟩
        refine .pure ?_
        have hvector : Expr.Written 0 _ _ := .vector hfirst hlast (.more ha hcomma hws)
        simpa using hvector
      · exact .vector hfirst hlast (.one ha)

private theorem parenthesised_yields : Yields (parenthesised sub) (Expr.Written 0) := by
  refine .token_bind fun first hfirst => h.bind fun us e he => ?_
  refine .token_bind fun last hlast => .pure ?_
  exact .parenthesised hfirst hlast he

private theorem primary_yields : Yields (primary sub) (Expr.Written 0) := by
  intro ts e rest hread
  cases ts with
  | nil => cases hread
  | cons t ts =>
    simp only [primary] at hread
    split at hread
    · next value hvalue =>
      cases hread
      exact ⟨[t], rfl, .literal hvalue⟩
    · split at hread
      · exact nameOrCall_yields h _ e rest hread
      · split at hread
        · exact bracketed_yields h _ e rest hread
        · split at hread
          · exact parenthesised_yields h _ e rest hread
          · cases hread

private theorem indexed_yields : Yields (indexed sub) (Expr.Written 1) := by
  refine (primary_yields h).bind fun us object hobject => ?_
  refine .loop (I := fun vs object => Expr.Written 1 (us ++ vs) object)
    (fun vs object hobject => ?_) (by rw [List.append_nil]; exact hobject.mono (Nat.zero_le 1))
  refine .accept_bind (fun first hfirst => ?_) (.pure ?_)
  · refine h.bind fun ws i hi => .token_bind fun last hlast => .pure ?_
    have hindex := Expr.Written.index (Nat.le_refl 1) hobject hfirst hi hlast
    simpa using hindex
  · rwa [List.append_nil]

end Parts

theorem isPunct_of_unaryOp? {t : Token} {op : UnaryOp} (h : unaryOp? t = some op) :
    t.isPunct op.symbol := by
  simpa using List.find?_some h

theorem isPunct_of_binaryOp? {level : List BinaryOp} {t : Token} {op : BinaryOp}
    (h : binaryOp? level t = some op) : t.isPunct op.symbol := by
  simpa using List.find?_some h

private theorem unary_yields (h : Yields operand (Expr.Written 1)) :
    Yields (unary operand) (Expr.Written 2) := by
  have hoperand {ts rest : List Token} {e : Expr} (hread : operand ts = .done e rest) :
      ∃ us, ts = us ++ rest ∧ Expr.Written 2 us e := by
    obtain ⟨us, rfl, hus⟩ := h ts e rest hread
    exact ⟨us, rfl, hus.mono (Nat.le_succ 1)⟩
  intro ts e rest hread
  induction ts generalizing e with
  | nil => exact hoperand hread
  | cons t ts ih =>
    rw [unary] at hread
    split at hread
    · next op hop =>
      cases hinner : unary operand ts with
      | stuck left =>
        rw [hinner] at hread
        cases hread
      | done inner left =>
        rw [hinner] at hread
        cases hread
        obtain ⟨us, rfl, hus⟩ := ih inner hinner
        exact ⟨t :: us, rfl, .unary (Nat.le_refl 2) (isPunct_of_unaryOp? hop) hus⟩
    · exact hoperand hread

/-- Operators associate to the left: only the left operand may have the rank of the level. -/
private theorem levelled_yields {k : Nat} {level : List BinaryOp}
    (hlevel : ∀ op ∈ level, op.rank = k + 1) (h : Yields operand (Expr.Written k)) :
    Yields (levelled level operand) (Expr.Written (k + 1)) := by
  refine h.bind fun us left hleft => ?_
  refine .loop (I := fun vs left => Expr.Written (k + 1) (us ++ vs) left)
    (fun vs left hleft => ?_) (by rw [List.append_nil]; exact hleft.mono (Nat.le_succ k))
  refine .optional_bind (fun t op hop => ?_) (.pure ?_)
  · refine h.bind fun ws right hright => .pure ?_
    have hrank := hlevel op (List.mem_of_find?_eq_some hop)
    have hbinary := Expr.Written.binary (Nat.le_of_eq hrank) (by rwa [hrank])
      (isPunct_of_binaryOp? hop) (by rwa [hrank])
    simpa using hbinary
  · rwa [List.append_nil]

/-- Every level of operators takes the rank one further. -/
private theorem levels_yields {k : Nat} {levels : List (List BinaryOp)} {first : Rule Expr}
    (hlevels : ∀ level i, levels[i]? = some level → ∀ op ∈ level, op.rank = k + i + 1)
    (h : Yields first (Expr.Written k)) :
    Yields (levels.foldl (fun operand level => levelled level operand) first)
      (Expr.Written (k + levels.length)) := by
  induction levels generalizing k first with
  | nil => exact h
  | cons level levels ih =>
    have hfirst := levelled_yields (hlevels level 0 rfl) h
    have hothers : ∀ other i, levels[i]? = some other → ∀ op ∈ other, op.rank = k + 1 + i + 1 := by
      intro other i hother op hop
      have hrank := hlevels other (i + 1) hother op hop
      omega
    have hrest := ih hothers hfirst
    rwa [Nat.add_assoc, Nat.add_comm 1] at hrest

private theorem operation_yields (h : Yields sub (Expr.Written 13)) :
    Yields (operation sub) (Expr.Written 12) := by
  have hlevels : ∀ i < BinaryOp.levels.length, ∀ level ∈ BinaryOp.levels[i]?, ∀ op ∈ level,
      op.rank = 2 + i + 1 := by
    decide
  refine levels_yields (k := 2) (fun level i hlevel => ?_) (unary_yields (indexed_yields h))
  exact hlevels i (List.getElem?_eq_some_iff.mp hlevel).1 level hlevel

private theorem conditional_yields (h : Yields sub (Expr.Written 13)) :
    Yields (conditional sub) (Expr.Written 13) := by
  refine (operation_yields h).bind fun us condition hcondition => ?_
  refine .accept_bind (fun t ht => ?_) (.pure ?_)
  · refine h.bind fun vs a ha => .token_bind fun u hu => h.bind fun ws b hb => .pure ?_
    rw [List.append_nil]
    exact .conditional (Nat.le_refl 13) hcondition ht ha hu hb
  · rw [List.append_nil]
    exact hcondition.mono (Nat.le_succ 12)

/-- What is read as an expression is written as one. -/
theorem expression_yields : Yields expression (Expr.Written 13) := .knot fun _ => conditional_yields

end Expressions

end Grammar

end SolidScript
