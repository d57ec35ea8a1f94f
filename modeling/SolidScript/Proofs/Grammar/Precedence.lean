import SolidScript.Proofs.Expr.Places
import SolidScript.Proofs.Expr.Rendering
import SolidScript.Proofs.Grammar.Reading
import SolidScript.Proofs.Grammar.Recursion.Expression

/-!
The rules of the grammar by rank in the table of precedence. What one rule reads the next one reads
too, if nothing follows that the next one would read on with. A rule for operators that associate to
the left does not end behind an operand: it goes on with what it has read so far as the left side.
So the rule of a rank is said to read an expression if it comes to that place, whatever it does
there.
-/

namespace SolidScript.Grammar

open Rule

/-- The rule for the expressions of a rank and of those below it, short of conditionals. -/
def ruleAt : Nat → Rule Expr
  | 0 => primary expression
  | 1 => indexed expression
  | 2 => unary (indexed expression)
  | k + 3 => levelled (BinaryOp.levels.getD k []) (ruleAt (k + 2))

/-- What the rule of a rank does behind an expression that it has read. -/
def restAt : Nat → Expr → Rule Expr
  | 0, e => pure e
  | 1, e => loop (indexRound expression) e
  | 2, e => pure e
  | k + 3, e => loop (operationRound (BinaryOp.levels.getD k []) (ruleAt (k + 2))) e

/-- The punctuation that may follow what is read at a rank. -/
def followAt : Nat → List String
  | 0 => "[" :: operandFollow
  | 1 => "[" :: operandFollow
  | 2 => operandFollow
  | k + 3 => levelSymbols (BinaryOp.levels.drop k) ++ "?" :: closers

/-- The rule of a rank reads the tokens as the expression, up to places. -/
def ReadsAt (k : Nat) (us : List Token) (e : Expr) : Prop :=
  ∃ v : Expr, v.erase = e.erase ∧ ∀ rest : List Token,
    Follow.symbols (followAt k) rest.head? → ruleAt k (us ++ rest) = restAt k v rest

/-- The tokens are read as the whole expression, up to places, wherever an expression can end. -/
def ReadsWhole (us : List Token) (e : Expr) : Prop :=
  ∃ v : Expr, v.erase = e.erase ∧ Reads expression us v (Follow.symbols closers)

theorem ruleAt_agree {n k : Nat} : Agree n (fun _ => 1) (ruleAt k) (ruleAt k) := by
  match k with
  | 0 => exact (primary_agree expression_agree).limit (Nat.le_succ _)
  | 1 => exact (indexed_agree expression_agree).limit (Nat.le_succ _)
  | 2 => exact unary_agree ((indexed_agree expression_agree).limit (Nat.le_succ _))
  | k + 3 => exact levelled_agree (ruleAt_agree (k := k + 2))

theorem followAt_succ {k : Nat} (hk : k ≤ 12) : followAt (k + 1) ⊆ followAt k := by
  have hall : ∀ k < 13, ∀ s ∈ followAt (k + 1), s ∈ followAt k := by decide
  exact fun s => hall k (by omega) s

/-- A rule ends where nothing follows that it reads on with. -/
theorem restAt_stop {k : Nat} {e : Expr} {rest : List Token} (hk : k ≤ 12)
    (h : Follow.symbols (followAt (k + 1)) rest.head?) : restAt k e rest = .done e rest := by
  match k with
  | 0 => rfl
  | 1 => exact indices_stop (Follow.not_isPunct_of_symbols (by decide) h)
  | 2 => rfl
  | k + 3 =>
    have hlevels : ∀ k < 10, ∀ op ∈ BinaryOp.levels.getD k [], op.symbol ∉ followAt (k + 4) := by
      decide
    exact operations_stop (binaryOp?_eq_none (hlevels k (by omega)) h)

/-- Where the rule of a rank ends, it has read the expression. -/
theorem ReadsAt.reads {k : Nat} {us : List Token} {e : Expr} (hk : k ≤ 12) (h : ReadsAt k us e) :
    ∃ v : Expr, v.erase = e.erase ∧ Reads (ruleAt k) us v (Follow.symbols (followAt (k + 1))) := by
  obtain ⟨v, hv, hread⟩ := h
  refine ⟨v, hv, fun rest hrest => ?_⟩
  rw [hread rest (Follow.symbols_mono (followAt_succ hk) hrest)]
  exact restAt_stop hk hrest

/-- What begins a primary expression is no operator. -/
theorem unaryOp?_of_primary {sub : Rule Expr} {t : Token} {ts rest : List Token} {v : Expr}
    (h : primary sub (t :: ts) = .done v rest) : unaryOp? t = none := by
  have hpunct {s : String} (hs : t.isPunct s) (hnone : ∀ op ∈ UnaryOp.all, op.symbol ≠ s) :
      unaryOp? t = none :=
    List.find?_eq_none.mpr fun op hop hother => hnone op hop (Token.isPunct_unique hother hs)
  simp only [primary] at h
  split at h
  · next value hliteral =>
    refine List.find?_eq_none.mpr fun op _ hop => ?_
    simp only [Token.isPunct, Bool.and_eq_true, decide_eq_true_eq] at hop
    simp [Literal.ofToken?, hop.1] at hliteral
  · split at h
    · next hname => exact unaryOp?_of_isName hname
    · split at h
      · next hsquare => exact hpunct hsquare (by decide)
      · split at h
        · next hround => exact hpunct hround (by decide)
        · cases h

theorem ReadsAt.succ {k : Nat} {us : List Token} {e : Expr} (hk : k ≤ 12) (h : ReadsAt k us e) :
    ReadsAt (k + 1) us e := by
  obtain ⟨v, hv, hread⟩ := h.reads hk
  refine ⟨v, hv, fun rest hrest => ?_⟩
  have hdone := hread rest hrest
  match k with
  | 0 =>
    change (primary expression (us ++ rest)).andThen _ = _
    change primary expression (us ++ rest) = _ at hdone
    rw [hdone]
    rfl
  | 1 =>
    change indexed expression (us ++ rest) = _ at hdone
    cases us with
    | nil =>
      have hnone : indexed expression [] = .done v [] := hread [] (Follow.symbols_none _)
      cases hnone
    | cons t us =>
      obtain ⟨object, mid, hprimary, _⟩ := bind_eq_done_iff.mp hdone
      change unary (indexed expression) (t :: (us ++ rest)) = _
      rw [unary, unaryOp?_of_primary hprimary]
      exact hdone
  | k + 2 =>
    change (ruleAt (k + 2) (us ++ rest)).andThen _ = _
    rw [hdone]
    rfl

theorem ReadsAt.mono {j k : Nat} {us : List Token} {e : Expr} (hjk : j ≤ k) (hk : k ≤ 12)
    (h : ReadsAt j us e) : ReadsAt k us e := by
  induction hjk with
  | refl => exact h
  | step hjk ih => exact (ih (by omega)).succ (by omega)

theorem ReadsAt.whole {k : Nat} {us : List Token} {e : Expr} (hk : k ≤ 12) (h : ReadsAt k us e) :
    ReadsWhole us e := by
  obtain ⟨v, hv, hread⟩ := (h.mono hk (Nat.le_refl _)).reads (Nat.le_refl _)
  refine ⟨v, hv, ?_⟩
  rw [expression_eq]
  have hoperation : Reads (operation expression) us v (Follow.symbols ("?" :: closers)) := hread
  refine conditional_reads hoperation fun o ho => ?_
  exact ⟨Follow.symbols_mono (by simp) ho, Follow.not_isPunct_of_symbols (by decide) ho⟩

theorem ReadsWhole.parenthesised {us : List Token} {e : Expr} {t u : Token} (ht : t.isPunct "(")
    (hu : u.isPunct ")") (h : ReadsWhole us e) : ReadsAt 0 (t :: (us ++ [u])) e := by
  obtain ⟨v, hv, hread⟩ := h
  refine ⟨v, hv, fun rest _ => ?_⟩
  have hinner := hread (u :: rest) (Follow.symbols_some (by decide) hu)
  change primary expression (t :: (us ++ [u] ++ rest)) = .done v rest
  rw [primary_of_round ht, List.append_assoc]
  simp [Grammar.parenthesised, punct_of_isPunct ht, hinner, punct_of_isPunct hu]

section Operators

variable {us vs ws : List Token} {t u : Token}

theorem ReadsAt.index {object i : Expr} {span : Span} (hobject : ReadsAt 1 us object)
    (hi : ReadsWhole vs i) (ht : t.isPunct "[") (hu : u.isPunct "]") :
    ReadsAt 1 (us ++ t :: (vs ++ [u])) (.index object i span) := by
  obtain ⟨v, hv, hreads⟩ := hobject
  obtain ⟨w, hw, hindex⟩ := hi
  refine ⟨.index v w ⟨v.span.start, u.stop⟩, by simp only [Expr.mapTokens, hv, hw], ?_⟩
  intro rest hrest
  have hstart := hreads (t :: (vs ++ u :: rest)) (Follow.symbols_some (by decide) ht)
  have hinner := hindex (u :: rest) (Follow.symbols_some (by decide) hu)
  have hround : indexRound expression v (t :: (vs ++ u :: rest)) =
      .done (.again (.index v w ⟨v.span.start, u.stop⟩)) rest := by
    simp [indexRound, took_of_isPunct ht, hinner, punct_of_isPunct hu]
  rw [List.append_assoc, List.cons_append, List.append_assoc, List.singleton_append, hstart]
  change loop (indexRound expression) v _ = _
  rw [loop_eq v fun _ => Agree.takes_of_forall fun _ => indexRound_agree expression_agree,
    bind_apply, hround]
  rfl

theorem unaryOp?_of_isPunct {op : UnaryOp} (h : t.isPunct op.symbol) : unaryOp? t = some op := by
  simp only [Token.isPunct, Bool.and_eq_true, decide_eq_true_eq] at h
  cases op <;> simp [unaryOp?, UnaryOp.all, Token.isPunct, h, UnaryOp.symbol]

theorem ReadsAt.unary {op : UnaryOp} {e : Expr} {span : Span} (he : ReadsAt 2 us e)
    (ht : t.isPunct op.symbol) : ReadsAt 2 (t :: us) (.unary op e span) := by
  obtain ⟨v, hv, hreads⟩ := he
  refine ⟨.unary op v ⟨t.offset, v.span.stop⟩, ?_, fun rest hrest => ?_⟩
  · simp only [Expr.mapTokens, hv]
  have hoperand : Grammar.unary (indexed expression) (us ++ rest) = .done v rest :=
    hreads rest hrest
  change Grammar.unary (indexed expression) (t :: (us ++ rest)) = _
  rw [Grammar.unary, unaryOp?_of_isPunct ht, hoperand]
  rfl

theorem binaryOp?_of_isPunct {op : BinaryOp} {k : Nat} (hk : op.rank = k + 3)
    (h : t.isPunct op.symbol) : binaryOp? (BinaryOp.levels.getD k []) t = some op := by
  simp only [Token.isPunct, Bool.and_eq_true, decide_eq_true_eq] at h
  cases op <;> cases hk <;> simp [binaryOp?, BinaryOp.levels, Token.isPunct, h, BinaryOp.symbol]

theorem ReadsAt.binary {k : Nat} {op : BinaryOp} {left right : Expr} {span : Span}
    (hk : op.rank = k + 3) (hleft : ReadsAt (k + 3) us left) (hright : ReadsAt (k + 2) vs right)
    (ht : t.isPunct op.symbol) : ReadsAt (k + 3) (us ++ t :: vs) (.binary left op right span) := by
  have hle : k + 2 ≤ 12 := by
    have hrank : op.rank ≤ 12 := by cases op <;> decide
    omega
  obtain ⟨v, hv, hreads⟩ := hleft
  obtain ⟨w, hw, hoperand⟩ := hright.reads hle
  refine ⟨.binary v op w (v.span.merge w.span), by simp only [Expr.mapTokens, hv, hw], ?_⟩
  intro rest hrest
  have hfollow : op.symbol ∈ followAt (k + 3) := by
    rw [← hk]
    cases op <;> decide
  have hround : operationRound (BinaryOp.levels.getD k []) (ruleAt (k + 2)) v (t :: (vs ++ rest)) =
      .done (.again (.binary v op w (v.span.merge w.span))) rest := by
    simp only [operationRound, bind_apply, optional_of_some (binaryOp?_of_isPunct hk ht),
      Outcome.andThen_done, hoperand rest hrest]
    rfl
  have hstart := hreads (t :: (vs ++ rest)) (Follow.symbols_some hfollow ht)
  rw [List.append_assoc, List.cons_append, hstart]
  change loop (operationRound (BinaryOp.levels.getD k []) (ruleAt (k + 2))) v _ = _
  rw [loop_eq v fun _ => Agree.takes_of_forall fun _ => operationRound_agree ruleAt_agree,
    bind_apply, hround]
  rfl

theorem ReadsWhole.conditional {condition a b : Expr} {span : Span} (hc : ReadsAt 12 us condition)
    (ha : ReadsWhole vs a) (hb : ReadsWhole ws b) (ht : t.isPunct "?") (hu : u.isPunct ":") :
    ReadsWhole (us ++ t :: (vs ++ u :: ws)) (.conditional condition a b span) := by
  obtain ⟨v, hv, hcondition⟩ := hc.reads (Nat.le_refl _)
  obtain ⟨x, hx, hthen⟩ := ha
  obtain ⟨y, hy, helse⟩ := hb
  refine ⟨.conditional v x y (v.span.merge y.span), by simp only [Expr.mapTokens, hv, hx, hy],
    fun rest hrest => ?_⟩
  have hfirst : operation expression (us ++ t :: (vs ++ u :: (ws ++ rest))) =
      .done v (t :: (vs ++ u :: (ws ++ rest))) :=
    hcondition _ (Follow.symbols_some (by decide) ht)
  have hsecond := hthen (u :: (ws ++ rest)) (Follow.symbols_some (by decide) hu)
  have hthird := helse rest hrest
  rw [expression_eq]
  simp only [List.append_assoc, List.cons_append]
  simp [Grammar.conditional, hfirst, took_of_isPunct ht, hsecond, punct_of_isPunct hu, hthird]

end Operators

end SolidScript.Grammar
