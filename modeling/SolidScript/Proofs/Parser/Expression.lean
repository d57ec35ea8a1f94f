import SolidScript.Proofs.Parser.Primary

namespace SolidScript.Parser

section Indices

variable {sub : Parser Expr} {n : Nat} {ts : List Token}
  (hsub : ∀ vs, vs.length < n → Simulates sub Grammar.expression (.symbols openers) vs)

include hsub

theorem index_simulates (hlen : ts.length ≤ n) : Simulates (index sub) (do
      let _ ← Rule.punct "["
      let i ← Grammar.expression
      return (i, ← Rule.punct "]")) .never ts := by
  refine (Simulates.token _).bind_never fun first us hfirst _ => ?_
  rw [(Rule.token_eq_done hfirst).2, List.length_cons] at hlen
  refine (hsub us hlen).bind_refused (fun i mid _ _ => ?_) fun i mid rest hback => ?_
  · exact (Simulates.token _).map fun close => (i, close)
  · exact (refuses_closer hback (by decide)).bind _

theorem indexRound_follows (object : Expr) (hlen : ts.length ≤ n) :
    RoundFollows (index sub) (pure ()) (Grammar.indexRound Grammar.expression object ts)
      (fun (i, close) => .index object i ⟨object.span.start, close.stop⟩) (fun _ => object)
      (.symbols ["(", "["]) ts := by
  by_cases hopen : ∀ t ∈ ts.head?, t.isPunct "[" = false
  · refine .of_ended ((refuses_punct hopen).bind _) ?_
    rw [Grammar.indexRound, Rule.bind_of_done (Rule.took_of_not hopen)]
    rfl
  · obtain ⟨t, us, rfl, ht⟩ := Rule.exists_cons_of_not hopen
    refine .of_open (index_simulates hsub hlen) ?_ ?_ (fun _ => Follow.symbols_some (by simp) ht)
      fun _ _ => False.elim
    · rw [Grammar.indexRound, Rule.bind_of_done (Rule.took_of_isPunct ht us),
        Rule.bind_of_done (Rule.punct_of_isPunct ht us), if_pos rfl, Outcome.map_eq]
      simp only [bind_assoc, pure_bind]
    · have hindex := Grammar.closed_predicts (f := fun i close => (i, close))
        (Grammar.expression_inner (us.length + 1)) (Nat.le_refl _)
        (show "]" ∈ Grammar.closers by decide)
      rw [Rule.bind_of_done (Rule.punct_of_isPunct ht us)]
      exact Nat.lt_succ_of_le (hindex.below us (Nat.lt_succ_self _)).rest_suffix.length_le

theorem indexed_simulates (hlen : ts.length ≤ n) :
    Simulates (indexed sub) (Grammar.indexed Grammar.expression) (.symbols ["(", "["]) ts := by
  refine (primary_simulates hsub hlen).followed
    (fun object us hus => indexRound_follows hsub object (Nat.le_trans hus hlen))
    fun mid rest hback => ⟨?_, Follow.symbols_mono (by simp) hback⟩
  exact (refuses_punct (Follow.not_isPunct_of_symbols (by decide) hback)).bind _

end Indices

section Operators

open Grammar (unaryOp? binaryOp? levelSymbols)

variable {operand : Parser Expr} {rule : Rule Expr} {n : Nat} {ts : List Token}

theorem unary_of_none (h : ∀ t ∈ ts.head?, unaryOp? t = none) :
    Grammar.unary rule ts = rule ts := by
  cases ts with
  | nil => rfl
  | cons t ts => simp [Grammar.unary, h t rfl]

theorem unary_simulates {retreat : Retreat}
    (h : ∀ vs, vs.length ≤ n → Simulates operand rule retreat vs) (hlen : ts.length ≤ n) :
    Simulates (unary operand) (Grammar.unary rule) retreat ts := by
  suffices hall : ∀ m us, us.length < m → us.length ≤ n → Simulates (do
      let ops ← repeatedUpTo (oneOf UnaryOp.symbol UnaryOp.all) m
      let e ← operand
      return ops.foldr (fun found e => .unary found.1 e ⟨found.2.offset, e.span.stop⟩) e)
      (Grammar.unary rule) retreat us from hall (ts.length + 1) ts (Nat.lt_succ_self _) hlen
  intro m
  induction m with
  | zero => exact fun us hlen => absurd hlen (Nat.not_lt_zero _)
  | succ m ih =>
    intro us hus hle
    by_cases hop : ∀ t ∈ us.head?, unaryOp? t = none
    · have hrefuses : (oneOf UnaryOp.symbol UnaryOp.all).Refuses us := by
        refine oneOf_refuses (by decide) fun op hmem t ht => ?_
        simpa using List.find?_eq_none.mp (hop t ht) op hmem
      rw [Simulates, repeatedUpTo_bind_of_none (by rw [hrefuses]), hrefuses, unary_of_none hop]
      simp only [List.foldr_nil, bind_pure]
      exact Attempt.Follows.after_refused (h us hle)
    · obtain ⟨t, vs, op, rfl, ht⟩ := Rule.exists_cons_of_not_none hop
      have hgives := oneOf_gives vs ht
      have hinner := (ih vs (Nat.lt_of_succ_lt_succ hus) (Nat.le_of_succ_le hle)).map
        fun e => Expr.unary op e ⟨t.offset, e.span.stop⟩
      rw [Simulates, ← Outcome.map_eq] at hinner
      simp only [bind_assoc, pure_bind] at hinner
      rw [Simulates, repeatedUpTo_bind_of_value hgives.value, Grammar.unary, ht]
      exact hinner.after_gives hgives (List.suffix_cons t vs)

theorem operation_refuses {level : List BinaryOp} (hne : level ≠ [])
    (h : ∀ t ∈ ts.head?, binaryOp? level t = none) : (operation level operand).Refuses ts := by
  refine (oneOf_refuses hne fun op hop t ht => ?_).bind _
  simpa using List.find?_eq_none.mp (h t ht) op hop

theorem operationRound_follows {level : List BinaryOp} {l : List String} (hne : level ≠ [])
    (h : ∀ vs, vs.length ≤ n → Simulates operand rule (.symbols l) vs)
    (hlevel : ∀ op ∈ level, op.symbol ∉ l) (left : Expr) (hlen : ts.length ≤ n) :
    RoundFollows (operation level operand) (pure ()) (Grammar.operationRound level rule left ts)
      (fun (op, right) => .binary left op right (left.span.merge right.span)) (fun _ => left)
      (.symbols (levelSymbols [level] ++ l)) ts := by
  by_cases hop : ∀ t ∈ ts.head?, binaryOp? level t = none
  · refine .of_ended (operation_refuses hne hop) ?_
    rw [Grammar.operationRound, Rule.bind_of_done (Rule.optional_of_none hop)]
    rfl
  · obtain ⟨t, us, op, rfl, ht⟩ := Rule.exists_cons_of_not_none hop
    have hgives := oneOf_gives us ht
    have hright := (h us (Nat.le_of_succ_le hlen)).map fun right => (op, right)
    have hread : (operation level operand (t :: us)).Follows
        ((do return (op, ← rule) : Rule (BinaryOp × Expr)) us) (.symbols l) (t :: us) := by
      rw [operation, bind_of_value hgives.value]
      exact Attempt.Follows.after_gives hright hgives (List.suffix_cons t us)
    refine .of_open hread ?_ ?_ (fun _ => ?_) fun mid rest hback => ⟨?_, ?_⟩
    · rw [Grammar.operationRound, Rule.bind_of_done (Rule.optional_of_some ht us), Outcome.map_eq]
      simp only [bind_assoc, pure_bind]
    · exact Nat.lt_succ_of_le hright.rest_suffix.length_le
    · have hmem : op.symbol ∈ levelSymbols [level] := by
        simpa [levelSymbols] using ⟨op, List.mem_of_find?_eq_some ht, rfl⟩
      exact Follow.symbols_some (List.mem_append_left l hmem) (by simpa using List.find?_some ht)
    · exact operation_refuses hne (Grammar.binaryOp?_eq_none hlevel hback)
    · exact Follow.symbols_mono (by simp) hback

theorem levelled_simulates {level : List BinaryOp} {l : List String} (hne : level ≠ [])
    (h : ∀ vs, vs.length ≤ n → Simulates operand rule (.symbols l) vs)
    (hlevel : ∀ op ∈ level, op.symbol ∉ l) (hlen : ts.length ≤ n) :
    Simulates (levelled level operand) (Grammar.levelled level rule)
      (.symbols (levelSymbols [level] ++ l)) ts := by
  refine (h ts hlen).followed
    (fun left us hus => operationRound_follows hne h hlevel left (Nat.le_trans hus hlen))
    fun mid rest hback => ⟨?_, Follow.symbols_mono (by simp) hback⟩
  exact operation_refuses hne (Grammar.binaryOp?_eq_none hlevel hback)

/-- What has been gone back to stands in front of an operator of one of the levels, or where an
operand may have gone back to. -/
theorem levels_simulates {levels : List (List BinaryOp)} {l : List String}
    (hsymbols : (levelSymbols levels ++ l).Nodup) (hne : ∀ level ∈ levels, level ≠ [])
    (h : ∀ vs, vs.length ≤ n → Simulates operand rule (.symbols l) vs) (hlen : ts.length ≤ n) :
    Simulates (levels.foldl (fun operand level => levelled level operand) operand)
      (levels.foldl (fun rule level => Grammar.levelled level rule) rule)
      (.symbols (levelSymbols levels ++ l)) ts := by
  induction levels generalizing operand rule l with
  | nil => exact h ts hlen
  | cons level levels ih =>
    obtain ⟨hfirst, hlevels⟩ := List.forall_mem_cons.mp hne
    obtain ⟨hlevel, _⟩ := Grammar.levelSymbols_disjoint hsymbols
    have hperm : (levelSymbols (level :: levels) ++ l).Perm
        (levelSymbols levels ++ (levelSymbols [level] ++ l)) := by
      rw [← List.append_assoc]
      refine List.Perm.append_right l ?_
      rw [levelSymbols, List.flatten_cons, List.map_append, levelSymbols, levelSymbols,
        List.flatten_singleton]
      exact List.perm_append_comm
    have hone {vs : List Token} (hvs : vs.length ≤ n) := levelled_simulates hfirst h
      (fun op hop hmem => hlevel op hop (List.mem_append_right _ hmem)) hvs
    have hall := ih (hperm.nodup_iff.mp hsymbols) hlevels fun vs => hone
    exact hall.mono fun _ _ => Follow.symbols_mono hperm.symm.subset

end Operators

section Conditionals

variable {sub : Parser Expr} {n : Nat} {ts : List Token}
  (hsub : ∀ vs, vs.length < n → Simulates sub Grammar.expression (.symbols openers) vs)

include hsub

theorem operations_simulates (hlen : ts.length ≤ n) :
    Simulates (operations sub) (Grammar.operation Grammar.expression)
      (.symbols (Grammar.levelSymbols BinaryOp.levels ++ ["(", "["])) ts := by
  refine levels_simulates (by decide) (by decide) (fun vs hvs => ?_) hlen
  exact unary_simulates (fun us hus => indexed_simulates hsub hus) hvs

/-- The branches of a conditional behind the question mark. -/
theorem branches_simulates (hlen : ts.length < n) : Simulates (do
      let thenExpr ← sub
      let _ ← punct ":"
      return (thenExpr, ← sub)) (do
      let thenExpr ← Grammar.expression
      let _ ← Rule.punct ":"
      return (thenExpr, ← Grammar.expression)) (.symbols openers) ts := by
  refine (hsub ts hlen).bind_refused (fun thenExpr mid _ hmid => ?_)
    fun thenExpr mid rest hback => ?_
  · refine (Simulates.token _).bind_never fun colon us _ hus => ?_
    have hle := Nat.le_trans hus.length_le hmid.length_le
    exact (hsub us (by omega)).map fun elseExpr => (thenExpr, elseExpr)
  · exact (refuses_closer hback (by decide)).bind _

theorem conditional_simulates (hlen : ts.length ≤ n) :
    Simulates (conditional sub) (Grammar.conditional Grammar.expression) (.symbols openers) ts := by
  refine (operations_simulates hsub hlen).bind (fun condition mid _ hmid => ?_)
    fun condition mid rest _ hfurther _ hback => ?_
  · have hle := Nat.le_trans hmid.length_le hlen
    have hbranches : ∀ t us, mid = t :: us → t.isPunct "?" → Simulates (do
        let thenExpr ← sub
        let _ ← punct ":"
        return (thenExpr, ← sub)) (do
        let thenExpr ← Grammar.expression
        let _ ← Rule.punct ":"
        return (thenExpr, ← Grammar.expression)) (.symbols openers) us := by
      rintro t us rfl _
      exact branches_simulates hsub hle
    have hrule : (do
        if ← Rule.took "?" then
          let thenExpr ← Grammar.expression
          let _ ← Rule.punct ":"
          let elseExpr ← Grammar.expression
          return .conditional condition thenExpr elseExpr (condition.span.merge elseExpr.span)
        else
          return condition : Rule Expr) = do
        if ← Rule.took "?" then
          let (thenExpr, elseExpr) ← (do
            let thenExpr ← Grammar.expression
            let _ ← Rule.punct ":"
            return (thenExpr, ← Grammar.expression) : Rule (Expr × Expr))
          return .conditional condition thenExpr elseExpr (condition.span.merge elseExpr.span)
        else
          return condition := by
      simp only [bind_assoc, pure_bind]
    rw [hrule]
    refine Simulates.optional (f := fun found => match found with
      | some (thenExpr, elseExpr) =>
        return .conditional condition thenExpr elseExpr (condition.span.merge elseExpr.span)
      | none => return condition) hbranches ?_ ?_ ?_ ?_
    · exact fun _ _ _ _ _ _ _ => .pure _
    · exact fun _ => .pure _
    · exact fun _ _ _ hfurther hback => retreats_pure _ hfurther hback
    · rintro t us rest rfl ht _ hrest
      exact retreats_pure _ (Nat.lt_succ_of_le hrest.length_le)
        (Follow.symbols_some (by simp [openers]) ht)
  · have hrefuses : (branches sub).Refuses mid :=
      (refuses_punct (Follow.not_isPunct_of_symbols (by decide) hback)).bind _
    rw [orNot_bind_of_none (by rw [hrefuses]), hrefuses]
    exact (retreats_pure _ hfurther (Follow.symbols_mono (by decide) hback)).also
      (Attempt.forall_mem_some (Nat.le_of_lt hfurther))

end Conditionals

/-- The parser of expressions comes to the same as the rule that never goes back, except that it may
leave something in front of which an expression can go on. -/
theorem expression_simulates (ts : List Token) :
    Simulates expression Grammar.expression (.symbols openers) ts := by
  have hnested (depth : Nat) : ∀ us : List Token, us.length < depth →
      Simulates (nested conditional depth) Grammar.expression (.symbols openers) us := by
    induction depth with
    | zero => exact fun us hlen => absurd hlen (Nat.not_lt_zero _)
    | succ depth ih =>
      intro us hlen
      rw [Grammar.expression_eq]
      exact conditional_simulates ih (Nat.le_of_lt_succ hlen)
  rw [Simulates, expression, knot]
  exact hnested (ts.length + 1) ts (Nat.lt_succ_self _)

end SolidScript.Parser
