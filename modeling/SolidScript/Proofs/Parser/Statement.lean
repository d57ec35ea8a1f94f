import SolidScript.Proofs.Parser.Simple

namespace SolidScript

/-- An `else` whose statement cannot be read. -/
def Retreat.dangling : Retreat := fun mid rest =>
  ∃ t ts, mid = t :: ts ∧ t.isKeyword "else" ∧ Grammar.statement ts = .stuck rest

/-- An `if` by its parts, the last of which may be left out. -/
theorem Grammar.branch_eq (statement : Rule Derivation) : branch statement = do
    let ((condition, thenBranch, elseBranch?), span) ← Rule.spanned do
      let _ ← Rule.keyword "if"
      let _ ← Rule.punct "("
      let condition ← expression
      let _ ← Rule.punct ")"
      let thenBranch ← statement
      if ← Rule.accept (·.isKeyword "else") then
        return (condition, thenBranch, some (← statement))
      else
        return (condition, thenBranch, none)
    return .branch condition thenBranch (elseBranch?.getD .absent) span := by
  have hparts := Rule.spanned_map (do
    let _ ← Rule.keyword "if"
    let _ ← Rule.punct "("
    let condition ← expression
    let _ ← Rule.punct ")"
    let thenBranch ← statement
    if ← Rule.accept (·.isKeyword "else") then
      return (condition, thenBranch, some (← statement))
    else
      return (condition, thenBranch, none))
    fun (condition, thenBranch, elseBranch?) =>
      (condition, thenBranch, elseBranch?.getD Derivation.absent)
  have hite {α β : Type} (taken : Bool) (r s : Rule α) (f : α → Rule β) :
      (if taken then r else s) >>= f = if taken then r >>= f else s >>= f := by
    cases taken <;> rfl
  simp only [bind_assoc, pure_bind, hite, Option.getD_some, Option.getD_none] at hparts
  rw [branch, hparts]
  simp only [bind_assoc, pure_bind]

namespace Parser

section Parts

theorem parameter_simulates (ts : List Token) :
    Simulates parameter Grammar.parameter (.symbols ("=" :: openers)) ts := by
  refine (Simulates.token _).bind_never fun n mid _ _ => ?_
  refine Simulates.optional (f := fun value? => (return ⟨n.text, value?⟩ : Rule Parameter))
    (fun t us _ _ => expression_simulates us) ?_ ?_ ?_ ?_
  · exact fun _ _ _ _ _ _ _ => .pure _
  · exact fun _ => .pure _
  · exact fun _ _ _ hfurther hback =>
      retreats_pure _ hfurther (Follow.symbols_mono (by simp) hback)
  · rintro t us rest rfl ht _ hrest
    exact retreats_pure _ (Nat.lt_succ_of_le hrest.length_le) (Follow.symbols_some (by simp) ht)

theorem parameters_simulates (ts : List Token) :
    Simulates parameters Grammar.parameters .never ts := by
  refine (Simulates.token _).bind_never fun first us _ _ => ?_
  have hlist : Simulates (do
      let params ← separated parameter
      return (params, ← punct ")")) (Rule.listUntil ")" Grammar.parameter) .never us := by
    refine Simulates.list (fun vs _ => parameter_simulates vs) ?_ ?_
    · intro t vs _ ht
      refine (refuses_token ?_).bind _
      rintro _ ⟨⟩
      exact Token.not_isName_of_isPunct ht
    · intro mid rest hback t ht
      exact ⟨Follow.not_isPunct_of_symbols (by decide) hback t ht,
        Follow.not_isPunct_of_symbols (by decide) hback t ht⟩
  have hparams := hlist.map Prod.fst
  simpa only [bind_assoc, pure_bind] using hparams

end Parts

section Productions

variable {sub : Parser Derivation} {n : Nat} {ts : List Token}
  (hsub : ∀ vs, vs.length < n → Simulates sub Grammar.statement .dangling vs)

theorem emptyStatement_simulates (ts : List Token) :
    Simulates emptyStatement Grammar.emptyStatement .never ts :=
  (Simulates.token _).map _

theorem functionDef_simulates (ts : List Token) :
    Simulates functionDef Grammar.functionDef .never ts := by
  refine Simulates.bind_refused (Simulates.spanned ?_)
    (fun _ mid _ _ => terminated_simulates _ mid)
    fun _ mid rest (hback : Retreat.symbols openers mid rest) => terminated_refuses hback
  refine (Simulates.token _).bind_never fun _ _ _ _ => ?_
  refine (Simulates.token _).bind_never fun n us _ _ => ?_
  refine (parameters_simulates us).bind_never fun params _ _ _ => ?_
  refine (Simulates.token _).bind_never fun _ vs _ _ => ?_
  exact (expression_simulates vs).map fun body => (n, params, body)

include hsub

theorem moduleDef_simulates (hlen : ts.length ≤ n) :
    Simulates (moduleDef sub) (Grammar.moduleDef Grammar.statement) .dangling ts := by
  refine Simulates.map (Simulates.spanned ?_) _
  refine (Simulates.token _).bind_never fun _ us hfirst _ => ?_
  rw [(Rule.token_eq_done hfirst).2, List.length_cons] at hlen
  refine (Simulates.token _).bind_never fun name vs _ hvs => ?_
  refine (parameters_simulates vs).bind_never fun params ws _ hws => ?_
  have hle := Nat.le_trans hws.length_le hvs.length_le
  exact (hsub ws (by omega)).map fun body => (name, params, body)

theorem sub_refuses {t : Token} {us : List Token} (hlen : (t :: us).length < n)
    (h : Grammar.statement (t :: us) = .stuck (t :: us)) : sub.Refuses (t :: us) :=
  (hsub _ hlen).refuses_of_stuck h

theorem blockRound_follows (items : List Derivation) (hlen : ts.length < n) :
    RoundFollows sub (punct "\x7d") (Grammar.blockRound Grammar.statement items ts)
      (fun d => items ++ [d]) (fun _ => items) .never ts := by
  by_cases hclose : ∀ t ∈ ts.head?, t.isPunct "\x7d" = false
  · refine .of_item (hsub ts hlen) ?_ ?_ ?_ ?_
    · rw [Grammar.blockRound, Rule.bind_of_done (Rule.took_of_not hclose), Outcome.map_eq]
      rfl
    · exact fun d rest h => Grammar.statement_takes ts d rest h
    · intro rest h
      exact (refuses_punct hclose).retreats ((hsub ts hlen).stuck h).1.length_le
    · rintro _ rest hfurther hmid ⟨t, us, rfl, ht, _⟩
      refine ⟨sub_refuses hsub (by omega) (Grammar.statement_of_else ht us), ?_⟩
      refine (refuses_punct ?_).retreats (Nat.le_of_lt hfurther)
      rintro _ ⟨⟩
      exact Grammar.not_isPunct_of_isKeyword ht
  · obtain ⟨t, us, rfl, ht⟩ := Rule.exists_cons_of_not hclose
    have hread : punct "\x7d" (t :: us) = ⟨some (t, us), none⟩ := if_pos ht
    refine .of_refuses (sub_refuses hsub hlen (Grammar.statement_of_brace ht us))
      (List.suffix_cons t us) (c := t) ?_ ?_
    · rw [hread]
      exact ⟨rfl, Attempt.within_none _ _⟩
    · rw [Grammar.blockRound, Rule.bind_of_done (Rule.took_of_isPunct ht us)]
      rfl

theorem compound_simulates (hlen : ts.length ≤ n) :
    Simulates (compound sub) (Grammar.compound Grammar.statement) .never ts := by
  refine Simulates.map (Simulates.spanned ?_) _
  refine (Simulates.token _).bind_never fun _ us hfirst _ => ?_
  rw [(Rule.token_eq_done hfirst).2, List.length_cons] at hlen
  exact Simulates.collected fun items vs hvs => blockRound_follows hsub items (by omega)

/-- An `else` with its statement, or nothing. If that statement cannot be read, the `else` may be
left. -/
theorem else_simulates (condition : Expr) (thenBranch : Derivation) (hlen : ts.length ≤ n) :
    Simulates (do
      let elseBranch? ← orNot do
        let _ ← keyword "else"
        sub
      return (condition, thenBranch, elseBranch?)) (do
      if ← Rule.accept (·.isKeyword "else") then
        return (condition, thenBranch, some (← Grammar.statement))
      else
        return (condition, thenBranch, none)) .dangling ts := by
  have helse : ∀ t us, ts = t :: us → t.isKeyword "else" →
      Simulates sub Grammar.statement .dangling us := by
    rintro t us rfl _
    exact hsub us hlen
  refine Simulates.optional (f := fun elseBranch? =>
    (return (condition, thenBranch, elseBranch?) : Rule _)) helse ?_ ?_ ?_ ?_
  · exact fun _ _ _ _ _ _ _ => .pure _
  · exact fun _ => .pure _
  · exact fun _ _ _ hfurther hback => retreats_pure _ hfurther hback
  · rintro t us rest rfl ht hstuck hrest
    exact retreats_pure _ (Nat.lt_succ_of_le hrest.length_le) ⟨t, us, rfl, ht, hstuck⟩

theorem branch_simulates (hlen : ts.length ≤ n) :
    Simulates (branch sub) (Grammar.branch Grammar.statement) .dangling ts := by
  have hblock : Simulates (do
      let _ ← keyword "if"
      let _ ← punct "("
      let condition ← expression
      let _ ← punct ")"
      let thenBranch ← sub
      let elseBranch? ← orNot do
        let _ ← keyword "else"
        sub
      return (condition, thenBranch, elseBranch?)) (do
      let _ ← Rule.keyword "if"
      let _ ← Rule.punct "("
      let condition ← Grammar.expression
      let _ ← Rule.punct ")"
      let thenBranch ← Grammar.statement
      if ← Rule.accept (·.isKeyword "else") then
        return (condition, thenBranch, some (← Grammar.statement))
      else
        return (condition, thenBranch, none)) .dangling ts := by
    refine (Simulates.token _).bind_never fun _ us hfirst _ => ?_
    rw [(Rule.token_eq_done hfirst).2, List.length_cons] at hlen
    refine (Simulates.token _).bind_never fun _ vs _ hvs => ?_
    refine (expression_simulates vs).bind_refused (fun condition ws _ hws => ?_)
      fun _ _ _ hback => (refuses_closer hback (by decide)).bind _
    refine (Simulates.token _).bind_never fun _ xs _ hxs => ?_
    have hle := Nat.le_trans hxs.length_le (Nat.le_trans hws.length_le hvs.length_le)
    refine (hsub xs (by omega)).bind (fun thenBranch mid _ hmid => ?_) ?_
    · exact else_simulates hsub condition thenBranch (Nat.le_trans hmid.length_le (by omega))
    · rintro thenBranch _ rest _ _ hmid ⟨t, ys, rfl, ht, hstuck⟩
      -- The inner statement has given the `else` back, and it is read once more from here.
      have hread := else_simulates hsub condition thenBranch (Nat.le_trans hmid (by omega))
      refine (hread.stuck ?_).2.2
      rw [Rule.bind_of_done (Rule.accept_of_satisfies ht ys), if_pos rfl]
      exact Rule.bind_of_stuck hstuck _
  have hbranch := hblock.spanned.map fun ((condition, thenBranch, elseBranch?), span) =>
    Derivation.branch condition thenBranch (elseBranch?.getD .absent) span
  rw [Grammar.branch_eq]
  exact hbranch

end Productions

section Statements

variable {sub : Parser Derivation} {n : Nat} {ts : List Token}

/-- A production that a token could announce refuses all others. -/
theorem announced_refuses {p : Production} (hp : p ∉ [.moduleCall, .assignment, .expression])
    (h : ∀ t ∈ ts.head?, Production.announced? t ≠ some p) : (production sub p).Refuses ts := by
  have hpunct {s : String} (hs : ∀ t : Token, t.isPunct s → Production.announced? t = some p) :
      (punct s).Refuses ts :=
    refuses_punct fun t ht => Bool.eq_false_iff.mpr fun hpunct => h t ht (hs t hpunct)
  have hkeyword {s : String} (hs : ∀ t : Token, t.isKeyword s → Production.announced? t = some p) :
      (keyword s).Refuses ts :=
    refuses_token fun t ht => Bool.eq_false_iff.mpr fun hword => h t ht (hs t hword)
  cases p with
  | empty => exact (hpunct fun t ht => Grammar.announced?_iff.mpr (by simp [ht])).bind _
  | compound =>
    exact ((hpunct fun t ht => Grammar.announced?_iff.mpr (by simp [ht])).bind _).spanned.bind _
  | branch =>
    exact ((hkeyword fun t ht => Grammar.announced?_iff.mpr (by simp [ht])).bind _).spanned.bind _
  | moduleDef =>
    exact ((hkeyword fun t ht => Grammar.announced?_iff.mpr (by simp [ht])).bind _).spanned.bind _
  | functionDef =>
    exact ((hkeyword fun t ht => Grammar.announced?_iff.mpr (by simp [ht])).bind _).spanned.bind _
  | _ => simp at hp

/-- The productions that begin with an expression refuse what begins none. -/
theorem production_refuses {p : Production} (hp : p ∈ [.moduleCall, .assignment, .expression])
    (hread : Grammar.expression ts = .stuck ts) (hname : ∀ t ∈ ts.head?, t.isName = false) :
    (production sub p).Refuses ts := by
  have hexpression := (expression_simulates ts).refuses_of_stuck hread
  cases p with
  | moduleCall => exact moduleCall_refuses hname
  | assignment => exact assignment_refuses hexpression
  | expression => exact expressionStatement_refuses hexpression
  | _ => simp at hp

variable (hsub : ∀ vs, vs.length < n → Simulates sub Grammar.statement .dangling vs)

include hsub

theorem announced_simulates {t : Token} {p : Production} (h : Production.announced? t = some p)
    (hlen : ts.length ≤ n) :
    Simulates (production sub p) (p.parse Grammar.statement) .dangling ts := by
  obtain ⟨rfl, _⟩ | ⟨rfl, _⟩ | ⟨rfl, _⟩ | ⟨rfl, _⟩ | ⟨rfl, _⟩ := Grammar.announced?_cases h
  · exact Attempt.Follows.never (emptyStatement_simulates ts) _
  · exact Attempt.Follows.never (compound_simulates hsub hlen) _
  · exact branch_simulates hsub hlen
  · exact moduleDef_simulates hsub hlen
  · exact Attempt.Follows.never (functionDef_simulates ts) _

theorem anyStatement_simulates (hlen : ts.length ≤ n) :
    Simulates (anyStatement sub) (Grammar.anyStatement Grammar.statement) .dangling ts := by
  cases ts with
  | nil =>
    refine .of_refuses (choice_refuses (by simp [Production.all]) fun q hq => ?_) rfl
    obtain ⟨p, _, rfl⟩ := List.mem_map.mp hq
    by_cases hp : p ∈ [.moduleCall, .assignment, .expression]
    · exact production_refuses hp rfl (by simp)
    · exact announced_refuses hp (by simp)
  | cons t us =>
    cases ht : Production.announced? t with
    | some p =>
      have hread : Simulates (production sub p) (Grammar.anyStatement Grammar.statement) .dangling
          (t :: us) := by
        simp only [Simulates, Grammar.anyStatement, ht]
        exact announced_simulates hsub ht hlen
      have hname : t.isName = false := Bool.eq_false_iff.mpr fun hname => by
        simp [Grammar.announced?_of_isName hname] at ht
      refine .choice_map (by decide) (by cases p <;> decide) hread fun q hq => ?_
      by_cases hsimple : q ∈ [.moduleCall, .assignment, .expression]
      · exact production_refuses hsimple (Grammar.expression_of_announced ht us)
          (by simpa using hname)
      · refine announced_refuses hsimple ?_
        rintro _ ⟨⟩
        rw [ht]
        exact fun heq => hq (Option.some.inj heq).symm
    | none =>
      have hother {p : Production} (hp : p ∉ [.moduleCall, .assignment, .expression]) :
          (production sub p).Refuses (t :: us) := announced_refuses hp (by simp [ht])
      have hread : Simulates (choice [moduleCall, assignment, expressionStatement])
          (Grammar.anyStatement Grammar.statement) .dangling (t :: us) := by
        simp only [Simulates, Grammar.anyStatement, ht]
        exact Attempt.Follows.never (simple_simulates (t :: us)) _
      refine .choice_skip (hother (p := .empty) (by decide)) ?_
      refine .choice_skip (hother (p := .compound) (by decide)) ?_
      refine .choice_skip (hother (p := .branch) (by decide)) ?_
      refine .choice_skip (hother (p := .moduleDef) (by decide)) ?_
      exact .choice_skip (hother (p := .functionDef) (by decide)) hread

omit hsub

/-- The parser of statements comes to the same as the rule that never goes back, except that it may
leave an `else` whose statement cannot be read. -/
theorem statement_simulates (ts : List Token) :
    Simulates statement Grammar.statement .dangling ts := by
  have hnested (depth : Nat) : ∀ us : List Token, us.length < depth →
      Simulates (nested anyStatement depth) Grammar.statement .dangling us := by
    induction depth with
    | zero => exact fun us hlen => absurd hlen (Nat.not_lt_zero _)
    | succ depth ih =>
      intro us hlen
      rw [Grammar.statement_eq]
      exact anyStatement_simulates ih (Nat.le_of_lt_succ hlen)
  rw [Simulates, statement, knot]
  exact hnested (ts.length + 1) ts (Nat.lt_succ_self _)

end Statements

end Parser

end SolidScript
