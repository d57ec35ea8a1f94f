import SolidScript.Proofs.Grammar.Prediction.Expression
import SolidScript.Proofs.Grammar.Recursion.Statement

namespace SolidScript

/-- No `else` comes next. -/
def Follow.notElse : Follow := fun o => ∀ t ∈ o, t.isKeyword "else" = false

namespace Grammar

open Rule

section Parts

variable {n : Nat} {first : Follow}

theorem expression_predicts : Predicts n (fun _ => 1) (· = some Token.someName)
    (fun _ => Follow.symbols closers) expression :=
  (expression_inner n).predicts

theorem expression_predictsAt (ts : List Token) :
    PredictsAt expression (fun _ => Follow.symbols closers) ts :=
  expression_predicts.below ts (Nat.lt_succ_self _)

theorem terminated_predicts (node : Derivation) (hfirst : first (some (Token.ofPunct ";"))) :
    Predicts n (fun _ => 1) first (fun _ => Follow.any) (terminated node) :=
  last_predicts hfirst

theorem parameter_predicts :
    Predicts n (fun _ => 1) (· = some Token.someName) (fun _ => Follow.symbols [",", ")"])
      parameter := by
  have hplain {o : Option Token} (ho : Follow.symbols [",", ")"] o) :
      Follow.any o ∧ ∀ t ∈ o, t.isPunct "=" = false :=
    ⟨trivial, Follow.not_isPunct_of_symbols (by decide) ho⟩
  have hvalue : Predicts (n - 1 - 1) (fun _ => 1) Follow.any (fun _ => Follow.symbols closers)
      expression := expression_predicts.start (Nat.le_refl _) trivial
  have hle {o : Option Token} : Follow.symbols [",", ")"] o → Follow.symbols closers o :=
    Follow.symbols_mono (by decide)
  refine .token_bind Token.someName (by simp) rfl fun name => ?_
  refine .accept_bind (Nat.zero_le _) ?_ (.pure fun o => hplain) fun _ _ o => hplain
  exact .drop (hvalue.bind (fun value => .pure fun _ => hle) fun _ _ _ => hle)

theorem parameters_predicts (hfirst : first (some (Token.ofPunct "("))) :
    Predicts n (fun _ => 1) first (fun _ => Follow.any) parameters := by
  have hlist : Predicts (n - 1) (fun _ => 0) Follow.any (fun _ => Follow.any)
      (listUntil ")" parameter) :=
    listUntil_predicts parameter_predicts (by simp) (Follow.symbols_ofPunct (by decide)) (by decide)
  refine .token_bind (Token.ofPunct "(") (by simp) hfirst fun _ => ?_
  exact hlist.bind (fun params => .pure fun _ _ => trivial) fun _ _ _ _ => trivial

end Parts

section Productions

variable {n : Nat} {sub : Rule Derivation}
  (h : Predicts n (fun _ => 1) (· = some (Token.ofPunct ";")) (fun _ => Follow.notElse) sub)

include h

private theorem blockRound_predicts (items : List Derivation) :
    Predicts n (fun _ => 1) Follow.notElse (Round.follow Follow.notElse fun _ => Follow.any)
      (blockRound sub items) := by
  refine .accept_bind (Nat.le_refl 1) (.pure fun _ _ => trivial) ?_ (by simp)
  exact (h.start (Nat.le_refl n) (by simp [Follow.notElse])).map fun _ _ => id

theorem compound_predicts :
    Predicts (n + 1) (fun _ => 1) (· = some (Token.ofPunct "\x7b")) (fun _ => Follow.any)
      (compound sub) := by
  have htakes (items : List Derivation) : Takes (fun _ => 1) (loop (blockRound sub) items) :=
    loop_takes fun items => (blockRound_predicts h items).takes
  have hblock : Predicts n (fun _ => 0) Follow.notElse (fun _ => Follow.any)
      (loop (blockRound sub) []) := by
    refine .loop [] (fun items => ?_) (fun items ts hlen => ?_) (fun items => ?_)
      fun items ts v hread => ?_
    · exact Agree.takes_of_forall fun _ => blockRound_agree h.agree
    · exact (blockRound_predicts h items).below ts hlen
    · refine ⟨[Token.ofPunct "\x7d"], items, fun rest _ => ?_, fun _ _ => by simp [Follow.notElse]⟩
      simp [blockRound, took, Rule.accept]
    · have hone : ts.length + 1 ≤ ts.length := htakes items ts v ts hread
      omega
  have hinner : Predicts (n + 1) (fun _ => 1) (· = some (Token.ofPunct "\x7b"))
      (fun _ => Follow.any) (do let _ ← punct "\x7b"; loop (blockRound sub) []) :=
    .token_bind (Token.ofPunct "\x7b") (by simp) rfl fun _ =>
      hblock.mono (by omega) (fun _ => Nat.le_refl _) (fun _ _ => trivial) fun _ _ => id
  exact hinner.spanned.map fun _ _ _ => trivial

theorem branch_predicts :
    Predicts (n + 1) (fun _ => 1) (· = some (Token.ofKeyword "if")) (fun _ => Follow.notElse)
      (branch sub) := by
  refine Predicts.map (Predicts.spanned (a := Follow.notElse) ?_) fun _ _ => id
  refine .token_bind (Token.ofKeyword "if") (by simp) rfl fun _ => .drop (c := fun _ => 1) ?_
  refine .token_bind (Token.ofPunct "(") (by simp) trivial fun _ => .drop (c := fun _ => 1) ?_
  refine (expression_predicts.start (Nat.le_refl _) trivial).ends fun condition => ?_
  refine .token_bind (Token.ofPunct ")") (by simp) (Follow.symbols_ofPunct (by decide)) fun _ => ?_
  refine .drop (c := fun _ => 1) ((h.start (by omega) trivial).bind (fun thenBranch => ?_) ?_)
  · have helse : Predicts (n + 1 - 1 - 1 - 1 - 1 - 1 - 1) (fun _ => 1) Follow.any
        (fun _ => Follow.notElse) sub := h.start (by omega) trivial
    refine .accept_bind (Nat.zero_le _) (.drop (helse.map fun _ _ => id)) ?_ ?_
    · exact .pure fun o ho => ⟨ho, ho⟩
    · exact fun _ _ o ho => ⟨ho, ho⟩
  · exact fun _ _ _ => id

theorem moduleDef_predicts :
    Predicts (n + 1) (fun _ => 1) (· = some (Token.ofKeyword "module")) (fun _ => Follow.notElse)
      (moduleDef sub) := by
  refine Predicts.map (Predicts.spanned (a := Follow.notElse) ?_) fun _ _ => id
  refine .token_bind (Token.ofKeyword "module") (by simp) rfl fun _ => .drop (c := fun _ => 1) ?_
  refine .token_bind Token.someName (by simp) trivial fun name => .drop (c := fun _ => 1) ?_
  refine (parameters_predicts trivial).ends fun params => ?_
  exact (h.start (by omega) trivial).map fun _ _ => id

omit h

theorem functionDef_predicts :
    Predicts n (fun _ => 1) (· = some (Token.ofKeyword "function")) (fun _ => Follow.any)
      functionDef := by
  have hinner : Predicts n (fun _ => 1) (· = some (Token.ofKeyword "function"))
      (fun _ => Follow.symbols closers) (do
        let _ ← keyword "function"
        let n ← name
        let params ← parameters
        let _ ← punct "="
        let body ← expression
        return (n, params, body)) := by
    refine .token_bind (Token.ofKeyword "function") (by simp) rfl fun _ => ?_
    refine .drop (c := fun _ => 1) ?_
    refine .token_bind Token.someName (by simp) trivial fun name => .drop (c := fun _ => 1) ?_
    refine (parameters_predicts trivial).ends fun params => ?_
    refine .token_bind (Token.ofPunct "=") (by simp) trivial fun _ => .drop (c := fun _ => 1) ?_
    exact (expression_predicts.start (Nat.le_refl _) trivial).map fun _ _ => id
  exact hinner.spanned.ends fun parts =>
    terminated_predicts _ (Follow.symbols_ofPunct (by decide))

end Productions

end Grammar

end SolidScript
