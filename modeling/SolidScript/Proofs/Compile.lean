import SolidScript.Compile
import SolidScript.Proofs.Grammar.Blindness.Statement
import SolidScript.Proofs.Grammar.Sequence
import SolidScript.Proofs.Token.Cutting

namespace SolidScript

open Grammar Lexical

/-- The statements that significant tokens stand for. -/
def statementsOf (ts : List Token) : Except ParseError (List Stmt) := do
  (← parseTokens ts).statements

section Sources

variable {source : String} {tokens : List Token} {statements : List Stmt}

theorem parse_of_tokenize (h : tokenize source = .ok tokens) :
    parse source = (statementsOf (Token.significant tokens)).mapError .parse := by
  have hderive : derive source = (parseTokens (Token.significant tokens)).mapError .parse := by
    rw [derive, h]
    rfl
  rw [parse, hderive, statementsOf]
  cases parseTokens (Token.significant tokens) <;> rfl

theorem compile_of_tokenize (h : tokenize source = .ok tokens) :
    compile source =
      match statementsOf (Token.significant tokens) with
      | .ok statements => .ok (Stmt.hoist statements)
      | .error e => .error (.parse e) := by
  simp only [compile, parse_of_tokenize h]
  cases statementsOf (Token.significant tokens) <;> rfl

theorem tokenize_of_parse (h : parse source = .ok statements) :
    ∃ tokens, tokenize source = .ok tokens ∧
      statementsOf (Token.significant tokens) = .ok statements := by
  cases htokens : tokenize source with
  | error e =>
    simp only [parse, derive, htokens] at h
    cases h
  | ok tokens =>
    rw [parse_of_tokenize htokens] at h
    refine ⟨tokens, rfl, ?_⟩
    cases hread : statementsOf (Token.significant tokens) with
    | ok found =>
      rw [hread] at h
      exact congrArg Except.ok (Except.ok.inj h)
    | error e =>
      rw [hread] at h
      cases h

theorem parse_of_compile (h : compile source = .ok statements) :
    ∃ found, parse source = .ok found ∧ statements = Stmt.hoist found := by
  cases hparse : parse source with
  | error e =>
    simp only [compile, hparse] at h
    cases h
  | ok found =>
    simp only [compile, hparse] at h
    exact ⟨found, rfl, (Except.ok.inj h).symm⟩

end Sources

theorem sequence_of_statementsOf {ts : List Token} {ss : List Stmt} (h : statementsOf ts = .ok ss) :
    ∃ read, program ts = .done read [] ∧
      Derivation.statementsAll (read.map Prod.fst) = .ok ss := by
  unfold statementsOf at h
  cases hread : parseTokens ts with
  | error e =>
    rw [hread] at h
    cases h
  | ok d =>
    obtain ⟨read, hprogram, rfl⟩ := program_of_parseTokens hread
    rw [hread] at h
    change (Derivation.sequence _).statements = _ at h
    rw [Derivation.statements] at h
    exact ⟨read, hprogram, h⟩

theorem statementsOf_placeless {ts us : List Token}
    (h : ts.map Token.placeless = us.map Token.placeless) :
    Derivation.placelessResult (statementsOf ts) =
      Derivation.placelessResult (statementsOf us) := by
  obtain ⟨d, e, hts, hus, hde⟩ | ⟨e, f, hts, hus, hef⟩ := parseTokens_placeless h
  · simp only [statementsOf, hts, hus]
    exact Derivation.statements_placeless d e hde
  · simp only [statementsOf, hts, hus]
    exact congrArg Except.error hef

/-- A lexeme at no place. -/
def Lexeme.placeless (l : Lexeme) : Token :=
  ⟨l, 0, byteLength l.text.toList, 1, 1, l.text.toList.any isBreak⟩

theorem placeless_of_place {p : Position} {ls : List Lexeme} {t : Token}
    (h : t ∈ (place p ls).1) : t.placeless = t.toLexeme.placeless := by
  induction ls generalizing p with
  | nil => cases h
  | cons l ls ih =>
    obtain rfl | h := List.mem_cons.mp h
    · rfl
    · exact ih h

/-- Without their places, the tokens of a text are what they spell. -/
theorem placeless_of_tokenize {source : String} {tokens us : List Token}
    (h : tokenize source = .ok tokens) (hus : us ⊆ tokens) :
    us.map Token.placeless = (us.map Token.toLexeme).map Lexeme.placeless := by
  obtain ⟨ls, _, rfl⟩ := tokenize_eq_ok_iff.mp h
  rw [List.map_map]
  exact List.map_congr_left fun t ht => placeless_of_place (hus ht)

theorem significant_placeless {source : String} {tokens : List Token}
    (h : tokenize source = .ok tokens) :
    (Token.significant tokens).map Token.placeless =
      ((Token.significant tokens).map Token.toLexeme).map Lexeme.placeless :=
  placeless_of_tokenize h List.filter_sublist.subset

end SolidScript
