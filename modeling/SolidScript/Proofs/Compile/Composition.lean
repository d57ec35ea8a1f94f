import SolidScript.Proofs.Compile
import SolidScript.Proofs.Stmt.Hoisting
import SolidScript.Proofs.Token.Spacing

namespace SolidScript

open Grammar Lexical

theorem statementsOf_append {ts us : List Token} {ss ss' : List Stmt}
    (hts : statementsOf ts = .ok ss) (hus : statementsOf us = .ok ss') :
    statementsOf (ts ++ us) = .ok (ss ++ ss') := by
  obtain ⟨read, hread, hss⟩ := sequence_of_statementsOf hts
  obtain ⟨read', hread', hss'⟩ := sequence_of_statementsOf hus
  rw [statementsOf, parseTokens_of_done (program_append hread hread'), List.map_append]
  change (Derivation.sequence _).statements = _
  rw [Derivation.statements]
  exact Derivation.statementsAll_append hss hss'

/-- The words of a text with another one on a new line behind it are those of the two. -/
theorem words_append {a b : String} {ts us : List Token} (ha : tokenize a = .ok ts)
    (hb : tokenize b = .ok us) (hno : ¬"/*/".toList <:+: a.toList) :
    ∃ vs, tokenize (a ++ "\n" ++ b) = .ok vs ∧
      (Token.significant vs).map Token.toLexeme =
        (Token.significant ts ++ Token.significant us).map Token.toLexeme := by
  have hfirst : Words a.toList _ := words_iff_tokenize.mpr ⟨ts, ha, rfl⟩
  have hsecond : Words b.toList _ := words_iff_tokenize.mpr ⟨us, hb, rfl⟩
  have hboth := hfirst.append hno (hsecond.blank (c := '\n') rfl)
  rw [← List.map_append] at hboth
  apply words_iff_tokenize.mp
  rw [String.toList_append, String.toList_append, List.append_assoc]
  exact hboth

/-- Compiling goes by parts. -/
theorem compile_append (a b : String) (p q : List Stmt) (ha : compile a = .ok p)
    (hb : compile b = .ok q) (hno : ¬"/*/".toList <:+: a.toList) :
    ∃ both, compile (a ++ "\n" ++ b) = .ok both ∧
      both.map Stmt.placeless = (Stmt.hoist (p ++ q)).map Stmt.placeless := by
  obtain ⟨found, hparse, rfl⟩ := parse_of_compile ha
  obtain ⟨found', hparse', rfl⟩ := parse_of_compile hb
  obtain ⟨ts, hts, hss⟩ := tokenize_of_parse hparse
  obtain ⟨us, hus, hss'⟩ := tokenize_of_parse hparse'
  obtain ⟨vs, hvs, hwords⟩ := words_append hts hus hno
  have hplaceless : (Token.significant vs).map Token.placeless =
      (Token.significant ts ++ Token.significant us).map Token.placeless := by
    rw [significant_placeless hvs, hwords, List.map_append, List.map_append, List.map_append,
      significant_placeless hts, significant_placeless hus]
  have hresult := statementsOf_placeless hplaceless
  rw [statementsOf_append hss hss'] at hresult
  have hcompile := compile_of_tokenize hvs
  cases hall : statementsOf (Token.significant vs) with
  | error e =>
    rw [hall] at hresult
    cases hresult
  | ok all =>
    rw [hall] at hresult hcompile
    refine ⟨_, hcompile, ?_⟩
    rw [Stmt.hoist_append, Stmt.hoist_placeless, Stmt.hoist_placeless]
    exact congrArg Stmt.hoist (Except.ok.inj hresult)

/-- The last line of the first text is a comment, and the second text declares `x` again. -/
theorem compile_append_redeclared :
    ∃ p q both, compile "x=a;//" = .ok p ∧ compile "y=x;x=b;" = .ok q ∧
      compile "x=a;//\ny=x;x=b;" = .ok both ∧
      both.map Stmt.placeless = (Stmt.hoist (p ++ q)).map Stmt.placeless := by
  have hfirst : (compile "x=a;//").isOk := by decide +kernel
  have hsecond : (compile "y=x;x=b;").isOk := by decide +kernel
  cases ha : compile "x=a;//" with
  | error e =>
    rw [ha] at hfirst
    cases hfirst
  | ok p =>
    cases hb : compile "y=x;x=b;" with
    | error e =>
      rw [hb] at hsecond
      cases hsecond
    | ok q =>
      obtain ⟨both, hboth, hsame⟩ := compile_append "x=a;//" "y=x;x=b;" p q ha hb (by decide)
      exact ⟨p, q, both, rfl, rfl, hboth, hsame⟩

end SolidScript
