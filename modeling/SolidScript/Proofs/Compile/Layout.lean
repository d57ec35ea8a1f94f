import SolidScript.Proofs.Compile
import SolidScript.Proofs.Token.Spacing

namespace SolidScript

open Lexical

/-- The significant tokens written out with single spaces between them. -/
def Token.spaced (tokens : List Token) : String :=
  " ".intercalate ((significant tokens).map (·.text))

theorem Token.spaced_eq (tokens : List Token) :
    spaced tokens =
      " ".intercalate ((Lexeme.significant (tokens.map Token.toLexeme)).map Lexeme.text) := by
  rw [spaced, ← map_significant, List.map_map]
  rfl

/-- The texts compile to the same statements but for places, or both fail with the same error but
for places. -/
def CompileAlike (a b : String) : Prop :=
  (∃ p q, compile a = .ok p ∧ compile b = .ok q ∧ p.map Stmt.placeless = q.map Stmt.placeless) ∨
    ∃ e f, compile a = .error (.parse e) ∧ compile b = .error (.parse f) ∧
      e.placeless = f.placeless

/-- What a text compiles to depends on its words only. -/
theorem compileAlike_of_words {a b : String} {ts us : List Token} (ha : tokenize a = .ok ts)
    (hb : tokenize b = .ok us)
    (h : (Token.significant ts).map Token.toLexeme = (Token.significant us).map Token.toLexeme) :
    CompileAlike a b := by
  have hplaceless : (Token.significant ts).map Token.placeless =
      (Token.significant us).map Token.placeless := by
    rw [significant_placeless ha, significant_placeless hb, h]
  have hresult := statementsOf_placeless hplaceless
  have hcompile := compile_of_tokenize ha
  have hcompile' := compile_of_tokenize hb
  cases hts : statementsOf (Token.significant ts) <;>
    cases hus : statementsOf (Token.significant us) <;>
    simp only [hts, hus, Derivation.placelessResult, reduceCtorEq, Except.ok.injEq,
      Except.error.injEq] at hresult hcompile hcompile'
  · exact .inr ⟨_, _, hcompile, hcompile', hresult⟩
  · refine .inl ⟨_, _, hcompile, hcompile', ?_⟩
    rw [Stmt.hoist_placeless, Stmt.hoist_placeless, hresult]

/-- A text that can be cut into tokens is the same text as its significant tokens with single spaces
between them: this is cut into the same words, and both compile to the same or fail for the same
reason. -/
theorem compile_spaced (source : String) (tokens : List Token) (h : tokenize source = .ok tokens) :
    ∃ spaced, tokenize (Token.spaced tokens) = .ok spaced ∧
      (Token.significant spaced).map Token.toLexeme =
        (Token.significant tokens).map Token.toLexeme ∧
      CompileAlike source (Token.spaced tokens) := by
  obtain ⟨ls, hcuts, rfl⟩ := tokenize_eq_ok_iff.mp h
  have hwords : Words (Token.spaced (place Position.start ls).1).toList
      (Lexeme.significant ls) := by
    rw [Token.spaced_eq, place_toLexeme]
    exact .spaced (fun l hl => by simpa using (List.mem_filter.mp hl).2) hcuts.standalone
  obtain ⟨spaced, hspaced, hsame⟩ := words_iff_tokenize.mp hwords
  have hlexemes : (Token.significant spaced).map Token.toLexeme =
      (Token.significant (place Position.start ls).1).map Token.toLexeme := by
    rw [hsame, Token.map_significant, place_toLexeme]
  exact ⟨spaced, hspaced, hlexemes, compileAlike_of_words h hspaced hlexemes.symm⟩

/-- A comment between two words can go, and the letter behind a number stays a word of its own. -/
theorem compile_spaced_words :
    (∃ tokens, tokenize "x=a/*+*/-b;" = .ok tokens ∧ Token.spaced tokens = "x = a - b ;" ∧
        CompileAlike "x=a/*+*/-b;" "x = a - b ;") ∧
      ∃ tokens, tokenize "x=1.e;" = .ok tokens ∧ Token.spaced tokens = "x = 1. e ;" ∧
        CompileAlike "x=1.e;" "x = 1. e ;" := by
  obtain ⟨_, _, _, hcomment⟩ := compile_spaced "x=a/*+*/-b;" _ rfl
  obtain ⟨_, _, _, hnumber⟩ := compile_spaced "x=1.e;" _ rfl
  exact ⟨⟨_, rfl, rfl, hcomment⟩, _, rfl, rfl, hnumber⟩

end SolidScript
