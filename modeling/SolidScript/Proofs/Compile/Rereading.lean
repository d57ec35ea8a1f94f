import SolidScript.Proofs.Compile.Spans
import SolidScript.Proofs.Grammar.Written.Edges
import SolidScript.Proofs.Grammar.Written.Reading
import SolidScript.Proofs.Stmt.Hoisting
import SolidScript.Proofs.Token.Slice

namespace SolidScript

open Grammar

section Reading

variable {limit : Nat} {us ts : List Token} {e : Expr}

/-- Wherever the tokens of an expression stand, they are read as it. -/
theorem Expr.Written.read_again (h : Expr.Written limit us e)
    (hsame : us.map Token.placeless = ts.map Token.placeless) :
    ∃ v, (Parser.expression ts).value? = some (v, []) ∧ v.erase = e.erase := by
  obtain ⟨v, hv, hreads⟩ := h.reads.whole
  have hread : expression us = .done v [] := by
    have hall := hreads [] (Follow.symbols_none _)
    rwa [List.append_nil] at hall
  have hview := expression_alike us ts hsame
  rw [hread] at hview
  cases hagain : expression ts with
  | stuck rest =>
    rw [hagain] at hview
    cases hview
  | done w rest =>
    rw [hagain] at hview
    simp only [Outcome.view, Prod.mk.injEq, Option.some.injEq] at hview
    obtain ⟨hplaceless, hrest⟩ := hview
    obtain rfl := List.map_eq_nil_iff.mp hrest.symm
    refine ⟨w, (Parser.expression_simulates ts).value?_nil_iff.mpr hagain, ?_⟩
    have hforget (d : Expr) : d.placeless.erase = d.erase := Expr.mapTokens_mapTokens _ _ d
    rw [← hforget w, ← hplaceless, hforget, hv]

/-- Tokens that are read as an expression up to their end are balanced. -/
theorem balanced_of_expression (h : (Parser.expression ts).value? = some (e, [])) :
    Token.Balanced ts := by
  have hread := (Parser.expression_simulates ts).value?_nil_iff.mp h
  obtain ⟨us, rfl, hwritten⟩ := expression_yields ts e [] hread
  rw [List.append_nil]
  exact hwritten.balanced

/-- Tokens like those that the span of an expression covers are read as it, with the parentheses at
the edges of the expression put back if need be. -/
theorem Expr.Framed.read_again {opens core closes : List Token} (h : e.Framed opens core closes)
    (he : Expr.Written limit (opens ++ (core ++ closes)) e)
    (hsame : core.map Token.placeless = ts.map Token.placeless) :
    ∃ before after, (∀ t ∈ before, t.isPunct "(") ∧ (∀ t ∈ after, t.isPunct ")") ∧
      (Token.Balanced ts ↔ before = [] ∧ after = []) ∧
      ∃ v, (Parser.expression (before ++ (ts ++ after))).value? = some (v, []) ∧
        v.erase = e.erase := by
  have hlexemes : core.map Token.toLexeme = ts.map Token.toLexeme := by
    have hmapped := congrArg (List.map Token.toLexeme) hsame
    rwa [List.map_map, List.map_map] at hmapped
  have hbalanced := Token.balanced_congr hlexemes
  by_cases hcore : Token.Balanced core
  · refine ⟨[], [], nofun, nofun, by simp [← hbalanced, hcore], ?_⟩
    rw [List.nil_append, List.append_nil]
    exact (h.complete hcore).read_again hsame
  · refine ⟨opens, closes, h.opens, h.closes, ?_, ?_⟩
    · rw [← hbalanced]
      refine ⟨fun hin => absurd hin hcore, ?_⟩
      rintro ⟨rfl, rfl⟩
      simpa using he.balanced
    · refine he.read_again ?_
      simp only [List.map_append, hsame]

end Reading

section Factor

/-- The value that the first statement of a program assigns is a node of it. -/
private theorem exists_first_value (source : String) (span : Span)
    (h : (compile source).toOption.bind (fun program => program.head?.bind fun
      | .assignment _ _ value _ => some value.span
      | _ => none) = some span) :
    ∃ program s e, compile source = .ok program ∧ s ∈ program ∧
      Node.Inside (.stmt s) (.expr e) ∧ e.span = span := by
  obtain ⟨program, hprogram, hhead⟩ := Option.bind_eq_some_iff.mp h
  obtain ⟨s, hs, hvalue⟩ := Option.bind_eq_some_iff.mp hhead
  have hcompile : compile source = .ok program := by
    cases hresult : compile source with
    | error e =>
      rw [hresult] at hprogram
      cases hprogram
    | ok found =>
      rw [hresult] at hprogram
      exact congrArg _ (Option.some.inj hprogram)
  cases s with
  | assignment target token value own =>
    refine ⟨program, _, value, hcompile, List.mem_of_head? hs, ?_, Option.some.inj hvalue⟩
    exact .child .self List.mem_cons_self
  | _ => cases hvalue

private theorem not_balanced_of_factor {tokens : List Token}
    (h : tokenize "a + b) * c" = .ok tokens) : ¬Token.Balanced (Token.significant tokens) := by
  obtain rfl := Except.ok.inj h
  decide +kernel

end Factor

/-- The text that the span of an expression covers is read as the expression, with the parentheses
around operands at its edges put back. There are none to put back if the text is balanced. In a
block comment in the text no opening mark but its own may be directly followed by a slash. -/
theorem compile_rereads (source : String) (program : List Stmt) (h : compile source = .ok program)
    (s : Stmt) (hs : s ∈ program) (e : Expr) (he : Node.Inside (.stmt s) (.expr e)) :
    ∃ all text, tokenize source = .ok all ∧ e.span.Holds source text ∧
      ((∀ t ∈ all, e.span.start ≤ t.offset → t.stop ≤ e.span.stop → t.Firm) →
        ∃ tokens opens closes, tokenize text = .ok tokens ∧ (∀ t ∈ opens, t.isPunct "(") ∧
          (∀ t ∈ closes, t.isPunct ")") ∧
          (Token.Balanced (Token.significant tokens) ↔ opens = [] ∧ closes = []) ∧
          ∃ v, (Parser.expression (opens ++ (Token.significant tokens ++ closes))).value? =
            some (v, []) ∧ v.erase = e.erase) := by
  obtain ⟨statements, hparse, rfl⟩ := parse_of_compile h
  obtain ⟨tokens, htokens, hwritten⟩ := written_of_parse hparse
  obtain ⟨us, hus, hnode⟩ := hwritten.inside (Stmt.mem_of_mem_hoist hs) he
  obtain ⟨limit, hexpr⟩ : ∃ limit, Expr.Written limit us e := by
    cases hnode with
    | expr he => exact ⟨_, he⟩
  have hbetween := (significant_between htokens).sublist hus.sublist
  obtain ⟨opens, core, closes, rfl, hframed⟩ := hexpr.framed hbetween
  have hcore : core <:+: Token.significant tokens := .trans ⟨opens, closes, by simp⟩ hus
  obtain ⟨text, hholds, hslice⟩ := tokenize_slice htokens hcore hframed.nonempty
  rw [← hframed.span] at hholds hslice
  refine ⟨tokens, text, htokens, hholds, fun hfirm => ?_⟩
  obtain ⟨own, hown, hsame⟩ := hslice hfirm
  have hplaceless : core.map Token.placeless = (Token.significant own).map Token.placeless := by
    have hsubset : core ⊆ tokens := (hcore.sublist.trans List.filter_sublist).subset
    rw [significant_placeless hown, hsame, placeless_of_tokenize htokens hsubset]
  obtain ⟨before, after, hbefore, hafter, hbalanced, hread⟩ := hframed.read_again hexpr hplaceless
  exact ⟨own, before, after, hown, hbefore, hafter, hbalanced, hread⟩

/-- A product whose first factor stands in parentheses. -/
theorem compile_rereads_factor :
    ∃ program s e tokens opens closes, compile "x = (a + b) * c;" = .ok program ∧ s ∈ program ∧
      Node.Inside (.stmt s) (.expr e) ∧ e.span.Holds "x = (a + b) * c;" "a + b) * c" ∧
      tokenize "a + b) * c" = .ok tokens ∧ (∀ t ∈ opens, t.isPunct "(") ∧
      (∀ t ∈ closes, t.isPunct ")") ∧ ¬(opens = [] ∧ closes = []) ∧
      ∃ v, (Parser.expression (opens ++ (Token.significant tokens ++ closes))).value? =
        some (v, []) ∧ v.erase = e.erase := by
  obtain ⟨program, s, e, hcompile, hs, he, hspan⟩ :=
    exists_first_value "x = (a + b) * c;" ⟨5, 15⟩ (by decide +kernel)
  have hown : e.span.Holds "x = (a + b) * c;" "a + b) * c" := by
    rw [hspan]
    decide +kernel
  obtain ⟨all, text, hall, hholds, hreads⟩ := compile_rereads _ program hcompile s hs e he
  obtain rfl := hholds.unique hown
  have hfirm : ∀ t ∈ all, t.kind ≠ .comment := by
    obtain rfl := Except.ok.inj hall
    decide +kernel
  obtain ⟨tokens, opens, closes, htokens, hopens, hcloses, hbalanced, hread⟩ :=
    hreads fun t ht _ _ hkind => absurd hkind (hfirm t ht)
  have hunbalanced := not_balanced_of_factor htokens
  exact ⟨program, s, e, tokens, opens, closes, hcompile, hs, he, hown, htokens, hopens, hcloses,
    fun hnone => hunbalanced (hbalanced.mpr hnone), hread⟩

/-- Without the parenthesis in front, the factor is not balanced. A comment may end in another place
where the text behind it is missing. -/
theorem exists_span_incomplete :
    (∃ program s e tokens, compile "x = (a + b) * c;" = .ok program ∧ s ∈ program ∧
        Node.Inside (.stmt s) (.expr e) ∧ e.span.Holds "x = (a + b) * c;" "a + b) * c" ∧
        tokenize "a + b) * c" = .ok tokens ∧ ¬Token.Balanced (Token.significant tokens) ∧
        ∀ v, (Parser.expression (Token.significant tokens)).value? ≠ some (v, [])) ∧
      ∃ program s e fault, compile "x = 1 /* /*/ + \"/*/\"; y = \"*/\";" = .ok program ∧
        s ∈ program ∧ Node.Inside (.stmt s) (.expr e) ∧
        e.span.Holds "x = 1 /* /*/ + \"/*/\"; y = \"*/\";" "1 /* /*/ + \"/*/\"" ∧
        tokenize "1 /* /*/ + \"/*/\"" = .error fault := by
  constructor
  · obtain ⟨program, s, e, hcompile, hs, he, hspan⟩ :=
      exists_first_value "x = (a + b) * c;" ⟨5, 15⟩ (by decide +kernel)
    refine ⟨program, s, e, _, hcompile, hs, he, ?_, rfl, not_balanced_of_factor rfl, ?_⟩
    · rw [hspan]
      decide +kernel
    · exact fun v hread => not_balanced_of_factor rfl (balanced_of_expression hread)
  · obtain ⟨program, s, e, hcompile, hs, he, hspan⟩ :=
      exists_first_value "x = 1 /* /*/ + \"/*/\"; y = \"*/\";" ⟨4, 20⟩ (by decide +kernel)
    refine ⟨program, s, e, _, hcompile, hs, he, ?_, rfl⟩
    rw [hspan]
    decide +kernel

end SolidScript
