import SolidScript.Proofs.Compile
import SolidScript.Proofs.Grammar.Written.Statement
import SolidScript.Proofs.Stmt.Rendering

namespace SolidScript

open Lexeme

theorem Token.text_of_isPunct {t : Token} {symbol : String} (h : t.isPunct symbol) :
    t.text = symbol := by
  simp only [isPunct, Bool.and_eq_true, decide_eq_true_eq] at h
  exact h.2

theorem Token.text_of_isKeyword {t : Token} {word : String} (h : t.isKeyword word) :
    t.text = word := by
  simp only [isKeyword, Bool.and_eq_true, decide_eq_true_eq] at h
  exact h.2

/-- The words of tokens. -/
def Token.words (ts : List Token) : List String := Lexeme.words (ts.map Token.toLexeme)

@[simp] theorem Token.words_nil : words [] = [] := rfl

@[simp] theorem Token.words_append (ts us : List Token) :
    words (ts ++ us) = words ts ++ words us := by
  simp [words]

@[simp] theorem Token.words_cons (t : Token) (ts : List Token) :
    words (t :: ts) = word t.text ++ words ts := by
  simp [words]

mutual

theorem Expr.Written.words {limit : Nat} {us : List Token} {e : Expr} :
    Expr.Written limit us e → Token.words us = Lexeme.words e.render
  | .literal _ => by simp [Expr.render]
  | .identifier _ => by simp [Expr.render]
  | .vector hfirst hlast helements => by
    simp [Expr.render, Expr.renderAll_eq, Token.text_of_isPunct hfirst, Token.text_of_isPunct hlast,
      Expr.Written.words_separated helements]
  | .range hfirst hcolon hlast ha hb => by
    simp [Expr.render, Token.text_of_isPunct hfirst, Token.text_of_isPunct hcolon,
      Token.text_of_isPunct hlast, ha.words, hb.words]
  | .steppedRange hfirst hcolon hsecond hlast ha hb hc => by
    simp [Expr.render, Token.text_of_isPunct hfirst, Token.text_of_isPunct hcolon,
      Token.text_of_isPunct hsecond, Token.text_of_isPunct hlast, ha.words, hb.words, hc.words]
  | .parenthesised hfirst hlast he => by
    simp [Token.text_of_isPunct hfirst, Token.text_of_isPunct hlast, he.words, word, grouping]
  | .unary _ ht he => by simp [Expr.render, Token.text_of_isPunct ht, he.words]
  | .binary _ hleft ht hright => by
    simp [Expr.render, Token.text_of_isPunct ht, hleft.words, hright.words]
  | .conditional _ hcondition ht ha hu hb => by
    simp [Expr.render, Token.text_of_isPunct ht, Token.text_of_isPunct hu, hcondition.words,
      ha.words, hb.words]
  | .index _ hobject hfirst hi hlast => by
    simp [Expr.render, Token.text_of_isPunct hfirst, Token.text_of_isPunct hlast, hobject.words,
      hi.words]
  | .call ht hfirst hlast harguments => by
    simp [Expr.render, Argument.renderAll_eq, Token.text_of_isPunct hfirst,
      Token.text_of_isPunct hlast, Argument.Written.words_separated harguments]

theorem Expr.Written.words_separated {us : List Token} {es : List Expr} :
    Separated (Expr.Written 13) us es →
      Token.words us = Lexeme.words (separated (es.map Expr.render))
  | .nil => rfl
  | .one item => item.words
  | .more item hcomma others => by
    rw [List.map_cons, Lexeme.words_separated_cons, ← item.words,
      ← Expr.Written.words_separated others]
    simp [Token.text_of_isPunct hcomma, word, grouping]

theorem Argument.Written.words {us : List Token} {a : Argument} :
    Argument.Written us a → Token.words us = Lexeme.words a.render
  | .positional hvalue => by simp [Argument.render, hvalue.words]
  | .named _ hequals hvalue => by
    simp [Argument.render, Token.text_of_isPunct hequals, hvalue.words]

theorem Argument.Written.words_separated {us : List Token} {as : List Argument} :
    Separated Argument.Written us as →
      Token.words us = Lexeme.words (separated (as.map Argument.render))
  | .nil => rfl
  | .one item => item.words
  | .more item hcomma others => by
    rw [List.map_cons, Lexeme.words_separated_cons, ← item.words,
      ← Argument.Written.words_separated others]
    simp [Token.text_of_isPunct hcomma, word, grouping]

end

mutual

theorem Expr.Written.backed {limit : Nat} {us : List Token} {e : Expr} :
    Expr.Written limit us e → e.Backed
  | .literal ht => by rwa [Expr.Backed]
  | .identifier ht => by rw [Expr.Backed]; exact ⟨ht, rfl⟩
  | .vector _ _ helements => by
    rw [Expr.Backed]
    exact Expr.Written.backed_separated helements
  | .range _ _ _ ha hb => by rw [Expr.Backed]; exact ⟨ha.backed, hb.backed⟩
  | .steppedRange _ _ _ _ ha hb hc => by
    rw [Expr.Backed]
    exact ⟨ha.backed, hb.backed, hc.backed⟩
  | .parenthesised _ _ he => he.backed
  | .unary _ _ he => by rw [Expr.Backed]; exact he.backed
  | .binary _ hleft _ hright => by rw [Expr.Backed]; exact ⟨hleft.backed, hright.backed⟩
  | .conditional _ hcondition _ ha _ hb => by
    rw [Expr.Backed]
    exact ⟨hcondition.backed, ha.backed, hb.backed⟩
  | .index _ hobject _ hi _ => by rw [Expr.Backed]; exact ⟨hobject.backed, hi.backed⟩
  | .call _ _ _ harguments => by
    rw [Expr.Backed]
    exact Argument.Written.backed_separated harguments

theorem Expr.Written.backed_separated {us : List Token} {es : List Expr} :
    Separated (Expr.Written 13) us es → Expr.BackedAll es
  | .nil => by rw [Expr.BackedAll]; trivial
  | .one item => by simp [Expr.BackedAll, item.backed]
  | .more item _ others => by
    rw [Expr.BackedAll]
    exact ⟨item.backed, Expr.Written.backed_separated others⟩

theorem Argument.Written.backed {us : List Token} {a : Argument} :
    Argument.Written us a → a.Backed
  | .positional hvalue => by rw [Argument.Backed]; exact hvalue.backed
  | .named _ _ hvalue => by rw [Argument.Backed]; exact hvalue.backed

theorem Argument.Written.backed_separated {us : List Token} {as : List Argument} :
    Separated Argument.Written us as → Argument.BackedAll as
  | .nil => by rw [Argument.BackedAll]; trivial
  | .one item => by simp [Argument.BackedAll, item.backed]
  | .more item _ others => by
    rw [Argument.BackedAll]
    exact ⟨item.backed, Argument.Written.backed_separated others⟩

end

section Parameters

theorem Parameter.Written.words {us : List Token} {p : Parameter} (h : Parameter.Written us p) :
    Token.words us = Lexeme.words p.render := by
  cases h with
  | plain => simp [Parameter.render]
  | optional _ hequals hvalue =>
    simp [Parameter.render, Token.text_of_isPunct hequals, hvalue.words]

theorem Parameter.Written.backed {us : List Token} {p : Parameter} (h : Parameter.Written us p) :
    p.Backed := by
  cases h with
  | plain => simp [Parameter.Backed]
  | optional _ _ hvalue => simpa [Parameter.Backed] using hvalue.backed

theorem Parameter.Written.words_separated {us : List Token} {ps : List Parameter}
    (h : Separated Parameter.Written us ps) :
    Token.words us = Lexeme.words (separated (ps.map Parameter.render)) := by
  induction h with
  | nil => rfl
  | one item => exact item.words
  | more item hcomma _ ih =>
    rw [List.map_cons, Lexeme.words_separated_cons, ← item.words, ← ih]
    simp [Token.text_of_isPunct hcomma, word, grouping]

theorem Parameter.Written.backed_separated {us : List Token} {ps : List Parameter}
    (h : Separated Parameter.Written us ps) : ∀ p ∈ ps, p.Backed := by
  induction h with
  | nil => exact nofun
  | one item => simpa using item.backed
  | more item _ _ ih => exact List.forall_mem_cons.mpr ⟨item.backed, ih⟩

end Parameters

/-- The statements say what the tokens say, word for word, and what they hold is what its tokens
spell. -/
structure Stmt.Faithful (us : List Token) (ss : List Stmt) : Prop where
  words : Token.words us = Lexeme.words (Stmt.renderAll ss)
  backed : Stmt.BackedAll ss

namespace Stmt.Faithful

variable {us vs ws : List Token} {ss ts : List Stmt} {parameters : List Parameter}
  {condition : Expr} {whole span : Span} {first last : Token}

theorem single {s : Stmt} (hwords : Token.words us = Lexeme.words s.render) (hbacked : s.Backed) :
    Faithful us [s] where
  words := by rw [hwords, Stmt.renderAll, Stmt.renderAll, List.append_nil]
  backed := by simp [Stmt.BackedAll, hbacked]

theorem nil : Faithful [] [] := ⟨rfl, by simp [Stmt.BackedAll]⟩

theorem append (hus : Faithful us ss) (hvs : Faithful vs ts) : Faithful (us ++ vs) (ss ++ ts) where
  words := by rw [Token.words_append, Stmt.words_renderAll_append, hus.words, hvs.words]
  backed := Stmt.backedAll_append hus.backed hvs.backed

theorem terminated (h : Faithful us ss) (hlast : last.isPunct ";") :
    Faithful (us ++ [last]) ss where
  words := by simp [h.words, Token.text_of_isPunct hlast, word, grouping]
  backed := h.backed

theorem compound (hfirst : first.isPunct "\x7b") (hlast : last.isPunct "\x7d")
    (h : Faithful us ss) : Faithful (first :: (us ++ [last])) [.compound ss span] := by
  refine single ?_ (by rw [Stmt.Backed]; exact h.backed)
  simp [Stmt.render, Token.text_of_isPunct hfirst, Token.text_of_isPunct hlast, h.words]

section Branches

variable {keyword : Token} (hkeyword : keyword.isKeyword "if") (hfirst : first.isPunct "(")
  (hcondition : Expr.Written 13 us condition) (hlast : last.isPunct ")") (hthen : Faithful vs ss)

include hkeyword hfirst hcondition hlast hthen

theorem branch : Faithful (keyword :: first :: (us ++ last :: vs))
    [.branch condition (Stmt.join whole ss) none span] := by
  refine single ?_ ?_
  · simp [Stmt.render, Token.text_of_isKeyword hkeyword, Token.text_of_isPunct hfirst,
      Token.text_of_isPunct hlast, hcondition.words, Stmt.words_join, hthen.words]
  · rw [Stmt.Backed]
    exact ⟨hcondition.backed, Stmt.backed_join whole hthen.backed⟩

theorem branches {other : Token} {whole' : Span} (hother : other.isKeyword "else")
    (helse : Faithful ws ts) :
    Faithful (keyword :: first :: (us ++ last :: (vs ++ other :: ws)))
      [.branch condition (Stmt.join whole ss) (some (Stmt.join whole' ts)) span] := by
  refine single ?_ ?_
  · simp [Stmt.render, Token.text_of_isKeyword hkeyword, Token.text_of_isPunct hfirst,
      Token.text_of_isPunct hlast, Token.text_of_isKeyword hother, hcondition.words,
      Stmt.words_join, hthen.words, helse.words]
  · rw [Stmt.Backed]
    exact ⟨hcondition.backed, Stmt.backed_join whole hthen.backed,
      Stmt.backed_join whole' helse.backed⟩

end Branches

section Definitions

variable {keyword n : Token} (hfirst : first.isPunct "(")
  (hparameters : Separated Parameter.Written us parameters) (hlast : last.isPunct ")")

include hfirst hparameters hlast

theorem moduleDef (hkeyword : keyword.isKeyword "module") (hbody : Faithful vs ss) :
    Faithful (keyword :: n :: first :: (us ++ last :: vs))
      [.moduleDef n.text parameters (Stmt.join whole ss) span] := by
  refine single ?_ ?_
  · simp [Stmt.render, Token.text_of_isKeyword hkeyword, Token.text_of_isPunct hfirst,
      Token.text_of_isPunct hlast, Parameter.Written.words_separated hparameters, Stmt.words_join,
      hbody.words]
  · rw [Stmt.Backed]
    exact ⟨Parameter.Written.backed_separated hparameters, Stmt.backed_join whole hbody.backed⟩

theorem functionDef {equals stop : Token} {body : Expr} (hkeyword : keyword.isKeyword "function")
    (hequals : equals.isPunct "=") (hbody : Expr.Written 13 vs body) (hstop : stop.isPunct ";") :
    Faithful (keyword :: n :: first :: (us ++ last :: equals :: (vs ++ [stop])))
      [.functionDef n.text parameters body span] := by
  refine single ?_ ?_
  · simp [Stmt.render, Token.text_of_isKeyword hkeyword, Token.text_of_isPunct hfirst,
      Token.text_of_isPunct hlast, Token.text_of_isPunct hequals, Token.text_of_isPunct hstop,
      Parameter.Written.words_separated hparameters, hbody.words]
  · rw [Stmt.Backed]
    exact ⟨Parameter.Written.backed_separated hparameters, hbody.backed⟩

end Definitions

theorem moduleCall {n : String} {arguments : List Argument}
    (hcall : Expr.Written 13 us (.call n arguments span)) :
    Faithful us [.moduleCall n arguments span] := by
  refine single ?_ ?_
  · rw [hcall.words]
    simp [Expr.render, Stmt.render, word, grouping]
  · have hbacked := hcall.backed
    rw [Expr.Backed] at hbacked
    rwa [Stmt.Backed]

theorem assignment {name : String} {t equals : Token} {value : Expr}
    (htarget : Expr.Written 13 us (.identifier name t)) (hequals : equals.isPunct "=")
    (hvalue : Expr.Written 13 vs value) (hlast : last.isPunct ";") :
    Faithful (us ++ equals :: (vs ++ [last])) [.assignment name t value span] := by
  have hbacked := htarget.backed
  rw [Expr.Backed] at hbacked
  refine single ?_ (by rw [Stmt.Backed]; exact ⟨hbacked, hvalue.backed⟩)
  rw [Token.words_append, htarget.words]
  simp [Expr.render, Stmt.render, Token.text_of_isPunct hequals, Token.text_of_isPunct hlast,
    hbacked.2, hvalue.words]

theorem expression {e : Expr} (he : Expr.Written 13 us e) : Faithful us [.expression e span] := by
  refine single ?_ (by rw [Stmt.Backed]; exact he.backed)
  simp [Stmt.render, he.words, word, grouping]

end Stmt.Faithful

mutual

/-- The statements of a tree say what the tokens of the tree say. -/
theorem Derivation.Written.faithful {us : List Token} {d : Derivation} {ss : List Stmt} :
    Derivation.Written us d → d.statements = .ok ss → Stmt.Faithful us ss
  | .empty hlast, h => by
    rw [Derivation.statements, Derivation.statementsAll, Derivation.statements,
      Derivation.statementsAll] at h
    cases h
    exact Stmt.Faithful.nil.terminated hlast
  | .compound hfirst hlast hitems, h => by
    obtain ⟨inner, hinner, rfl⟩ := Derivation.inside_compound h
    exact .compound hfirst hlast (hitems.faithful hinner)
  | .branch hword hfirst hcondition hlast hthen, h => by
    obtain ⟨taken, htaken, rfl⟩ := Derivation.inside_branch h
    exact .branch hword hfirst hcondition hlast (hthen.faithful htaken)
  | .branches hword hfirst hcondition hlast hthen hother helse, h => by
    obtain ⟨taken, other, htaken, hsecond, rfl⟩ := Derivation.inside_branches helse.ne_absent h
    exact .branches hword hfirst hcondition hlast (hthen.faithful htaken) hother
      (helse.faithful hsecond)
  | .moduleDef hword _ hfirst hparameters hlast hbody, h => by
    obtain ⟨inner, hinner, rfl⟩ := Derivation.inside_moduleDef h
    exact .moduleDef hfirst hparameters hlast hword (hbody.faithful hinner)
  | .functionDef hword _ hfirst hparameters hlast hequals hbody hstop, h => by
    have hbare := Derivation.statements_terminated h
    rw [Derivation.statements] at hbare
    cases hbare
    exact .functionDef hfirst hparameters hlast hword hequals hbody hstop
  | .moduleCall _ hcall hlast, h => by
    have hbare := Derivation.statements_terminated h
    rw [Derivation.statements] at hbare
    cases hbare
    exact (Stmt.Faithful.moduleCall hcall).terminated hlast
  | .assignment htarget hequals hvalue hlast, h => by
    obtain ⟨name, t, rfl, rfl⟩ :=
      Derivation.identifier_of_statements (Derivation.statements_terminated h)
    exact .assignment htarget hequals hvalue hlast
  | .expression he _ hlast, h => by
    have hbare := Derivation.statements_terminated h
    rw [Derivation.statements] at hbare
    cases hbare
    exact (Stmt.Faithful.expression he).terminated hlast

theorem InTurn.faithful {us : List Token} {ds : List Derivation} {ss : List Stmt} :
    InTurn Derivation.Written us ds → Derivation.statementsAll ds = .ok ss → Stmt.Faithful us ss
  | .nil, h => by
    rw [Derivation.statementsAll] at h
    cases h
    exact .nil
  | .cons item others, h => by
    obtain ⟨first, rest, hfirst, hrest, rfl⟩ := Derivation.statementsAll_cons_eq_ok_iff.mp h
    exact (item.faithful hfirst).append (others.faithful hrest)

end

/-- Nothing of a text is lost, doubled or moved. -/
theorem parse_words (source : String) (statements : List Stmt) (h : parse source = .ok statements) :
    ∃ tokens, tokenize source = .ok tokens ∧
      Token.words (Token.significant tokens) = Lexeme.words (Stmt.renderAll statements) ∧
      Stmt.BackedAll statements := by
  obtain ⟨tokens, htokens, hstatements⟩ := tokenize_of_parse h
  obtain ⟨read, hread, hall⟩ := sequence_of_statementsOf hstatements
  obtain ⟨hwords, hbacked⟩ := (Grammar.program_written hread).faithful hall
  exact ⟨tokens, htokens, hwords, hbacked⟩

/-- A negation, a condition, a list with a comma at its end and a block with one statement. -/
theorem parse_words_branch :
    ∃ statements, parse "if (-(a)) \x7b f(b, [1 : 2],); \x7d else ;" = .ok statements ∧
      Lexeme.words (Stmt.renderAll statements) =
        ["if", "-", "a", "f", "b", "[", "1", ":", "2", "]", "else"] ∧
      Stmt.BackedAll statements := by
  have hok : (parse "if (-(a)) \x7b f(b, [1 : 2],); \x7d else ;").isOk := by decide +kernel
  cases hparse : parse "if (-(a)) \x7b f(b, [1 : 2],); \x7d else ;" with
  | error e =>
    rw [hparse] at hok
    cases hok
  | ok statements =>
    obtain ⟨tokens, htokens, hwords, hbacked⟩ := parse_words _ statements hparse
    refine ⟨statements, rfl, ?_, hbacked⟩
    rw [← hwords]
    cases htokens
    rfl

end SolidScript
