import SolidScript.Proofs.Derivation
import SolidScript.Proofs.Grammar.Written.Statement

namespace SolidScript

mutual

/-- The tokens are a way to write the statement. -/
inductive Stmt.Written : List Token → Stmt → Prop
  | empty {last : Token} (hlast : last.isPunct ";") :
    Stmt.Written [last] (.compound [] last.span)
  | compound {first last : Token} {us : List Token} {ss : List Stmt}
    (hfirst : first.isPunct "\x7b") (hlast : last.isPunct "\x7d") (hitems : Stmt.WrittenAll us ss) :
    Stmt.Written (first :: (us ++ [last])) (.compound ss (Token.spanOf (first :: (us ++ [last]))))
  | branch {word first last : Token} {us vs : List Token} {condition : Expr} {s : Stmt}
    (hword : word.isKeyword "if") (hfirst : first.isPunct "(")
    (hcondition : Expr.Written 13 us condition) (hlast : last.isPunct ")")
    (hthen : Stmt.Written vs s) :
    Stmt.Written (word :: first :: (us ++ last :: vs))
      (.branch condition s none (Token.spanOf (word :: first :: (us ++ last :: vs))))
  | branches {word first last other : Token} {us vs ws : List Token} {condition : Expr}
    {s t : Stmt} (hword : word.isKeyword "if") (hfirst : first.isPunct "(")
    (hcondition : Expr.Written 13 us condition) (hlast : last.isPunct ")")
    (hthen : Stmt.Written vs s) (hother : other.isKeyword "else") (helse : Stmt.Written ws t) :
    Stmt.Written (word :: first :: (us ++ last :: (vs ++ other :: ws)))
      (.branch condition s (some t)
        (Token.spanOf (word :: first :: (us ++ last :: (vs ++ other :: ws)))))
  | moduleDef {word n first last : Token} {us vs : List Token} {parameters : List Parameter}
    {body : Stmt} (hword : word.isKeyword "module") (hn : n.isName) (hfirst : first.isPunct "(")
    (hparameters : Separated Parameter.Written us parameters) (hlast : last.isPunct ")")
    (hbody : Stmt.Written vs body) :
    Stmt.Written (word :: n :: first :: (us ++ last :: vs))
      (.moduleDef n.text parameters body
        (Token.spanOf (word :: n :: first :: (us ++ last :: vs))))
  | functionDef {word n first last equals stop : Token} {us vs : List Token}
    {parameters : List Parameter} {body : Expr} (hword : word.isKeyword "function") (hn : n.isName)
    (hfirst : first.isPunct "(") (hparameters : Separated Parameter.Written us parameters)
    (hlast : last.isPunct ")") (hequals : equals.isPunct "=") (hbody : Expr.Written 13 vs body)
    (hstop : stop.isPunct ";") :
    Stmt.Written (word :: n :: first :: (us ++ last :: equals :: (vs ++ [stop])))
      (.functionDef n.text parameters body
        (Token.spanOf (word :: n :: first :: (us ++ last :: equals :: vs))))
  | moduleCall {t last : Token} {us : List Token} {n : String} {arguments : List Argument}
    {span : Span} (ht : t.isName) (hcall : Expr.Written 13 (t :: us) (.call n arguments span))
    (hlast : last.isPunct ";") :
    Stmt.Written (t :: (us ++ [last])) (.moduleCall n arguments span)
  | assignment {t equals last token : Token} {us vs : List Token} {name : String} {value : Expr}
    (htarget : Expr.Written 13 (t :: us) (.identifier name token)) (hequals : equals.isPunct "=")
    (hvalue : Expr.Written 13 vs value) (hlast : last.isPunct ";") :
    Stmt.Written (t :: (us ++ equals :: (vs ++ [last])))
      (.assignment name token value (Token.spanOf (t :: (us ++ equals :: vs))))
  | expression {last : Token} {us : List Token} {e : Expr} (he : Expr.Written 13 us e)
    (hlast : last.isPunct ";") : Stmt.Written (us ++ [last]) (.expression e e.span)

/-- The tokens are a way to write the statements one behind the other, with any number of semicolons
between them. -/
inductive Stmt.WrittenAll : List Token → List Stmt → Prop
  | nil : Stmt.WrittenAll [] []
  | skip {last : Token} {us : List Token} {ss : List Stmt} (hlast : last.isPunct ";")
    (others : Stmt.WrittenAll us ss) : Stmt.WrittenAll (last :: us) ss
  | cons {us vs : List Token} {s : Stmt} {ss : List Stmt} (item : Stmt.Written us s)
    (others : Stmt.WrittenAll vs ss) : Stmt.WrittenAll (us ++ vs) (s :: ss)

end

/-- The statements that a tree with these tokens stands for. -/
inductive Derivation.Stands : List Token → Derivation → List Stmt → Prop
  | nothing {last : Token} (hlast : last.isPunct ";") :
    Derivation.Stands [last] (.sequence [.terminator last]) []
  | one {us : List Token} {d : Derivation} {s : Stmt} (hs : Stmt.Written us s) :
    Derivation.Stands us d [s]

/-- Where a tree is a part of another one, it stands for one statement in any case. -/
theorem Derivation.Stands.join {us : List Token} {d : Derivation} {ss : List Stmt} {span : Span}
    (h : d.Stands us ss) : Stmt.Written us (Stmt.join (d.span?.getD span) ss) := by
  cases h with
  | nothing hlast => exact .empty hlast
  | one hs => exact hs

mutual

theorem Derivation.Written.stands {us : List Token} {d : Derivation} {ss : List Stmt} :
    Derivation.Written us d → d.statements = .ok ss → d.Stands us ss
  | .empty hlast, h => by
    rw [Derivation.statements, Derivation.statementsAll, Derivation.statements,
      Derivation.statementsAll] at h
    cases h
    exact .nothing hlast
  | .compound hfirst hlast hitems, h => by
    obtain ⟨inner, hinner, rfl⟩ := Derivation.inside_compound h
    exact .one (.compound hfirst hlast (hitems.stand hinner))
  | .branch hword hfirst hcondition hlast hthen, h => by
    obtain ⟨taken, htaken, rfl⟩ := Derivation.inside_branch h
    exact .one (.branch hword hfirst hcondition hlast (hthen.stands htaken).join)
  | .branches hword hfirst hcondition hlast hthen hother helse, h => by
    obtain ⟨taken, other, htaken, hsecond, rfl⟩ := Derivation.inside_branches helse.ne_absent h
    exact .one (.branches hword hfirst hcondition hlast (hthen.stands htaken).join hother
      (helse.stands hsecond).join)
  | .moduleDef hword hn hfirst hparameters hlast hbody, h => by
    obtain ⟨inner, hinner, rfl⟩ := Derivation.inside_moduleDef h
    exact .one (.moduleDef hword hn hfirst hparameters hlast (hbody.stands hinner).join)
  | .functionDef hword hn hfirst hparameters hlast hequals hbody hstop, h => by
    have hbare := Derivation.statements_terminated h
    rw [Derivation.statements] at hbare
    cases hbare
    exact .one (.functionDef hword hn hfirst hparameters hlast hequals hbody hstop)
  | .moduleCall ht hcall hlast, h => by
    have hbare := Derivation.statements_terminated h
    rw [Derivation.statements] at hbare
    cases hbare
    exact .one (.moduleCall ht hcall hlast)
  | @Derivation.Written.assignment t equals _ us vs _ _ htarget hequals hvalue hlast, h => by
    obtain ⟨name, token, rfl, rfl⟩ :=
      Derivation.identifier_of_statements (Derivation.statements_terminated h)
    have hspan : Token.spanOf (t :: (us ++ equals :: vs)) = ⟨t.offset, (Token.spanOf vs).stop⟩ := by
      have happend := Token.spanOf_append (List.cons_ne_nil t (us ++ [equals])) hvalue.ne_nil
      simpa [Token.spanOf, List.getLast?_cons] using happend
    rw [← hspan]
    exact .one (.assignment htarget hequals hvalue hlast)
  | .expression he _ hlast, h => by
    have hbare := Derivation.statements_terminated h
    rw [Derivation.statements] at hbare
    cases hbare
    exact .one (.expression he hlast)

theorem InTurn.stand {us : List Token} {ds : List Derivation} {ss : List Stmt} :
    InTurn Derivation.Written us ds → Derivation.statementsAll ds = .ok ss → Stmt.WrittenAll us ss
  | .nil, h => by
    rw [Derivation.statementsAll] at h
    cases h
    exact .nil
  | .cons item others, h => by
    obtain ⟨first, rest, hfirst, hrest, rfl⟩ := Derivation.statementsAll_cons_eq_ok_iff.mp h
    cases item.stands hfirst with
    | nothing hlast => exact .skip hlast (others.stand hrest)
    | one hs => exact .cons hs (others.stand hrest)

end

end SolidScript
