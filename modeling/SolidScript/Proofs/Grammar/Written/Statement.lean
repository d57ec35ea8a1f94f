import SolidScript.Proofs.Grammar.Sequence
import SolidScript.Proofs.Grammar.Written

namespace SolidScript

/-- The tokens are a way to write the parameter. -/
inductive Parameter.Written : List Token → Parameter → Prop
  | plain {t : Token} (ht : t.isName) : Parameter.Written [t] ⟨t.text, none⟩
  | optional {t equals : Token} {us : List Token} {value : Expr} (ht : t.isName)
    (hequals : equals.isPunct "=") (hvalue : Expr.Written 13 us value) :
    Parameter.Written (t :: equals :: us) ⟨t.text, some value⟩

/-- The tokens are a way to write the statement. -/
inductive Derivation.Written : List Token → Derivation → Prop
  | empty {last : Token} (hlast : last.isPunct ";") :
    Derivation.Written [last] (.sequence [.terminator last])
  | compound {first last : Token} {us : List Token} {items : List Derivation}
    (hfirst : first.isPunct "\x7b") (hlast : last.isPunct "\x7d")
    (hitems : InTurn Derivation.Written us items) :
    Derivation.Written (first :: (us ++ [last]))
      (.compound (.sequence items) (Token.spanOf (first :: (us ++ [last]))))
  | branch {word first last : Token} {us vs : List Token} {condition : Expr}
    {thenBranch : Derivation} (hword : word.isKeyword "if") (hfirst : first.isPunct "(")
    (hcondition : Expr.Written 13 us condition) (hlast : last.isPunct ")")
    (hthen : Derivation.Written vs thenBranch) :
    Derivation.Written (word :: first :: (us ++ last :: vs))
      (.branch condition thenBranch .absent (Token.spanOf (word :: first :: (us ++ last :: vs))))
  | branches {word first last other : Token} {us vs ws : List Token} {condition : Expr}
    {thenBranch elseBranch : Derivation} (hword : word.isKeyword "if") (hfirst : first.isPunct "(")
    (hcondition : Expr.Written 13 us condition) (hlast : last.isPunct ")")
    (hthen : Derivation.Written vs thenBranch) (hother : other.isKeyword "else")
    (helse : Derivation.Written ws elseBranch) :
    Derivation.Written (word :: first :: (us ++ last :: (vs ++ other :: ws)))
      (.branch condition thenBranch elseBranch
        (Token.spanOf (word :: first :: (us ++ last :: (vs ++ other :: ws)))))
  | moduleDef {word n first last : Token} {us vs : List Token} {parameters : List Parameter}
    {body : Derivation} (hword : word.isKeyword "module") (hn : n.isName)
    (hfirst : first.isPunct "(") (hparameters : Separated Parameter.Written us parameters)
    (hlast : last.isPunct ")") (hbody : Derivation.Written vs body) :
    Derivation.Written (word :: n :: first :: (us ++ last :: vs))
      (.moduleDef n.text parameters body
        (Token.spanOf (word :: n :: first :: (us ++ last :: vs))))
  | functionDef {word n first last equals stop : Token} {us vs : List Token}
    {parameters : List Parameter} {body : Expr} (hword : word.isKeyword "function") (hn : n.isName)
    (hfirst : first.isPunct "(") (hparameters : Separated Parameter.Written us parameters)
    (hlast : last.isPunct ")") (hequals : equals.isPunct "=") (hbody : Expr.Written 13 vs body)
    (hstop : stop.isPunct ";") :
    Derivation.Written (word :: n :: first :: (us ++ last :: equals :: (vs ++ [stop])))
      (.sequence [.functionDef n.text parameters body
        (Token.spanOf (word :: n :: first :: (us ++ last :: equals :: vs))), .terminator stop])
  | moduleCall {t last : Token} {us : List Token} {n : String} {arguments : List Argument}
    {span : Span} (ht : t.isName) (hcall : Expr.Written 13 (t :: us) (.call n arguments span))
    (hlast : last.isPunct ";") :
    Derivation.Written (t :: (us ++ [last]))
      (.sequence [.moduleCall n arguments span, .terminator last])
  | assignment {t equals last : Token} {us vs : List Token} {target value : Expr}
    (htarget : Expr.Written 13 (t :: us) target) (hequals : equals.isPunct "=")
    (hvalue : Expr.Written 13 vs value) (hlast : last.isPunct ";") :
    Derivation.Written (t :: (us ++ equals :: (vs ++ [last])))
      (.sequence [.assignment target t value ⟨t.offset, (Token.spanOf vs).stop⟩, .terminator last])
  | expression {last : Token} {us : List Token} {e : Expr} (he : Expr.Written 13 us e)
    (hcall : ¬e.IsCall) (hlast : last.isPunct ";") :
    Derivation.Written (us ++ [last]) (.sequence [.expression e e.span, .terminator last])

theorem Derivation.Written.ne_absent {us : List Token} {d : Derivation}
    (h : Derivation.Written us d) : d ≠ .absent := by
  rintro rfl
  cases h

namespace Grammar

open Rule

section Parts

private theorem parameter_yields : Yields parameter Parameter.Written := by
  refine .token_bind fun n hn => .accept_bind (fun equals hequals => ?_) (.pure (.plain hn))
  refine expression_yields.bind fun us value hvalue => .pure ?_
  rw [List.append_nil]
  exact .optional hn hequals hvalue

private theorem parameters_yields :
    Yields parameters fun us params => ∃ first ws last, us = first :: (ws ++ [last]) ∧
      first.isPunct "(" ∧ last.isPunct ")" ∧ Separated Parameter.Written ws params := by
  refine .token_bind fun first hfirst => (Yields.listUntil parameter_yields).bind ?_
  rintro _ ⟨params, last⟩ ⟨ws, rfl, hlast, hws⟩
  refine .pure ?_
  rw [List.append_nil]
  exact ⟨first, ws, last, rfl, hfirst, hlast, hws⟩

end Parts

section Productions

variable {sub : Rule Derivation} (h : Yields sub Derivation.Written)

include h

private theorem compound_yields : Yields (compound sub) Derivation.Written := by
  refine Yields.spanned_bind (P := fun us items =>
    Derivation.Written us (.compound (.sequence items) (Token.spanOf us))) ?_
    fun us items hitems => ?_
  · refine .token_bind fun first hfirst => ?_
    -- Whatever statements may still come complete the block.
    refine .loop (I := fun us items => ∀ ws ds, InTurn Derivation.Written ws ds →
      InTurn Derivation.Written (us ++ ws) (items ++ ds)) (fun us items hitems => ?_)
      fun ws ds hds => hds
    refine .accept_bind (fun last hlast => .pure ?_) (h.bind fun ws d hd => .pure ?_)
    · have hall := hitems [] [] .nil
      rw [List.append_nil, List.append_nil] at hall
      exact .compound hfirst hlast hall
    · intro xs ds hds
      have hall := hitems _ _ (.cons hd hds)
      simpa using hall
  · exact .pure (by rwa [List.append_nil])

private theorem branch_yields : Yields (branch sub) Derivation.Written := by
  refine Yields.spanned_bind (P := fun us v =>
    Derivation.Written us (.branch v.1 v.2.1 v.2.2 (Token.spanOf us))) ?_ fun us v hv => ?_
  · refine .token_bind fun word hword => .token_bind fun first hfirst => ?_
    refine expression_yields.bind fun us condition hcondition => .token_bind fun last hlast => ?_
    refine h.bind fun vs thenBranch hthen => .accept_bind (fun other hother => ?_) (.pure ?_)
    · refine h.bind fun ws elseBranch helse => .pure ?_
      rw [List.append_nil]
      exact .branches hword hfirst hcondition hlast hthen hother helse
    · rw [List.append_nil]
      exact .branch hword hfirst hcondition hlast hthen
  · exact .pure (by rwa [List.append_nil])

private theorem moduleDef_yields : Yields (moduleDef sub) Derivation.Written := by
  refine Yields.spanned_bind (P := fun us v =>
    Derivation.Written us (.moduleDef v.1.text v.2.1 v.2.2 (Token.spanOf us))) ?_ fun us v hv => ?_
  · refine .token_bind fun word hword => .token_bind fun n hn => parameters_yields.bind ?_
    rintro _ params ⟨first, us, last, rfl, hfirst, hlast, hparams⟩
    refine h.bind fun vs body hbody => .pure ?_
    have hall := Derivation.Written.moduleDef hword hn hfirst hparams hlast hbody
    simpa using hall
  · exact .pure (by rwa [List.append_nil])

omit h

private theorem functionDef_yields : Yields functionDef Derivation.Written := by
  refine Yields.spanned_bind (P := fun us v => ∀ stop : Token, stop.isPunct ";" →
    Derivation.Written (us ++ [stop]) (.sequence
      [.functionDef v.1.text v.2.1 v.2.2 (Token.spanOf us), .terminator stop])) ?_ fun us v hv => ?_
  · refine .token_bind fun word hword => .token_bind fun n hn => parameters_yields.bind ?_
    rintro _ params ⟨first, us, last, rfl, hfirst, hlast, hparams⟩
    refine .token_bind fun equals hequals => expression_yields.bind fun vs body hbody => .pure ?_
    intro stop hstop
    have hall := Derivation.Written.functionDef hword hn hfirst hparams hlast hequals hbody hstop
    simpa using hall
  · exact .token_bind fun stop hstop => .pure (hv stop hstop)

end Productions

section Statements

/-- What comes behind an expression at the start of a statement. -/
private theorem simpleRest_yields {t : Token} {us : List Token} {target : Expr}
    (htarget : Expr.Written 13 (t :: us) target) :
    Yields (simpleRest t target) fun vs d => Derivation.Written (t :: (us ++ vs)) d := by
  refine .accept_bind (fun equals hequals => ?_) ?_
  · refine expression_yields.sliced.bind ?_
    rintro vs ⟨value, _⟩ ⟨hvalue, rfl⟩
    exact .token_bind fun last hlast => .pure (.assignment htarget hequals hvalue hlast)
  · cases target with
    | call n args span =>
      by_cases ht : t.isName
      · have hcall : Yields (terminated (.moduleCall n args span)) fun vs d =>
            Derivation.Written (t :: (us ++ vs)) d :=
          .token_bind fun last hlast => .pure (.moduleCall ht htarget hlast)
        simpa [ht] using hcall
      · simpa [ht] using Yields.refuse
    | _ =>
      refine .token_bind fun last hlast => .pure ?_
      exact Derivation.Written.expression htarget (by rintro ⟨_, _, _, ⟨⟩⟩) hlast

private theorem simple_yields : Yields simple Derivation.Written := by
  intro ts d rest hread
  cases ts with
  | nil => cases hread
  | cons t ts =>
    obtain ⟨target, mid, htarget, hrest⟩ := bind_eq_done_iff.mp hread
    obtain ⟨us, hus, hwritten⟩ := expression_yields _ target mid htarget
    have htakes : mid.length + 1 ≤ (t :: ts).length := expression_takes _ target mid htarget
    cases us with
    | nil =>
      rw [hus, List.nil_append] at htakes
      omega
    | cons u us =>
      obtain ⟨rfl, rfl⟩ := List.cons.inj hus
      obtain ⟨vs, rfl, hd⟩ := simpleRest_yields hwritten mid d rest hrest
      exact ⟨t :: (us ++ vs), by simp, hd⟩

private theorem anyStatement_yields {sub : Rule Derivation} (h : Yields sub Derivation.Written) :
    Yields (anyStatement sub) Derivation.Written := by
  intro ts d rest hread
  cases ts with
  | nil => cases hread
  | cons t ts =>
    simp only [anyStatement] at hread
    split at hread
    · next p hp =>
      obtain ⟨rfl, _⟩ | ⟨rfl, _⟩ | ⟨rfl, _⟩ | ⟨rfl, _⟩ | ⟨rfl, _⟩ := announced?_cases hp
      · have hempty : Yields emptyStatement Derivation.Written :=
          .token_bind fun last hlast => .pure (.empty hlast)
        exact hempty _ d rest hread
      · exact compound_yields h _ d rest hread
      · exact branch_yields h _ d rest hread
      · exact moduleDef_yields h _ d rest hread
      · exact functionDef_yields _ d rest hread
    · exact simple_yields _ d rest hread

theorem statement_yields : Yields statement Derivation.Written := .knot fun _ => anyStatement_yields

/-- A program is written as statements one behind the other. -/
theorem program_written {ts : List Token} {ss : List (Derivation × List Token)}
    (h : program ts = .done ss []) : InTurn Derivation.Written ts (ss.map Prod.fst) := by
  obtain ⟨_, rfl, hall⟩ := program_statements h
  clear h
  induction ss with
  | nil => exact .nil
  | cons s ss ih =>
    obtain ⟨hfirst, hrest⟩ := List.forall_mem_cons.mp hall
    obtain ⟨us, hus, hwritten⟩ := statement_yields _ _ _ hfirst
    rw [List.append_nil] at hus
    rw [List.map_cons, List.map_cons, List.flatten_cons, hus]
    exact .cons hwritten (ih hrest)

end Statements

end Grammar

end SolidScript
