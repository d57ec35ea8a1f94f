import SolidScript.Proofs.Compile.Spans
import SolidScript.Proofs.Derivation.Targets
import SolidScript.Proofs.Grammar.Written.Reading

namespace SolidScript

/-- The tokens are the name, in any number of parentheses. -/
inductive Token.Enclosed (name : Token) : List Token → Prop
  | bare (hname : name.isName) : Enclosed name [name]
  | parenthesised {first last : Token} {us : List Token} (hfirst : first.isPunct "(")
    (hlast : last.isPunct ")") (hinner : Enclosed name us) : Enclosed name (first :: (us ++ [last]))

section Names

variable {name t : Token} {us : List Token}

theorem Token.Enclosed.written (h : name.Enclosed us) :
    Expr.Written 13 us (.identifier name.text name) := by
  induction h with
  | bare hname => exact .identifier hname
  | parenthesised hfirst hlast _ ih => exact .parenthesised hfirst hlast ih

/-- An expression is a name only if it is written as one in parentheses. -/
theorem Expr.Written.enclosed {limit : Nat} {n : String}
    (h : Expr.Written limit us (.identifier n t)) : t.text = n ∧ t.Enclosed us := by
  generalize he : Expr.identifier n t = e at h
  induction h using Expr.Written.induct with
  | identifier ht =>
    cases he
    exact ⟨rfl, .bare ht⟩
  | parenthesised hfirst hlast _ ih =>
    obtain ⟨htext, hinner⟩ := ih he
    exact ⟨htext, .parenthesised hfirst hlast hinner⟩
  | _ => cases he

/-- Tokens are a way to write one expression at most, up to places. -/
theorem Expr.Written.erase_eq {j k : Nat} {e f : Expr} (he : Expr.Written j us e)
    (hf : Expr.Written k us f) : e.erase = f.erase := by
  obtain ⟨v, hv, hreads⟩ := he.reads.whole
  obtain ⟨w, hw, hreads'⟩ := hf.reads.whole
  have hread := hreads [] (Follow.symbols_none _)
  rw [hreads' [] (Follow.symbols_none _)] at hread
  cases hread
  rw [← hv, hw]

/-- Whether a target is a name can be seen from its tokens. -/
theorem Target.Written.isName_iff {a : Target} (h : a.Written us) :
    a.isName ↔ ∃ name : Token, name.Enclosed us := by
  obtain ⟨_, hwritten⟩ := h
  obtain ⟨e, first⟩ := a
  constructor
  · intro hname
    cases e with
    | identifier n t => exact ⟨t, hwritten.enclosed.2⟩
    | _ => cases hname
  · rintro ⟨name, henclosed⟩
    have herase := hwritten.erase_eq henclosed.written
    cases e with
    | identifier n t => rfl
    | _ =>
      simp only [Expr.mapTokens] at herase
      cases herase

/-- In the order of the text, parentheses stand before the name that they enclose. -/
theorem Token.Enclosed.offset_eq_iff {first : Token} {lo hi : Nat} (h : name.Enclosed (first :: us))
    (hus : Token.Between lo (first :: us) hi) : first.offset = name.offset ↔ us = [] := by
  have hmem {vs : List Token} (hvs : name.Enclosed vs) : name ∈ vs := by
    induction hvs with
    | bare _ => exact List.mem_singleton.mpr rfl
    | parenthesised _ _ _ ih =>
      exact List.mem_cons_of_mem _ (List.mem_append_left _ ih)
  cases h with
  | bare hname => simp
  | @parenthesised _ last us hfirst hlast hinner =>
    obtain ⟨_, hproper, hrest⟩ := Token.between_cons.mp hus
    have hname : name ∈ us ++ [last] := List.mem_append_left _ (hmem hinner)
    have hafter : first.stop ≤ name.offset :=
      (Span.InOrder.mem hrest (List.mem_map_of_mem hname)).start
    constructor
    · intro heq
      omega
    · intro hnil
      simp at hnil

end Names

/-- Somewhere among the tokens stands an assignment to the target, with `left` to the left of the
equals sign. -/
def Target.AssignedIn (tokens left : List Token) (a : Target) : Prop :=
  ∃ us, us <:+: Token.significant tokens ∧ Target.Assigned left us a

theorem Target.AssignedIn.written {tokens left : List Token} {a : Target}
    (h : a.AssignedIn tokens left) : a.Written left := by
  obtain ⟨_, _, hleft, _, _, _⟩ := h
  exact hleft

/-- An assignment among the statements of a text is one in the text. -/
theorem Stmt.WrittenAll.assignedIn {tokens : List Token} {ss : List Stmt} {s : Stmt} {name : String}
    {token : Token} {value : Expr} {span : Span} {lo hi : Nat}
    (h : Stmt.WrittenAll (Token.significant tokens) ss)
    (hall : Token.Between lo (Token.significant tokens) hi) (hs : s ∈ ss)
    (hinside : Node.Inside (.stmt s) (.stmt (.assignment name token value span))) :
    ∃ first rest, Target.AssignedIn tokens (first :: rest) ⟨.identifier name token, first⟩ ∧
      token.Enclosed (first :: rest) ∧ token.text = name ∧ span.start = first.offset ∧
      (span.start = token.offset ↔ rest = []) := by
  obtain ⟨us, hus, hnode⟩ := h.inside hs hinside
  cases hnode with
  | stmt hwritten =>
    cases hwritten with
    | @assignment first equals last _ rest vs _ _ htarget hequals hvalue hlast =>
      obtain ⟨htext, henclosed⟩ := htarget.enclosed
      have hassigned : Target.Assigned (first :: rest) (first :: (rest ++ equals :: (vs ++ [last])))
          ⟨.identifier name token, first⟩ := .intro ⟨rfl, htarget⟩ hequals hvalue hlast
      have hspan : (Token.spanOf (first :: (rest ++ equals :: vs))).start = first.offset := by
        obtain ⟨_, _, hfirst, _, heq⟩ :=
          Token.spanOf_eq (List.cons_ne_nil first (rest ++ equals :: vs))
        cases hfirst
        rw [heq]
      have hbefore : first :: rest <+: first :: (rest ++ equals :: (vs ++ [last])) :=
        List.prefix_append (first :: rest) _
      have hleft := hall.sublist (hbefore.isInfix.trans hus).sublist
      refine ⟨first, rest, ⟨_, hus, hassigned⟩, henclosed, htext, hspan, ?_⟩
      rw [hspan]
      exact henclosed.offset_eq_iff hleft

/-- Not to have statements is to blame a target that is no name. -/
theorem parse_ok_or_blamed {source : String} {d : Derivation} (h : derive source = .ok d) :
    ((∃ ss, parse source = .ok ss) ∧ ∀ a ∈ d.targets, a.isName) ∨
      ∃ a ∈ d.targets, ¬a.isName ∧ parse source = .error (.parse (.invalidTarget a.token)) := by
  cases hparse : parse source with
  | ok ss =>
    refine .inl ⟨⟨ss, rfl⟩, fun a ha => Classical.byContradiction fun hbad => ?_⟩
    obtain ⟨f, hf⟩ := Derivation.statements_fails_iff.mpr ⟨a, ha, hbad⟩
    have herror := (parse_eq_error_iff h).mpr ⟨f, hf, rfl⟩
    rw [hparse] at herror
    cases herror
  | error e =>
    obtain ⟨f, hf, rfl⟩ := (parse_eq_error_iff h).mp hparse
    obtain ⟨a, hfound, rfl⟩ := Derivation.find?_of_statements hf
    have hbad : ¬a.isName := by simpa using List.find?_some hfound
    exact .inr ⟨a, Derivation.mem_met.mp (List.mem_of_find?_eq_some hfound), hbad, rfl⟩

/-- A text that has a tree has statements if and only if all left-hand sides of assignments, at any
depth, are names in any number of parentheses. Otherwise it is refused at the first token of a
left-hand side that is something else. An assignment among the statements begins where its
left-hand side does; that is at the recorded name if and only if there are no parentheses. -/
theorem derive_assignments (source : String) (d : Derivation) (h : derive source = .ok d) :
    ∃ tokens, tokenize source = .ok tokens ∧
      (∀ a ∈ d.targets, ∃ left, a.AssignedIn tokens left) ∧
      ((∃ ss, parse source = .ok ss) ↔ ∀ a ∈ d.targets, ∀ left, a.AssignedIn tokens left →
        ∃ name : Token, name.Enclosed left) ∧
      (∀ a ∈ d.targets, ∀ left, a.AssignedIn tokens left →
        (¬∃ name : Token, name.Enclosed left) →
        ∃ b ∈ d.targets, ∃ first rest, b.AssignedIn tokens (first :: rest) ∧
          (¬∃ name : Token, name.Enclosed (first :: rest)) ∧
          parse source = .error (.parse (.invalidTarget first))) ∧
      ∀ ss, parse source = .ok ss → ∀ s ∈ ss, ∀ name token value span,
        Node.Inside (.stmt s) (.stmt (.assignment name token value span)) →
        ∃ first rest, Target.AssignedIn tokens (first :: rest) ⟨.identifier name token, first⟩ ∧
          token.Enclosed (first :: rest) ∧ token.text = name ∧ span.start = first.offset ∧
          (span.start = token.offset ↔ rest = []) := by
  obtain ⟨tokens, ds, htokens, rfl, hwritten⟩ := written_of_derive h
  have hleft (a : Target) (ha : a ∈ (Derivation.sequence ds).targets) :
      ∃ left, a.AssignedIn tokens left := by
    obtain ⟨us, hus, left, hassigned⟩ := hwritten.assigned.mem ha
    exact ⟨left, us, hus, hassigned⟩
  refine ⟨tokens, htokens, hleft, ⟨?_, ?_⟩, ?_, ?_⟩
  · rintro ⟨ss, hss⟩ a ha left hassigned
    obtain ⟨_, hnames⟩ | ⟨_, _, _, hblamed⟩ := parse_ok_or_blamed h
    · exact hassigned.written.isName_iff.mp (hnames a ha)
    · rw [hss] at hblamed
      cases hblamed
  · intro hall
    obtain ⟨hok, _⟩ | ⟨a, ha, hbad, _⟩ := parse_ok_or_blamed h
    · exact hok
    · obtain ⟨left, hassigned⟩ := hleft a ha
      exact absurd (hassigned.written.isName_iff.mpr (hall a ha left hassigned)) hbad
  · intro a ha left hassigned hother
    obtain ⟨_, hnames⟩ | ⟨b, hb, hbad, hblamed⟩ := parse_ok_or_blamed h
    · exact absurd (hassigned.written.isName_iff.mp (hnames a ha)) hother
    · obtain ⟨left', hassigned'⟩ := hleft b hb
      obtain ⟨rest, rfl⟩ := List.head?_eq_some_iff.mp hassigned'.written.1
      refine ⟨b, hb, b.token, rest, hassigned', fun hname => hbad ?_, hblamed⟩
      exact hassigned'.written.isName_iff.mpr hname
  · intro ss hss s hs name token value span hinside
    obtain ⟨tokens', htokens', hstatements⟩ := written_of_parse hss
    cases htokens.symm.trans htokens'
    exact hstatements.assignedIn (significant_between htokens) hs hinside

/-- A name with a dollar sign can be assigned to, but an element of a vector cannot, and so it is
the latter that is blamed. -/
theorem derive_assignments_element :
    ∃ d first tokens rest, derive "if (c) (a)[0] = 1; else $b = 2;" = .ok d ∧
      tokenize "if (c) (a)[0] = 1; else $b = 2;" = .ok tokens ∧
      (∃ b ∈ d.targets, b.AssignedIn tokens (first :: rest)) ∧
      (¬∃ name : Token, name.Enclosed (first :: rest)) ∧
      parse "if (c) (a)[0] = 1; else $b = 2;" = .error (.parse (.invalidTarget first)) := by
  have hshape : (derive "if (c) (a)[0] = 1; else $b = 2;").toOption.map
      (fun d => d.targets.map Target.isName) = some [false, true] := by decide +kernel
  cases hderive : derive "if (c) (a)[0] = 1; else $b = 2;" with
  | error e =>
    rw [hderive] at hshape
    cases hshape
  | ok d =>
    rw [hderive] at hshape
    have hnames : d.targets.map Target.isName = [false, true] := Option.some.inj hshape
    obtain ⟨a, ha, hbad⟩ : ∃ a ∈ d.targets, a.isName = false :=
      List.mem_map.mp (hnames ▸ List.mem_cons_self)
    obtain ⟨tokens, htokens, hleft, _, hrefused, _⟩ := derive_assignments _ d hderive
    obtain ⟨left, hassigned⟩ := hleft a ha
    have hother : ¬∃ name : Token, name.Enclosed left := by
      rw [← hassigned.written.isName_iff, hbad]
      exact Bool.false_ne_true
    obtain ⟨b, hb, first, rest, hb', henclosed, hparse⟩ := hrefused a ha left hassigned hother
    exact ⟨d, first, tokens, rest, rfl, htokens, ⟨b, hb, hb'⟩, henclosed, hparse⟩

/-- The token of the name that a statement assigns to. -/
def Stmt.assigned? : Stmt → Option Token
  | .assignment _ token _ _ => some token
  | _ => none

/-- A name in parentheses is assigned to, and the assignment begins before the name. -/
theorem parse_parenthesised_target :
    ∃ token value span, parse "(a) = 1;" = .ok [.assignment "a" token value span] ∧
      span.start = 0 ∧ token.offset = 1 := by
  have hshape : (parse "(a) = 1;").toOption.map (fun ss => ss.map fun s =>
      (s.declares?, s.span.start, s.assigned?.map Token.offset)) =
      some [(some (.variable, "a"), 0, some 1)] := by decide +kernel
  cases hparse : parse "(a) = 1;" with
  | error e =>
    rw [hparse] at hshape
    cases hshape
  | ok ss =>
    rw [hparse] at hshape
    obtain ⟨s, rfl, hs⟩ := List.map_eq_singleton_iff.mp (Option.some.inj hshape)
    obtain ⟨hdeclares, hstart, hoffset⟩ := by simpa only [Prod.mk.injEq] using hs
    cases s with
    | assignment target token value span =>
      cases hdeclares
      exact ⟨token, value, span, rfl, hstart, Option.some.inj hoffset⟩
    | _ => cases hoffset

end SolidScript
