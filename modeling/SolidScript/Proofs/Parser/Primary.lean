import SolidScript.Proofs.Parser.Brackets

namespace SolidScript

open Grammar (startsNamed expression_of_closer)

/-- At a name an expression comes at least behind the name. -/
theorem Grammar.expression_rest_of_name {t : Token} (ht : t.isName) (ts : List Token) :
    (expression (t :: ts)).rest.length ≤ ts.length :=
  (expression_predictsAt ([t] ++ ts)).rest_le
    ((expression_inner 0).reads ht [] (Follow.symbols_none _))

namespace Parser

section Calls

variable {sub : Parser Expr} {n : Nat}
  (hsub : ∀ vs, vs.length < n → Simulates sub Grammar.expression (.symbols openers) vs)

include hsub

theorem named_simulates {t e : Token} {vs : List Token} (ht : t.isName) (he : e.isPunct "=")
    (hlen : vs.length < n) : Simulates (namedArgument sub) (Grammar.argument Grammar.expression)
      (.symbols openers) (t :: e :: vs) := by
  have hrule : Grammar.argument Grammar.expression (t :: e :: vs) =
      (do return .named t.text (← Grammar.expression) : Rule Argument) vs :=
    Grammar.argument_of_named ht he vs
  rw [Simulates, namedArgument, name, punct, bind_token_of_satisfies ht, bind_token_of_satisfies he,
    hrule]
  exact Attempt.Follows.widen ((hsub vs hlen).map _) ((List.suffix_cons e vs).trans
    (List.suffix_cons t _))

omit hsub in
/-- Without an equals sign behind a name there is no argument by name, and to try for one comes no
further than an expression does. -/
theorem namedArgument_of_not {us : List Token} (hus : startsNamed us = false) :
    (namedArgument sub us).value? = none ∧
      (namedArgument sub us).Within (Grammar.expression us).rest.length := by
  have hfails {vs : List Token} (h : namedArgument sub us = ⟨none, some vs.length⟩)
      (hle : (Grammar.expression us).rest.length ≤ vs.length) :
      (namedArgument sub us).value? = none ∧
        (namedArgument sub us).Within (Grammar.expression us).rest.length := by
    rw [h]
    exact ⟨rfl, Attempt.within_some hle⟩
  by_cases hname : ∀ t ∈ us.head?, t.isName = false
  · exact hfails ((refuses_token hname).bind _)
      (Grammar.expression_predictsAt us).rest_suffix.length_le
  · obtain ⟨t, vs, rfl, ht⟩ := Rule.exists_cons_of_not hname
    have hequals : ∀ e ∈ vs.head?, e.isPunct "=" = false := by
      cases vs with
      | nil => exact fun _ => nofun
      | cons e vs =>
        rintro _ ⟨⟩
        simpa [startsNamed, ht] using hus
    refine hfails ?_ (Grammar.expression_rest_of_name ht vs)
    rw [namedArgument, name, bind_token_of_satisfies ht]
    exact (refuses_punct hequals).bind _

theorem argument_simulates {us : List Token} (hlen : us.length < n) :
    Simulates (choice [namedArgument sub, positionalArgument sub])
      (Grammar.argument Grammar.expression) (.symbols ("=" :: openers)) us := by
  by_cases hnamed : startsNamed us
  · match us, hnamed with
    | t :: e :: vs, hnamed =>
      obtain ⟨ht, he⟩ : t.isName ∧ e.isPunct "=" := by simpa [startsNamed] using hnamed
      have hvs := hsub vs (by simp at hlen; omega)
      refine (named_simulates hsub ht he (by simp at hlen; omega)).orElse_back
        (fun _ _ => Follow.symbols_mono (by simp)) fun rest hstuck _ => ?_
      rw [choice_singleton]
      -- A name stands for itself in front of an equals sign.
      have hname : Grammar.expression (t :: e :: vs) = .done (.identifier t.text t) (e :: vs) :=
        (Grammar.expression_inner 0).reads ht (e :: vs) (Follow.symbols_some (by decide) he)
      have hgives := gives_map ((hsub _ hlen).done hname).2 Argument.positional
      have hrest : rest <:+ vs := by
        change Grammar.argument Grammar.expression ([t, e] ++ vs) = _ at hstuck
        rw [Grammar.argument_of_named ht he] at hstuck
        exact ((hvs.map _).stuck hstuck).1
      exact hgives.retreats (Nat.lt_succ_of_le hrest.length_le) (Nat.le_succ _)
        (Follow.symbols_some (by simp) he)
  · have hnamed : startsNamed us = false := by simpa using hnamed
    have hrule : Grammar.argument Grammar.expression us =
        (do return .positional (← Grammar.expression) : Rule Argument) us :=
      Grammar.argument_of_positional hnamed
    obtain ⟨hnone, hwithin⟩ : (namedArgument sub us).value? = none ∧ _ :=
      namedArgument_of_not hnamed
    have hvalue : Simulates (positionalArgument sub) (Grammar.argument Grammar.expression)
        (.symbols ("=" :: openers)) us := by
      rw [Simulates, hrule]
      exact ((hsub us hlen).map Argument.positional).mono fun _ _ => Follow.symbols_mono (by simp)
    refine Simulates.orElse_left (by rwa [choice_singleton]) hnone ?_
    rwa [hrule, Rule.rest_map]

theorem argumentList_simulates {ts : List Token} (hlen : ts.length < n) : Simulates (do
      let args ← separated (choice [namedArgument sub, positionalArgument sub])
      return (args, ← punct ")"))
      (Rule.listUntil ")" (Grammar.argument Grammar.expression)) .never ts := by
  refine Simulates.list (fun us hus => argument_simulates hsub (by omega)) ?_ ?_
  · intro t us hus ht
    have hname := Token.not_isName_of_isPunct ht
    have hnamed : startsNamed (t :: us) = false := by cases us <;> simp [startsNamed, hname]
    refine (argument_simulates hsub (by simp; omega)).refuses_of_stuck ?_
    rw [Grammar.argument_of_positional hnamed]
    exact Rule.bind_of_stuck (expression_of_closer (by decide) ht us) _
  · intro mid rest hback t ht
    exact ⟨Follow.not_isPunct_of_symbols (by decide) hback t ht,
      Follow.not_isPunct_of_symbols (by decide) hback t ht⟩

theorem arguments_simulates {ts : List Token} (hlen : ts.length ≤ n) :
    Simulates (arguments sub) (Grammar.arguments Grammar.expression) .never ts := by
  refine (Simulates.token _).bind_never fun first vs hfirst _ => ?_
  rw [(Rule.token_eq_done hfirst).2, List.length_cons] at hlen
  exact argumentList_simulates hsub hlen

/-- What stands at a name is a call or the name itself. In front of an opening parenthesis the name
is gone back to if the arguments cannot be read. -/
theorem nameOrCall_simulates {t : Token} {ts : List Token} (ht : t.isName) (hlen : ts.length ≤ n) :
    Simulates (choice [call sub, identifier]) (Grammar.nameOrCall Grammar.expression)
      (.symbols ["("]) (t :: ts) := by
  have hidentifier : identifier (t :: ts) = ⟨some (.identifier t.text t, ts), none⟩ :=
    bind_token_of_satisfies ht _
  have hcall : call sub (t :: ts) = (do
      let found ← arguments sub
      return .call t.text found.1 ⟨t.offset, found.2.stop⟩ : Parser Expr) ts :=
    bind_token_of_satisfies ht _
  by_cases hopen : ∀ u ∈ ts.head?, u.isPunct "(" = false
  · have hrefuses : (arguments sub).Refuses ts := (refuses_punct hopen).bind _
    have hname :
        Grammar.nameOrCall Grammar.expression (t :: ts) = .done (.identifier t.text t) ts := by
      rw [Grammar.nameOrCall_of_isName ht, if_neg]
      cases ts <;> simp_all
    have hvalue : Simulates identifier (Grammar.nameOrCall Grammar.expression) (.symbols ["("])
        (t :: ts) := Simulates.of_token ht hname
    have hfailed : call sub (t :: ts) = ⟨none, some ts.length⟩ := hcall.trans (hrefuses.bind _)
    refine Simulates.orElse_left (by rwa [choice_singleton]) ?_ ?_ <;> rw [hfailed]
    rw [hname]
    exact Attempt.within_some (Nat.le_refl _)
  · obtain ⟨u, us, rfl, hu⟩ := Rule.exists_cons_of_not hopen
    have hrule : Grammar.nameOrCall Grammar.expression (t :: u :: us) = (do
        let found ← Grammar.arguments Grammar.expression
        return .call t.text found.1 ⟨t.offset, found.2.stop⟩ : Rule Expr) (u :: us) := by
      rw [Grammar.nameOrCall_of_isName ht, if_pos (by simpa using hu)]
    have hvalue : Simulates (call sub) (Grammar.nameOrCall Grammar.expression) .never
        (t :: u :: us) := by
      rw [Simulates, hcall, hrule]
      exact Attempt.Follows.widen ((arguments_simulates hsub hlen).map _) (List.suffix_cons t _)
    refine hvalue.orElse_back (fun _ _ => False.elim) fun rest hstuck _ => ?_
    have hrest : rest <:+ us := by
      have hlist := argumentList_simulates hsub (Nat.lt_of_succ_le hlen)
      rw [hrule, Grammar.arguments, bind_assoc,
        Rule.bind_of_done (Rule.punct_of_isPunct hu us)] at hstuck
      exact ((hlist.map _).stuck hstuck).1
    have hgives : (identifier (t :: u :: us)).Gives (.identifier t.text t) (u :: us) := by
      rw [hidentifier]
      exact ⟨rfl, Attempt.within_none _ _⟩
    rw [choice_singleton]
    exact hgives.retreats (Nat.lt_succ_of_le hrest.length_le) (Nat.le_succ _)
      (Follow.symbols_some (by simp) hu)

end Calls

section Literals

variable {t : Token} {ts : List Token} {r : Rule Expr} {value : Literal}

theorem literals_refuse (h : ∀ t ∈ ts.head?, Literal.ofToken? t = none) :
    (choice [number, string, boolean, undef]).Refuses ts := by
  have hkeyword {word : String} (hword : word ∈ ["true", "false", "undef"]) :
      (keyword word).Refuses ts := by
    refine refuses_token fun t ht => Bool.eq_false_iff.mpr fun hmatch => ?_
    obtain ⟨hkind, rfl⟩ : t.kind = .keyword ∧ t.text = word := by
      simpa [Token.isKeyword] using hmatch
    have hnone := h t ht
    simp only [List.mem_cons, List.not_mem_nil, or_false] at hword
    rcases hword with hword | hword | hword <;> simp [Literal.ofToken?, hkind, hword] at hnone
  have hnumber : number.Refuses ts := by
    cases ts with
    | nil => exact number_refuses (by simp)
    | cons t ts =>
      by_cases hkind : t.kind = .number
      · have hread : Number.read? t.text = none := by
          simpa [Literal.ofToken?, hkind] using h t rfl
        simp [Refuses, number, select, token, hkind, hread]
      · exact number_refuses (by simpa using hkind)
  have hstring : string.Refuses ts := by
    refine string_refuses fun t ht hkind => ?_
    have hnone := h t ht
    simp [Literal.ofToken?, hkind] at hnone
  have hboolean : boolean.Refuses ts :=
    boolean_refuses (hkeyword (by decide)) (hkeyword (by decide))
  refine hnumber.choice ?_
  simpa using ⟨hstring, hboolean, (hkeyword (by decide)).bind _⟩

theorem keyword_refuses {t : Token} {word other : String} (h : t.isKeyword word)
    (hne : word ≠ other) (ts : List Token) : (keyword other).Refuses (t :: ts) := by
  obtain ⟨_, rfl⟩ : t.kind = .keyword ∧ t.text = word := by simpa [Token.isKeyword] using h
  refine refuses_token ?_
  rintro _ ⟨⟩
  simp [Token.isKeyword, hne]

theorem boolean_simulates {b : Bool} (h : t.isKeyword (if b then "true" else "false"))
    (hread : r (t :: ts) = .done (.literal (.boolean b) t) ts) :
    Simulates boolean r .never (t :: ts) := by
  cases b with
  | true =>
    have hfalse : (keyword "false").Refuses (t :: ts) := keyword_refuses h (by decide) ts
    exact .choice_first (.of_token h hread) (List.forall_mem_singleton.mpr (hfalse.bind _))
  | false =>
    exact .choice_skip ((keyword_refuses h (by decide) ts).bind _)
      (.choice_first (.of_token h hread) (by simp))

theorem literal_simulates (h : Literal.ofToken? t = some value)
    (hread : r (t :: ts) = .done (.literal value t) ts) :
    Simulates (choice [number, string, boolean, undef]) r .never (t :: ts) := by
  have hbooleans (hkind : t.kind ≠ .keyword) : boolean.Refuses (t :: ts) := by
    have hkeyword {word : String} : (keyword word).Refuses (t :: ts) :=
      refuses_keyword (by simpa using hkind)
    exact boolean_refuses hkeyword hkeyword
  simp only [Literal.ofToken?] at h
  split at h
  case h_1 hkind =>
    obtain ⟨v, hv, rfl⟩ := Option.map_eq_some_iff.mp h
    have hnumber : Simulates number r .never (t :: ts) := by
      rw [Simulates, hread]
      refine .of_gives (List.suffix_cons t ts) ⟨?_, ?_⟩ <;>
        simp [number, select, token, hkind, hv, Attempt.within_none]
    refine hnumber.choice_first ?_
    simpa using ⟨string_refuses (by simp [hkind]), hbooleans (by simp [hkind]),
      undef_refuses (by simp [hkind])⟩
  case h_2 hkind =>
    cases h
    refine .choice_skip (number_refuses (by simp [hkind])) ?_
    refine .choice_first (.of_token (by simp [hkind]) hread) ?_
    simpa using ⟨hbooleans (by simp [hkind]), undef_refuses (by simp [hkind])⟩
  case h_3 hkind =>
    refine .choice_skip (number_refuses (by simp [hkind])) ?_
    refine .choice_skip (string_refuses (by simp [hkind])) ?_
    have hboolean {b : Bool} (ht : t.isKeyword (if b then "true" else "false"))
        (hvalue : Literal.boolean b = value) :
        Simulates (choice [boolean, undef]) r .never (t :: ts) := by
      have hundef : (keyword "undef").Refuses (t :: ts) :=
        keyword_refuses ht (by cases b <;> decide) ts
      exact .choice_first (boolean_simulates ht (hvalue ▸ hread))
        (List.forall_mem_singleton.mpr (hundef.bind _))
    split at h
    · next htext =>
      exact hboolean (b := true) (by simp [Token.isKeyword, hkind, htext]) (Option.some.inj h)
    · split at h
      · next htext =>
        exact hboolean (b := false) (by simp [Token.isKeyword, hkind, htext]) (Option.some.inj h)
      · split at h
        · next htext =>
          cases h
          have ht : t.isKeyword "undef" := by simp [Token.isKeyword, hkind, htext]
          refine .choice_skip ?_ (.choice_first (.of_token ht hread) (by simp))
          exact boolean_refuses (keyword_refuses ht (by decide) ts)
            (keyword_refuses ht (by decide) ts)
        · cases h
  case h_4 => cases h

end Literals

section Primary

variable {sub : Parser Expr} {n : Nat} {ts : List Token}

/-- The alternatives, by what they begin with. -/
theorem primary_eq (sub : Parser Expr) : primary sub = choice [
    choice [number, string, boolean, undef], choice [call sub, identifier],
    choice [range sub, vector sub], parenthesised sub] := by
  change choice ([number, string, boolean, undef] ++ ([call sub, identifier] ++
    ([range sub, vector sub] ++ [parenthesised sub]))) = _
  rw [choice_append, choice_append, choice_append]
  rfl

theorem names_refuse (h : ∀ t ∈ ts.head?, t.isName = false) :
    (choice [call sub, identifier]).Refuses ts :=
  (call_refuses h).choice (List.forall_mem_singleton.mpr (identifier_refuses h))

theorem squares_refuse (h : ∀ t ∈ ts.head?, t.isPunct "[" = false) :
    (choice [range sub, vector sub]).Refuses ts :=
  (range_refuses h).choice (List.forall_mem_singleton.mpr (vector_refuses h))

/-- Whatever the parser for the expressions inside is, a literal is read from its token. -/
theorem primary_simulates_literal {t : Token} {value : Literal}
    (h : Literal.ofToken? t = some value) (sub : Parser Expr) (ts : List Token) :
    Simulates (primary sub) (Grammar.primary Grammar.expression) .never (t :: ts) := by
  have hname : t.isName = false :=
    Bool.eq_false_iff.mpr fun hname => by simp [Grammar.ofToken?_of_isName hname] at h
  have hpunct (s : String) : t.isPunct s = false :=
    Bool.eq_false_iff.mpr fun hpunct => by simp [Grammar.ofToken?_of_isPunct hpunct] at h
  rw [primary_eq]
  refine .choice_first (literal_simulates h (Grammar.primary_of_literal h ts)) ?_
  simpa using ⟨names_refuse (by simpa using hname), squares_refuse (by simpa using hpunct "["),
    parenthesised_refuses (by simpa using hpunct "(")⟩

theorem primary_of_literal {t : Token} {value : Literal} (h : Literal.ofToken? t = some value)
    (sub : Parser Expr) (ts : List Token) :
    (primary sub (t :: ts)).value? = some (.literal value t, ts) := by
  have hread := primary_simulates_literal h sub ts
  exact (hread.done (Grammar.primary_of_literal h ts)).2.value

variable (hsub : ∀ vs, vs.length < n → Simulates sub Grammar.expression (.symbols openers) vs)

include hsub

theorem parenthesised_simulates (hlen : ts.length ≤ n) :
    Simulates (parenthesised sub) (Grammar.parenthesised Grammar.expression) .never ts := by
  refine (Simulates.token _).bind_never fun first us hfirst _ => ?_
  rw [(Rule.token_eq_done hfirst).2, List.length_cons] at hlen
  refine (hsub us hlen).bind_refused (fun e mid _ _ => ?_) fun e mid rest hback => ?_
  · exact (Simulates.token _).map fun _ => e
  · exact (refuses_closer hback (by decide)).bind _

/-- What binds tighter than all operators begins with a literal, a name or an opening bracket, and
only the alternatives that begin like this count. -/
theorem primary_simulates (hlen : ts.length ≤ n) :
    Simulates (primary sub) (Grammar.primary Grammar.expression) (.symbols ["("]) ts := by
  cases ts with
  | nil =>
    rw [primary_eq]
    refine .of_refuses ?_ rfl
    refine (literals_refuse (by simp)).choice ?_
    simpa using ⟨names_refuse (by simp), squares_refuse (by simp), parenthesised_refuses (by simp)⟩
  | cons t us =>
    have hsquares (h : t.isPunct "[" = false) :
        (choice [range sub, vector sub]).Refuses (t :: us) :=
      squares_refuse (by simpa using h)
    have hround (h : t.isPunct "(" = false) : (parenthesised sub).Refuses (t :: us) :=
      parenthesised_refuses (by simpa using h)
    cases hliteral : Literal.ofToken? t with
    | some value => exact Attempt.Follows.never (primary_simulates_literal hliteral sub us) _
    | none =>
      rw [primary_eq]
      refine .choice_skip (literals_refuse (by simpa using hliteral)) ?_
      by_cases hname : t.isName
      · have hpunct (s : String) : t.isPunct s = false :=
          Bool.eq_false_iff.mpr fun h => by simp [Token.not_isName_of_isPunct h] at hname
        refine .choice_first ?_ (by simpa using ⟨hsquares (hpunct "["), hround (hpunct "(")⟩)
        rw [Simulates, Grammar.primary_of_isName hname]
        exact nameOrCall_simulates hsub hname (Nat.le_of_lt hlen)
      · refine .choice_skip (names_refuse (by simpa using hname)) ?_
        by_cases hsquare : t.isPunct "["
        · have hread := hround (Token.not_isPunct_of_isPunct hsquare (by decide))
          refine .choice_first ?_ (by simpa using hread)
          rw [Simulates, Grammar.primary_of_square hsquare]
          exact Attempt.Follows.never (brackets_simulates
            (fun vs hvs => hsub vs (Nat.lt_of_le_of_lt hvs hlen)) hsquare) _
        · refine .choice_skip (hsquares (by simpa using hsquare)) ?_
          rw [choice_singleton]
          by_cases hopen : t.isPunct "("
          · rw [Simulates, Grammar.primary_of_round hopen]
            exact Attempt.Follows.never (parenthesised_simulates hsub hlen) _
          · refine .of_refuses (hround (by simpa using hopen)) ?_
            simp [Grammar.primary, hliteral, hname, hsquare, hopen]

end Primary

end Parser

end SolidScript
