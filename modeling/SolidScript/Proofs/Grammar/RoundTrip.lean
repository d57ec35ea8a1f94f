import SolidScript.Proofs.Grammar.Ambiguity
import SolidScript.Proofs.Grammar.Brackets

namespace SolidScript

open Grammar Rule

/-- What is written for the expression is read as the expression. -/
def Expr.Readable (e : Expr) : Prop :=
  ∀ us, Spells us e.render → (e.rank ≤ 12 → ReadsAt e.rank us e) ∧ ReadsWhole us e

namespace Expr.Readable

variable {e : Expr}

theorem of_readsAt (hrank : e.rank ≤ 12) (h : ∀ us, Spells us e.render → ReadsAt e.rank us e) :
    e.Readable :=
  fun us hus => ⟨fun _ => h us hus, (h us hus).whole hrank⟩

theorem whole (h : e.Readable) {us : List Token} (hus : Spells us e.render) : ReadsWhole us e :=
  (h us hus).2

/-- With parentheses where they are needed, an expression fits any place. -/
theorem enclosed (h : e.Readable) {limit : Nat} {us : List Token} (hlimit : limit ≤ 12)
    (hus : Spells us (Lexeme.enclose limit e.rank e.render)) : ReadsAt limit us e := by
  unfold Lexeme.enclose at hus
  split at hus
  · next hrank => exact ((h us hus).1 (by omega)).mono hrank hlimit
  · obtain ⟨t, us, rfl, ht, hus⟩ := hus.punct
    obtain ⟨us, u, rfl, hus, hu⟩ := hus.append_last
    exact ((h.whole hus).parenthesised ht hu).mono (Nat.zero_le _) hlimit

end Expr.Readable

theorem Literal.ofToken?_congr {t u : Token} (h : t.toLexeme = u.toLexeme) :
    Literal.ofToken? t = Literal.ofToken? u := by
  have hkind : t.kind = u.kind := congrArg Lexeme.kind h
  have htext : t.text = u.text := congrArg Lexeme.text h
  rw [Literal.ofToken?, Literal.ofToken?, hkind, htext]

theorem Expr.literal_readable {value : Literal} {token : Token}
    (h : Literal.ofToken? token = some value) : (Expr.literal value token).Readable := by
  refine .of_readsAt (Nat.zero_le _) fun us hus => ?_
  unfold Expr.render at hus
  obtain ⟨t, rfl, ht⟩ := hus.single
  have hvalue : Literal.ofToken? t = some value := by rw [Literal.ofToken?_congr ht, h]
  refine ⟨.literal value t, by simp only [Expr.mapTokens, Token.unplaced, ht], fun rest _ => ?_⟩
  exact primary_of_literal hvalue rest

theorem Expr.identifier_readable {name : String} {token : Token} (hname : token.isName)
    (htext : token.text = name) : (Expr.identifier name token).Readable := by
  refine .of_readsAt (Nat.zero_le _) fun us hus => ?_
  unfold Expr.render at hus
  obtain ⟨t, rfl, ht⟩ := hus.single
  have hsame : t.text = name := by rw [← htext, ht]
  refine ⟨.identifier name t, ?_, fun rest hrest => ?_⟩
  · simp only [Expr.mapTokens, Token.unplaced, ht]
  rw [← hsame]
  exact primary_reads_name (by rwa [Token.isName_congr ht]) rest hrest

mutual

theorem Expr.readable : (e : Expr) → e.Backed → e.Readable
  | .literal value token, h => by
    unfold Expr.Backed at h
    exact Expr.literal_readable h
  | .identifier name token, h => by
    unfold Expr.Backed at h
    exact Expr.identifier_readable h.1 h.2
  | .vector elements span, h => by
    unfold Expr.Backed at h
    refine .of_readsAt (Nat.zero_le _) fun us hus => ?_
    unfold Expr.render at hus
    obtain ⟨first, us, rfl, hfirst, hus⟩ := hus.punct
    obtain ⟨us, last, rfl, hus, hlast⟩ := hus.append_last
    obtain ⟨values, hvalues, hlisted⟩ := Expr.listed elements h us hus
    exact ReadsAt.vector hfirst hlast hvalues hlisted
  | .range a b span, h => by
    unfold Expr.Backed at h
    refine .of_readsAt (Nat.zero_le _) fun us hall => ?_
    unfold Expr.render at hall
    obtain ⟨first, us, rfl, hfirst, hmore⟩ := hall.punct
    obtain ⟨us, t, vs, rfl, hus, ht, hlater⟩ := hmore.append_punct
    obtain ⟨vs, last, rfl, hvs, hlast⟩ := hlater.append_last
    exact ReadsAt.range hfirst ht hlast ((a.readable h.1).whole hus) ((b.readable h.2).whole hvs)
  | .steppedRange a b c span, h => by
    unfold Expr.Backed at h
    refine .of_readsAt (Nat.zero_le _) fun us hall => ?_
    unfold Expr.render at hall
    obtain ⟨first, us, rfl, hfirst, hmore⟩ := hall.punct
    obtain ⟨us, t, vs, rfl, hus, ht, hlater⟩ := hmore.append_punct
    obtain ⟨vs, u, ws, rfl, hvs, hu, hend⟩ := hlater.append_punct
    obtain ⟨ws, last, rfl, hws, hlast⟩ := hend.append_last
    exact ReadsAt.steppedRange hfirst ht hu hlast ((a.readable h.1).whole hus)
      ((b.readable h.2.1).whole hvs) ((c.readable h.2.2).whole hws)
  | .unary op e span, h => by
    unfold Expr.Backed at h
    refine .of_readsAt (Nat.le_of_ble_eq_true rfl) fun us hus => ?_
    unfold Expr.render at hus
    obtain ⟨t, us, rfl, ht, hus⟩ := hus.punct
    exact ((e.readable h).enclosed (by decide) hus).unary ht
  | .binary left op right span, h => by
    unfold Expr.Backed at h
    have hrank : 3 ≤ op.rank ∧ op.rank ≤ 12 := by cases op <;> decide
    refine .of_readsAt hrank.2 fun us hus => ?_
    unfold Expr.render at hus
    obtain ⟨us, t, vs, rfl, hus, ht, hvs⟩ := hus.append_punct
    obtain ⟨k, hk⟩ : ∃ k, op.rank = k + 3 := ⟨op.rank - 3, by omega⟩
    have hleft := (left.readable h.1).enclosed hrank.2 hus
    have hright := (right.readable h.2).enclosed (by omega) hvs
    rw [hk] at hleft hright
    rw [Expr.rank, hk]
    exact ReadsAt.binary hk hleft hright ht
  | .conditional condition a b span, h => by
    unfold Expr.Backed at h
    intro us hall
    unfold Expr.render at hall
    obtain ⟨us, t, vs, rfl, hus, ht, hmore⟩ := hall.append_punct
    obtain ⟨vs, u, ws, rfl, hvs, hu, hws⟩ := hmore.append_punct
    refine ⟨fun hrank => absurd hrank (by simp [Expr.rank]), ?_⟩
    exact ReadsWhole.conditional ((condition.readable h.1).enclosed (Nat.le_refl _) hus)
      ((a.readable h.2.1).whole hvs) ((b.readable h.2.2).whole hws) ht hu
  | .index object i span, h => by
    unfold Expr.Backed at h
    refine .of_readsAt (Nat.le_of_ble_eq_true rfl) fun us hall => ?_
    unfold Expr.render at hall
    obtain ⟨us, t, vs, rfl, hus, ht, hmore⟩ := hall.append_punct
    obtain ⟨vs, u, rfl, hvs, hu⟩ := hmore.append_last
    exact ((object.readable h.1).enclosed (by decide) hus).index ((i.readable h.2).whole hvs) ht hu
  | .call name arguments span, h => by
    unfold Expr.Backed at h
    refine .of_readsAt (Nat.zero_le _) fun us hus => ?_
    unfold Expr.render at hus
    obtain ⟨t, us, rfl, ht, hus⟩ := hus.cons
    obtain ⟨hname, htext⟩ := Token.isName_of_toLexeme ht
    obtain ⟨first, us, rfl, hfirst, hus⟩ := hus.punct
    obtain ⟨us, last, rfl, hus, hlast⟩ := hus.append_last
    obtain ⟨values, hvalues, hlisted⟩ := Argument.listed arguments h us hus
    exact ReadsAt.call hname htext hfirst hlast hvalues hlisted

theorem Expr.listed : (es : List Expr) → Expr.BackedAll es → ∀ us, Spells us (Expr.renderAll es) →
    ∃ vs, vs.map Expr.erase = es.map Expr.erase ∧ Listed expression (Follow.symbols closers) us vs
  | [], _, us, hus => by
    rw [Expr.renderAll] at hus
    obtain rfl := List.map_eq_nil_iff.mp hus
    exact ⟨[], rfl, .nil⟩
  | [e], h, us, hus => by
    unfold Expr.BackedAll at h
    rw [Expr.renderAll] at hus
    obtain ⟨v, hv, hread⟩ := (e.readable h.1).whole hus
    exact ⟨[v], by simp only [List.map_cons, List.map_nil, hv], .one hread⟩
  | e :: d :: es, h, us, hus => by
    unfold Expr.BackedAll at h
    rw [Expr.renderAll] at hus
    · obtain ⟨us, t, ws, rfl, hus, ht, hws⟩ := hus.append_punct
      obtain ⟨v, hv, hread⟩ := (e.readable h.1).whole hus
      obtain ⟨vs, hvs, hlisted⟩ := Expr.listed (d :: es) h.2 ws hws
      exact ⟨v :: vs, by simp only [List.map_cons, hv, hvs], .more hread ht hlisted⟩
    · exact nofun

theorem Argument.readable : (a : Argument) → a.Backed → ∀ us, Spells us a.render →
    ∃ v : Argument, v.erase = a.erase ∧
      Reads (argument expression) us v (Follow.symbols [",", ")"])
  | .positional value, h, us, hus => by
    unfold Argument.Backed at h
    unfold Argument.render at hus
    obtain ⟨v, hv, hread⟩ := (value.readable h).whole hus
    exact ⟨.positional v, by simp only [Argument.mapTokens, hv], positional_reads hread⟩
  | .named name value, h, us, hus => by
    unfold Argument.Backed at h
    unfold Argument.render at hus
    obtain ⟨t, us, rfl, ht, hus⟩ := hus.cons
    obtain ⟨hname, htext⟩ := Token.isName_of_toLexeme ht
    obtain ⟨u, us, rfl, hu, hus⟩ := hus.punct
    obtain ⟨v, hv, hread⟩ := (value.readable h).whole hus
    refine ⟨.named t.text v, ?_, named_reads hname hu hread⟩
    simp only [Argument.mapTokens, hv, htext]

theorem Argument.listed : (as : List Argument) → Argument.BackedAll as → ∀ us,
    Spells us (Argument.renderAll as) → ∃ vs, vs.map Argument.erase = as.map Argument.erase ∧
      Listed (argument expression) (Follow.symbols [",", ")"]) us vs
  | [], _, us, hus => by
    rw [Argument.renderAll] at hus
    obtain rfl := List.map_eq_nil_iff.mp hus
    exact ⟨[], rfl, .nil⟩
  | [a], h, us, hus => by
    unfold Argument.BackedAll at h
    rw [Argument.renderAll] at hus
    obtain ⟨v, hv, hread⟩ := a.readable h.1 us hus
    exact ⟨[v], by simp only [List.map_cons, List.map_nil, hv], .one hread⟩
  | a :: b :: as, h, us, hus => by
    unfold Argument.BackedAll at h
    rw [Argument.renderAll] at hus
    · obtain ⟨us, t, ws, rfl, hus, ht, hws⟩ := hus.append_punct
      obtain ⟨v, hv, hread⟩ := a.readable h.1 us hus
      obtain ⟨vs, hvs, hlisted⟩ := Argument.listed (b :: as) h.2 ws hws
      exact ⟨v :: vs, by simp only [List.map_cons, hv, hvs], .more hread ht hlisted⟩
    · exact nofun

end

namespace Grammar

/-- A name, an equals sign, the tokens of an expression and a semicolon are an assignment. -/
theorem statement_assignment {t equals last : Token} {us : List Token} {v : Expr} (ht : t.isName)
    (hequals : equals.isPunct "=") (hlast : last.isPunct ";")
    (h : Reads expression us v (Follow.symbols closers)) :
    statement (t :: equals :: (us ++ [last])) =
      .done (.sequence [.assignment (.identifier t.text t) t v ⟨t.offset, (Token.spanOf us).stop⟩,
        .terminator last]) [] := by
  have htarget : expression (t :: equals :: (us ++ [last])) =
      .done (.identifier t.text t) (equals :: (us ++ [last])) :=
    (expression_inner 0).reads ht _ (Follow.symbols_some (by decide) hequals)
  have hvalue := h [last] (Follow.symbols_some (by decide) hlast)
  have hsliced : sliced expression (us ++ [last]) = .done (v, us) [last] := by
    rw [sliced_of_done hvalue, consumed_append]
  rw [statement_eq, anyStatement, announced?_of_isName ht]
  change (expression _).andThen _ = _
  rw [htarget]
  change simpleRest t (.identifier t.text t) _ = _
  rw [simpleRest_of_equals hequals, bind_apply, hsliced]
  change terminated _ [last] = _
  rw [terminated, bind_apply, punct_of_isPunct hlast]
  rfl

/-- A statement alone is a program. -/
theorem program_statement {t : Token} {ts : List Token} {d : Derivation}
    (h : statement (t :: ts) = .done d []) : program (t :: ts) = .done [(d, t :: ts)] [] := by
  have hsliced : sliced statement (t :: ts) = .done (d, t :: ts) [] := by
    rw [sliced_of_done h]
    simp [consumed]
  have hround : programRound [] (t :: ts) = .done (.again [(d, t :: ts)]) [] := by
    rw [programRound_cons, bind_apply, hsliced]
    rfl
  rw [program, loop_eq [] programRound_takes, bind_apply, hround]
  exact loop_of_finished rfl

end Grammar

/-- What is written out is read back: an assignment of an expression, written with no more
parentheses than the table of precedence asks for, is read as this one assignment, and its value is
the expression again but for places in the text. -/
theorem parseTokens_render (x : String) (e : Expr) (ts : List Token) (he : e.Backed)
    (hts : Spells ts (.ofName x :: .ofPunct "=" :: (e.render ++ [.ofPunct ";"]))) :
    ∃ (target last : Token) (value : Expr) (span : Span),
      parseTokens ts = .ok (.sequence [.sequence
        [.assignment (.identifier x target) target value span, .terminator last]]) ∧
      value.erase = e.erase := by
  obtain ⟨target, us, rfl, htarget, hmore⟩ := hts.cons
  obtain ⟨hname, rfl⟩ := Token.isName_of_toLexeme htarget
  obtain ⟨equals, us, rfl, hequals, hlater⟩ := hmore.punct
  obtain ⟨us, last, rfl, hus, hlast⟩ := hlater.append_last
  obtain ⟨value, hvalue, hread⟩ := (e.readable he).whole hus
  have hstatement := statement_assignment hname hequals hlast hread
  exact ⟨target, last, value, _, parseTokens_of_done (program_statement hstatement), hvalue⟩

/-- The sum keeps its parentheses as a factor. -/
theorem parseTokens_render_factor :
    ∃ (target last : Token) (value : Expr) (span : Span),
      parseTokens ([.ofName "x", .ofPunct "=", .ofPunct "(", .ofName "a", .ofPunct "+", .ofName "b",
        .ofPunct ")", .ofPunct "*", .ofName "c", .ofPunct ";"].map Lexeme.token) =
          .ok (.sequence [.sequence
            [.assignment (.identifier "x" target) target value span, .terminator last]]) ∧
        value.erase = .binary (.binary (.identifier "a" (Lexeme.ofName "a").token) .add
          (.identifier "b" (Lexeme.ofName "b").token) .origin) .mul
          (.identifier "c" (Lexeme.ofName "c").token) .origin :=
  parseTokens_render "x" (.binary (.binary (.identifier "a" (Lexeme.ofName "a").token) .add
    (.identifier "b" (Lexeme.ofName "b").token) .origin) .mul
    (.identifier "c" (Lexeme.ofName "c").token) .origin) _ ⟨⟨⟨rfl, rfl⟩, rfl, rfl⟩, rfl, rfl⟩ rfl

end SolidScript
