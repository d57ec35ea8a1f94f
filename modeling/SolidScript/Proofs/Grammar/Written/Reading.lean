import SolidScript.Proofs.Grammar.RoundTrip
import SolidScript.Proofs.Grammar.Written

namespace SolidScript

open Grammar Rule

/-- What the rules of the grammar make of the tokens of an expression in a place for ranks up to the
limit. -/
structure Expr.ReadsUpTo (limit : Nat) (us : List Token) (e : Expr) : Prop where
  below : limit ≤ 12 → ReadsAt limit us e
  whole : ReadsWhole us e

theorem Expr.ReadsUpTo.of_readsAt {k limit : Nat} {us : List Token} {e : Expr} (hk : k ≤ 12)
    (hlimit : k ≤ limit) (h : ReadsAt k us e) : e.ReadsUpTo limit us :=
  ⟨fun hle => h.mono hlimit hle, h.whole hk⟩

mutual

theorem Expr.Written.reads {limit : Nat} {us : List Token} {e : Expr} :
    Expr.Written limit us e → e.ReadsUpTo limit us
  | @Expr.Written.literal _ t value ht => by
    have hspells : Spells [t] (Expr.literal value t).render := by rw [Expr.render]; rfl
    exact .of_readsAt (Nat.zero_le _) (Nat.zero_le _)
      ((Expr.literal_readable ht _ hspells).1 (Nat.zero_le _))
  | @Expr.Written.identifier _ t ht => by
    have hspells : Spells [t] (Expr.identifier t.text t).render := by rw [Expr.render]; rfl
    exact .of_readsAt (Nat.zero_le _) (Nat.zero_le _)
      ((Expr.identifier_readable ht rfl _ hspells).1 (Nat.zero_le _))
  | .vector hfirst hlast helements => by
    obtain ⟨values, hvalues, hlisted⟩ := Expr.Written.listed helements
    exact .of_readsAt (Nat.zero_le _) (Nat.zero_le _) (.vector hfirst hlast hvalues hlisted)
  | .range hfirst hcolon hlast ha hb =>
    .of_readsAt (Nat.zero_le _) (Nat.zero_le _)
      (.range hfirst hcolon hlast ha.reads.whole hb.reads.whole)
  | .steppedRange hfirst hcolon hsecond hlast ha hb hc =>
    .of_readsAt (Nat.zero_le _) (Nat.zero_le _)
      (.steppedRange hfirst hcolon hsecond hlast ha.reads.whole hb.reads.whole hc.reads.whole)
  | .parenthesised hfirst hlast he =>
    .of_readsAt (Nat.zero_le _) (Nat.zero_le _) (he.reads.whole.parenthesised hfirst hlast)
  | .unary hlimit ht he =>
    .of_readsAt (by decide) hlimit ((he.reads.below (by decide)).unary ht)
  | @Expr.Written.binary _ _ _ _ op _ _ hlimit hleft ht hright => by
    have hrank : 3 ≤ op.rank ∧ op.rank ≤ 12 := by cases op <;> decide
    have ha := hleft.reads.below hrank.2
    have hb := hright.reads.below (by omega)
    obtain ⟨k, hk⟩ : ∃ k, op.rank = k + 3 := ⟨op.rank - 3, by omega⟩
    rw [hk] at ha hb hlimit
    exact .of_readsAt (by omega) hlimit (.binary hk ha hb ht)
  | .conditional hlimit hcondition ht ha hu hb => by
    refine ⟨fun hle => absurd (Nat.le_trans hlimit hle) (by decide), ?_⟩
    exact .conditional (hcondition.reads.below (Nat.le_refl _)) ha.reads.whole hb.reads.whole ht hu
  | .index hlimit hobject hfirst hi hlast =>
    .of_readsAt (by decide) hlimit
      ((hobject.reads.below (by decide)).index hi.reads.whole hfirst hlast)
  | .call ht hfirst hlast harguments => by
    obtain ⟨values, hvalues, hlisted⟩ := Argument.Written.listed harguments
    exact .of_readsAt (Nat.zero_le _) (Nat.zero_le _) (.call ht rfl hfirst hlast hvalues hlisted)

theorem Expr.Written.listed {us : List Token} {es : List Expr} :
    Separated (Expr.Written 13) us es → ∃ vs, vs.map Expr.erase = es.map Expr.erase ∧
      Listed expression (Follow.symbols closers) us vs
  | .nil => ⟨[], rfl, .nil⟩
  | .one item => by
    obtain ⟨v, hv, hread⟩ := item.reads.whole
    exact ⟨[v], by simp only [List.map_cons, List.map_nil, hv], .one hread⟩
  | .more item hcomma others => by
    obtain ⟨v, hv, hread⟩ := item.reads.whole
    obtain ⟨vs, hvs, hlisted⟩ := Expr.Written.listed others
    exact ⟨v :: vs, by simp only [List.map_cons, hv, hvs], .more hread hcomma hlisted⟩

theorem Argument.Written.reads {us : List Token} {a : Argument} :
    Argument.Written us a → ∃ v : Argument, v.erase = a.erase ∧
      Reads (argument expression) us v (Follow.symbols [",", ")"])
  | .positional hvalue => by
    obtain ⟨v, hv, hread⟩ := hvalue.reads.whole
    exact ⟨.positional v, by simp only [Argument.mapTokens, hv], positional_reads hread⟩
  | .named ht hequals hvalue => by
    obtain ⟨v, hv, hread⟩ := hvalue.reads.whole
    exact ⟨.named _ v, by simp only [Argument.mapTokens, hv], named_reads ht hequals hread⟩

theorem Argument.Written.listed {us : List Token} {as : List Argument} :
    Separated Argument.Written us as → ∃ vs, vs.map Argument.erase = as.map Argument.erase ∧
      Listed (argument expression) (Follow.symbols [",", ")"]) us vs
  | .nil => ⟨[], rfl, .nil⟩
  | .one item => by
    obtain ⟨v, hv, hread⟩ := item.reads
    exact ⟨[v], by simp only [List.map_cons, List.map_nil, hv], .one hread⟩
  | .more item hcomma others => by
    obtain ⟨v, hv, hread⟩ := item.reads
    obtain ⟨vs, hvs, hlisted⟩ := Argument.Written.listed others
    exact ⟨v :: vs, by simp only [List.map_cons, hv, hvs], .more hread hcomma hlisted⟩

end

end SolidScript
