import SolidScript.Proofs.Compile
import SolidScript.Proofs.Node

namespace SolidScript

section Tokens

variable {source : String} {statements : List Stmt}

/-- The statements of a text are written with its significant tokens. -/
theorem written_of_parse (h : parse source = .ok statements) :
    ∃ tokens, tokenize source = .ok tokens ∧
      Stmt.WrittenAll (Token.significant tokens) statements := by
  obtain ⟨tokens, htokens, hstatements⟩ := tokenize_of_parse h
  obtain ⟨read, hread, hall⟩ := sequence_of_statementsOf hstatements
  exact ⟨tokens, htokens, (Grammar.program_written hread).stand hall⟩

/-- Every node of a program is written with tokens of the text that stand together. -/
theorem Stmt.WrittenAll.inside {us : List Token} {s : Stmt} {n : Node}
    (h : Stmt.WrittenAll us statements) (hs : s ∈ statements) (hn : Node.Inside (.stmt s) n) :
    ∃ vs, vs <:+: us ∧ Node.Written vs n := by
  obtain ⟨vs, hvs, hroot⟩ := (Scattered.statements h).mem (List.mem_map_of_mem hs)
  obtain ⟨ws, hws, hnode⟩ := hroot.inside hn
  exact ⟨ws, hws.trans hvs, hnode⟩

end Tokens

section Nesting

variable {lo hi : Nat} {us : List Token}

/-- What stands directly inside an expression lies inside its span, in order. -/
theorem Expr.Written.nested {limit lo hi : Nat} {us : List Token} {e : Expr}
    (h : Expr.Written limit us e) (hus : Token.Between lo us hi) :
    Span.InOrder e.span.start ((Node.expr e).children.map Node.span) e.span.stop := by
  have hchildren := h.children
  induction h using Expr.Written.induct generalizing lo hi with
  | literal | identifier => exact Nat.le_of_lt hus.2.1
  | vector | range | steppedRange | call =>
    exact hchildren.row (hus.ends rfl (by simp [List.getLast?_cons]))
  | parenthesised _ _ he ih =>
    obtain ⟨_, _, hmore⟩ := Token.between_cons.mp hus
    obtain ⟨mid, hinner, _⟩ := Token.between_append.mp hmore
    exact ih hinner he.children
  | unary _ _ he =>
    have hstart := Nat.le_trans (Nat.le_of_lt hus.2.1) (he.between hus.2.2).start
    exact ((hchildren.row hus).from_first rfl hstart).to_last rfl (Nat.le_refl _)
  | binary _ hleft _ hright =>
    obtain ⟨mid, hfirst, hoperator, hproper, hsecond⟩ := Token.between_append.mp hus
    have hspan := hleft.merge_span hright hfirst (show mid ≤ _ by omega) hsecond
    rw [Expr.span, hspan]
    exact ((hchildren.row hus).from_first rfl (Nat.le_refl _)).to_last rfl (Nat.le_refl _)
  | conditional _ hcondition _ ha _ hb =>
    obtain ⟨mid, hfirst, hquestion, hproper, hmore⟩ := Token.between_append.mp hus
    obtain ⟨mid', hsecond, hcolon, hproper', hthird⟩ := Token.between_append.mp hmore
    have hle := hsecond.le
    have hspan := hcondition.merge_span hb hfirst (show mid ≤ _ by omega) hthird
    rw [Expr.span, hspan]
    exact ((hchildren.row hus).from_first rfl (Nat.le_refl _)).to_last rfl (Nat.le_refl _)
  | index _ _ _ hindex _ =>
    obtain ⟨mid, _, _, _, hmore⟩ := Token.between_append.mp hus
    obtain ⟨mid', hinner, hclose, hproper, _⟩ := Token.between_append.mp hmore
    have hclosed := Nat.le_trans hclose (Nat.le_of_lt hproper)
    have hstop := Nat.le_trans (hindex.between hinner).stop hclosed
    exact ((hchildren.row hus).from_first rfl (Nat.le_refl _)).to_last rfl hstop

/-- What stands directly inside a statement lies inside its span, in order. -/
theorem Stmt.Written.nested {s : Stmt} (h : Stmt.Written us s) (hus : Token.Between lo us hi) :
    Span.InOrder s.span.start ((Node.stmt s).children.map Node.span) s.span.stop := by
  have hchildren := h.children
  cases h with
  | empty => exact Nat.le_of_lt hus.2.1
  | compound | branch | branches | moduleDef =>
    exact hchildren.row (hus.tight (List.cons_ne_nil _ _))
  | @functionDef word n first last equals stop us vs _ _ _ _ _ hparameters _ _ hbody =>
    have hin : word :: n :: first :: (us ++ last :: equals :: vs) <+:
        word :: n :: first :: (us ++ last :: equals :: (vs ++ [stop])) := ⟨[stop], by simp⟩
    have hown := (hus.sublist hin.sublist).tight (List.cons_ne_nil _ _)
    refine Scattered.row ?_ hown
    exact ((Scattered.parameters hparameters).append
      (Scattered.expr hbody).token.token).token.token.token
  | @moduleCall t last us _ _ _ _ hcall =>
    rw [← List.cons_append] at hus
    exact hcall.nested (hus.sublist (List.sublist_append_left (t :: us) [last]))
  | @assignment t equals last _ us vs _ _ _ _ hvalue =>
    have hin : t :: (us ++ equals :: vs) <+: t :: (us ++ equals :: (vs ++ [last])) :=
      ⟨[last], by simp⟩
    have hown := (hus.sublist hin.sublist).tight (List.cons_ne_nil _ _)
    refine Scattered.row ?_ hown
    exact (Scattered.nil.append (Scattered.expr hvalue).token).token
  | @expression last us _ he =>
    have hspan := he.between (hus.sublist (List.sublist_append_left us [last]))
    exact ⟨Nat.le_refl _, hspan.proper, Nat.le_refl _⟩

theorem Node.Written.nested {n : Node} (h : Node.Written us n) (hus : Token.Between lo us hi) :
    Span.InOrder n.span.start (n.children.map Node.span) n.span.stop := by
  cases h with
  | expr he => exact he.nested hus
  | stmt hs => exact hs.nested hus

end Nesting

/-- Spans are nested as the nodes are, and go by the order of the text. -/
theorem parse_spans (source : String) (statements : List Stmt) (h : parse source = .ok statements) :
    (statements.Pairwise fun s t => s.span.stop ≤ t.span.start) ∧
      ∀ s ∈ statements, ∀ n, Node.Inside (.stmt s) n →
        n.span.start < n.span.stop ∧ n.span.stop ≤ source.utf8ByteSize ∧
        (∀ c ∈ n.children, n.span.start ≤ c.span.start ∧ c.span.stop ≤ n.span.stop) ∧
        n.children.Pairwise fun c d => c.span.stop ≤ d.span.start := by
  obtain ⟨tokens, htokens, hwritten⟩ := written_of_parse h
  have hall := significant_between htokens
  refine ⟨?_, fun s hs n hn => ?_⟩
  · have hordered := ((Scattered.statements hwritten).row hall).pairwise
    rwa [List.map_map, List.pairwise_map] at hordered
  · obtain ⟨vs, hvs, hnode⟩ := hwritten.inside hs hn
    have hspan := hnode.between (hall.sublist hvs.sublist)
    have hnested := hnode.nested (hall.sublist hvs.sublist)
    refine ⟨hspan.proper, hspan.stop, fun c hc => ?_, List.pairwise_map.mp hnested.pairwise⟩
    have hinside := hnested.mem (List.mem_map_of_mem hc)
    exact ⟨hinside.start, hinside.stop⟩

/-- A sum in parentheses as a factor, a branch without a statement and one with a block. -/
theorem parse_spans_branch :
    ∃ statements, parse "x = (a + b) * c; if (x) ; else \x7b y = -1; \x7d" = .ok statements ∧
      statements.map Stmt.span = [⟨0, 15⟩, ⟨17, 42⟩] ∧
      ∀ s ∈ statements, ∀ n, Node.Inside (.stmt s) n → n.span.start < n.span.stop ∧
        n.span.stop ≤ 42 ∧
        (∀ c ∈ n.children, n.span.start ≤ c.span.start ∧ c.span.stop ≤ n.span.stop) ∧
        n.children.Pairwise fun c d => c.span.stop ≤ d.span.start := by
  have hspans : (parse "x = (a + b) * c; if (x) ; else \x7b y = -1; \x7d").toOption.map
      (·.map Stmt.span) = some [⟨0, 15⟩, ⟨17, 42⟩] := by decide +kernel
  cases hparse : parse "x = (a + b) * c; if (x) ; else \x7b y = -1; \x7d" with
  | error e =>
    rw [hparse] at hspans
    cases hspans
  | ok statements =>
    rw [hparse] at hspans
    exact ⟨statements, rfl, Option.some.inj hspans, (parse_spans _ statements hparse).2⟩

end SolidScript
