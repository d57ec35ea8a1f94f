import SolidScript.Proofs.Stmt.Written
import SolidScript.Proofs.Token.Order

namespace SolidScript

def Argument.value : Argument → Expr
  | .positional value => value
  | .named _ value => value

/-- A part of a program. -/
inductive Node where
  | expr (e : Expr)
  | stmt (s : Stmt)

namespace Node

/-- The bytes that a node covers. -/
def span : Node → Span
  | .expr e => e.span
  | .stmt s => s.span

/-- The default of a parameter, if it has one. -/
def ofParameter (p : Parameter) : List Node := p.default?.toList.map .expr

/-- What stands directly inside a node, in the order of the text. -/
def children : Node → List Node
  | .expr (.literal _ _) => []
  | .expr (.identifier _ _) => []
  | .expr (.vector elements _) => elements.map .expr
  | .expr (.range a b _) => [.expr a, .expr b]
  | .expr (.steppedRange a b c _) => [.expr a, .expr b, .expr c]
  | .expr (.unary _ e _) => [.expr e]
  | .expr (.binary left _ right _) => [.expr left, .expr right]
  | .expr (.conditional condition a b _) => [.expr condition, .expr a, .expr b]
  | .expr (.index object i _) => [.expr object, .expr i]
  | .expr (.call _ arguments _) => arguments.map (.expr ·.value)
  | .stmt (.assignment _ _ value _) => [.expr value]
  | .stmt (.moduleCall _ arguments _) => arguments.map (.expr ·.value)
  | .stmt (.moduleDef _ parameters body _) => parameters.flatMap ofParameter ++ [.stmt body]
  | .stmt (.functionDef _ parameters body _) => parameters.flatMap ofParameter ++ [.expr body]
  | .stmt (.branch condition thenBranch elseBranch _) =>
    .expr condition :: .stmt thenBranch :: elseBranch.toList.map .stmt
  | .stmt (.compound statements _) => statements.map .stmt
  | .stmt (.expression e _) => [.expr e]

/-- The node is the root or stands inside it, at any depth. -/
inductive Inside (root : Node) : Node → Prop
  | self : Inside root root
  | child {n c : Node} (hn : Inside root n) (hc : c ∈ n.children) : Inside root c

/-- The tokens are a way to write the node. -/
inductive Written : List Token → Node → Prop
  | expr {limit : Nat} {us : List Token} {e : Expr} (he : Expr.Written limit us e) :
    Written us (.expr e)
  | stmt {us : List Token} {s : Stmt} (hs : Stmt.Written us s) : Written us (.stmt s)

end Node

section Between

/-- Between whichever offsets tokens stand, what is scattered among them stands there too. -/
theorem Scattered.inOrder {α : Type} {P : List Token → α → Prop} {f : α → Span}
    (hitem : ∀ {us v lo hi}, P us v → Token.Between lo us hi → (f v).Between lo hi)
    {us : List Token} {vs : List α} {lo hi : Nat} (h : Scattered P us vs)
    (hus : Token.Between lo us hi) : Span.InOrder lo (vs.map f) hi := by
  induction h generalizing lo with
  | nil => exact hus.le
  | cons before item _ ih =>
    obtain ⟨mid, hbefore, hmore⟩ := Token.between_append.mp hus
    obtain ⟨mid', hfirst, hrest⟩ := Token.between_append.mp hmore
    have hspan := hitem item hfirst
    exact ⟨Nat.le_trans hbefore.le hspan.start, hspan.proper,
      (ih hrest).mono hspan.stop (Nat.le_refl hi)⟩

/-- An expression covers bytes of its own tokens only. -/
theorem Expr.Written.between {limit lo hi : Nat} {us : List Token} {e : Expr}
    (h : Expr.Written limit us e) (hus : Token.Between lo us hi) : e.span.Between lo hi := by
  induction h using Expr.Written.induct generalizing lo hi with
  | literal | identifier => exact ⟨hus.1, hus.2.1, hus.2.2⟩
  | vector | range | steppedRange | call => exact hus.covers rfl (by simp [List.getLast?_cons])
  | parenthesised _ _ _ ih =>
    obtain ⟨hstart, hproper, hmore⟩ := Token.between_cons.mp hus
    obtain ⟨mid, hinner, hlast⟩ := Token.between_append.mp hmore
    exact (ih hinner).mono (by omega) hlast.le
  | unary _ _ _ ih =>
    obtain ⟨hstart, hproper, hoperand⟩ := Token.between_cons.mp hus
    have hspan := ih hoperand
    exact ⟨hstart, Nat.lt_trans hproper hspan.lt_stop, hspan.stop⟩
  | binary _ _ _ _ ihleft ihright =>
    obtain ⟨mid, hus, hmore⟩ := Token.between_append.mp hus
    obtain ⟨hoperator, hproper, hvs⟩ := Token.between_cons.mp hmore
    have ha := ihleft hus
    have hb := (ihright hvs).mono (show mid ≤ _ by omega) (Nat.le_refl hi)
    rw [Expr.span, ha.merge_eq hb]
    exact ha.join hb
  | conditional _ _ _ _ _ _ ihcondition _ ihb =>
    obtain ⟨mid, hus, hmore⟩ := Token.between_append.mp hus
    obtain ⟨hquestion, hproper, hlater⟩ := Token.between_cons.mp hmore
    obtain ⟨mid', hvs, hcolon, hproper', hws⟩ := Token.between_append.mp hlater
    have hle := hvs.le
    have hfirst := ihcondition hus
    have hlast := (ihb hws).mono (show mid ≤ _ by omega) (Nat.le_refl hi)
    rw [Expr.span, hfirst.merge_eq hlast]
    exact hfirst.join hlast
  | @index _ _ _ _ _ first last _ _ _ _ _ ihobject =>
    obtain ⟨mid, hus, hmore⟩ := Token.between_append.mp hus
    have hrest : Span.Between mid ⟨first.offset, last.stop⟩ hi :=
      hmore.covers rfl (by simp [List.getLast?_cons])
    exact (ihobject hus).join hrest

/-- From one expression to another one behind it. -/
theorem Expr.Written.merge_span {j k lo mid mid' hi : Nat} {us vs : List Token} {a b : Expr}
    (ha : Expr.Written j us a) (hb : Expr.Written k vs b) (hus : Token.Between lo us mid)
    (hmid : mid ≤ mid') (hvs : Token.Between mid' vs hi) :
    a.span.merge b.span = ⟨a.span.start, b.span.stop⟩ :=
  (ha.between hus).merge_eq ((hb.between hvs).mono hmid (Nat.le_refl hi))

/-- A statement covers bytes of its own tokens only. -/
theorem Stmt.Written.between {us : List Token} {s : Stmt} {lo hi : Nat} (h : Stmt.Written us s)
    (hus : Token.Between lo us hi) : s.span.Between lo hi := by
  cases h with
  | empty => exact ⟨hus.1, hus.2.1, hus.2.2⟩
  | compound | branch | branches | moduleDef => exact hus.spanOf (List.cons_ne_nil _ _)
  | @functionDef word n first last equals stop us vs =>
    have hin : word :: n :: first :: (us ++ last :: equals :: vs) <+:
        word :: n :: first :: (us ++ last :: equals :: (vs ++ [stop])) := ⟨[stop], by simp⟩
    exact (hus.sublist hin.sublist).spanOf (List.cons_ne_nil _ _)
  | @moduleCall t last us _ _ _ _ hcall =>
    rw [← List.cons_append] at hus
    exact hcall.between (hus.sublist (List.sublist_append_left (t :: us) [last]))
  | @assignment t equals last _ us vs =>
    have hin : t :: (us ++ equals :: vs) <+: t :: (us ++ equals :: (vs ++ [last])) :=
      ⟨[last], by simp⟩
    exact (hus.sublist hin.sublist).spanOf (List.cons_ne_nil _ _)
  | expression he => exact he.between (hus.sublist (List.sublist_append_left _ _))

theorem Node.Written.between {us : List Token} {n : Node} {lo hi : Nat} (h : Node.Written us n)
    (hus : Token.Between lo us hi) : n.span.Between lo hi := by
  cases h with
  | expr he => exact he.between hus
  | stmt hs => exact hs.between hus

/-- Nodes that are scattered among tokens stand in order. -/
theorem Scattered.row {us : List Token} {ns : List Node} {lo hi : Nat}
    (h : Scattered Node.Written us ns) (hus : Token.Between lo us hi) :
    Span.InOrder lo (ns.map Node.span) hi :=
  h.inOrder (fun hn hvs => hn.between hvs) hus

end Between

section Children

theorem Scattered.expr {limit : Nat} {us : List Token} {e : Expr} (he : Expr.Written limit us e) :
    Scattered Node.Written us [.expr e] :=
  .one (.expr he)

theorem Scattered.elements {us : List Token} {es : List Expr}
    (h : Separated (Expr.Written 13) us es) : Scattered Node.Written us (es.map .expr) := by
  rw [List.map_eq_flatMap]
  exact .separated .expr h

theorem Scattered.arguments {us : List Token} {as : List Argument}
    (h : Separated Argument.Written us as) :
    Scattered Node.Written us (as.map (.expr ·.value)) := by
  rw [List.map_eq_flatMap]
  refine .separated (fun hitem => ?_) h
  cases hitem with
  | positional hvalue => exact .expr hvalue
  | named _ _ hvalue => exact (Scattered.expr hvalue).token.token

theorem Scattered.parameters {us : List Token} {ps : List Parameter}
    (h : Separated Parameter.Written us ps) :
    Scattered Node.Written us (ps.flatMap Node.ofParameter) := by
  refine .separated (fun hitem => ?_) h
  cases hitem with
  | plain => exact .nil
  | optional _ _ hvalue => exact (Scattered.expr hvalue).token.token

theorem Scattered.statements {us : List Token} {ss : List Stmt} :
    Stmt.WrittenAll us ss → Scattered Node.Written us (ss.map .stmt)
  | .nil => .nil
  | .skip _ others => (Scattered.statements others).token
  | .cons item others => (Scattered.one (.stmt item)).append (Scattered.statements others)

/-- What stands directly inside an expression is written with tokens of the expression. -/
theorem Expr.Written.children {limit : Nat} {us : List Token} {e : Expr}
    (h : Expr.Written limit us e) : Scattered Node.Written us (Node.expr e).children := by
  induction h using Expr.Written.induct with
  | literal | identifier => exact .nil
  | vector _ _ helements => exact (Scattered.elements helements).then_token.token
  | range _ _ _ ha hb =>
    exact ((Scattered.expr ha).append (Scattered.expr hb).then_token.token).token
  | steppedRange _ _ _ _ ha hb hc =>
    exact ((Scattered.expr ha).append
      ((Scattered.expr hb).append (Scattered.expr hc).then_token.token).token).token
  | parenthesised _ _ _ ih => exact ih.then_token.token
  | unary _ _ he => exact (Scattered.expr he).token
  | binary _ hleft _ hright => exact (Scattered.expr hleft).append (Scattered.expr hright).token
  | conditional _ hcondition _ ha _ hb =>
    exact (Scattered.expr hcondition).append
      ((Scattered.expr ha).append (Scattered.expr hb).token).token
  | index _ hobject _ hi _ =>
    exact (Scattered.expr hobject).append (Scattered.expr hi).then_token.token
  | call _ _ _ harguments => exact (Scattered.arguments harguments).then_token.token.token

/-- What stands directly inside a statement is written with tokens of the statement. -/
theorem Stmt.Written.children {us : List Token} {s : Stmt} (h : Stmt.Written us s) :
    Scattered Node.Written us (Node.stmt s).children := by
  cases h with
  | empty => exact .nil
  | compound _ _ hitems => exact (Scattered.statements hitems).then_token.token
  | branch _ _ hcondition _ hthen =>
    exact ((Scattered.expr hcondition).append (Scattered.one (.stmt hthen)).token).token.token
  | branches _ _ hcondition _ hthen _ helse =>
    exact ((Scattered.expr hcondition).append ((Scattered.one (.stmt hthen)).append
      (Scattered.one (.stmt helse)).token).token).token.token
  | moduleDef _ _ _ hparameters _ hbody =>
    exact ((Scattered.parameters hparameters).append
      (Scattered.one (.stmt hbody)).token).token.token.token
  | functionDef _ _ _ hparameters _ _ hbody =>
    exact ((Scattered.parameters hparameters).append
      (Scattered.expr hbody).then_token.token.token).token.token.token
  | moduleCall _ hcall => exact hcall.children.then_token
  | assignment _ _ hvalue =>
    exact (Scattered.nil.append (Scattered.expr hvalue).then_token.token).token
  | expression he => exact (Scattered.expr he).then_token

theorem Node.Written.children {us : List Token} {n : Node} (h : Node.Written us n) :
    Scattered Node.Written us n.children := by
  cases h with
  | expr he => exact he.children
  | stmt hs => exact hs.children

/-- Whatever stands inside a node is written with tokens of the node that stand together. -/
theorem Node.Written.inside {us : List Token} {n root : Node} (h : Node.Written us root)
    (hn : Node.Inside root n) : ∃ vs, vs <:+: us ∧ Node.Written vs n := by
  induction hn with
  | self => exact ⟨us, List.infix_refl us, h⟩
  | child _ hc ih =>
    obtain ⟨vs, hvs, hn⟩ := ih
    obtain ⟨ws, hws, hwritten⟩ := hn.children.mem hc
    exact ⟨ws, hws.trans hvs, hwritten⟩

end Children

end SolidScript
