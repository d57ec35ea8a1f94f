import Mathlib.Logic.Relation
import SolidScript.Proofs.Derivation

namespace SolidScript

namespace Span

theorem merge?_none (a : Option Span) : merge? a none = a := by
  cases a with
  | none => rfl
  | some a => rfl

theorem merge?_assoc (a b c : Option Span) : merge? (merge? a b) c = merge? a (merge? b c) := by
  cases a with
  | none => rfl
  | some a =>
    cases b with
    | none => rfl
    | some b =>
      cases c with
      | none => rfl
      | some c => simp [merge?, merge, Nat.min_assoc, Nat.max_assoc]

end Span

namespace Derivation

/-- One change to the sequences somewhere in a tree. A tree becomes the only item of a sequence, an
item without a token comes into a sequence, or the items of an inner sequence come into the outer
one. Where there is no second branch, none is made. -/
inductive Reshapes : Derivation → Derivation → Prop
  | wrap (d : Derivation) : Reshapes d (.sequence [d])
  | absent (before after : List Derivation) :
    Reshapes (.sequence (before ++ after)) (.sequence (before ++ .absent :: after))
  | empty (before after : List Derivation) :
    Reshapes (.sequence (before ++ after)) (.sequence (before ++ .sequence [] :: after))
  | splice (before items after : List Derivation) :
    Reshapes (.sequence (before ++ .sequence items :: after))
      (.sequence (before ++ (items ++ after)))
  | item (before after : List Derivation) {d e : Derivation} (h : Reshapes d e) :
    Reshapes (.sequence (before ++ d :: after)) (.sequence (before ++ e :: after))
  | thenBranch (condition : Expr) (other : Derivation) (span : Span) {d e : Derivation}
    (h : Reshapes d e) : Reshapes (.branch condition d other span) (.branch condition e other span)
  | elseBranch (condition : Expr) (taken : Derivation) (span : Span) {d e : Derivation}
    (h : Reshapes d e) (hd : d ≠ .absent) :
    Reshapes (.branch condition taken d span) (.branch condition taken e span)
  | compound (span : Span) {d e : Derivation} (h : Reshapes d e) :
    Reshapes (.compound d span) (.compound e span)
  | moduleDef (name : String) (parameters : List Parameter) (span : Span) {d e : Derivation}
    (h : Reshapes d e) :
    Reshapes (.moduleDef name parameters d span) (.moduleDef name parameters e span)

variable {d e : Derivation}

theorem spanAll?_append (ds es : List Derivation) :
    spanAll? (ds ++ es) = Span.merge? (spanAll? ds) (spanAll? es) := by
  induction ds with
  | nil => rfl
  | cons d ds ih => rw [List.cons_append, spanAll?, spanAll?, ih, Span.merge?_assoc]

/-- Two trees that stand for the same statements, or blame the same target, and cover the same
bytes. -/
structure Alike (d e : Derivation) : Prop where
  statements : d.statements = e.statements
  span? : d.span? = e.span?

namespace Alike

variable {ds es : List Derivation} {condition : Expr} {span : Span}

theorem refl (d : Derivation) : Alike d d := ⟨rfl, rfl⟩

theorem symm (h : Alike d e) : Alike e d := ⟨h.statements.symm, h.span?.symm⟩

theorem trans {f : Derivation} (h : Alike d e) (hmore : Alike e f) : Alike d f :=
  ⟨h.statements.trans hmore.statements, h.span?.trans hmore.span?⟩

theorem singleton (d : Derivation) : Alike (.sequence [d]) d :=
  ⟨(statements_sequence [d]).trans (statementsAll_singleton d), Span.merge?_none d.span?⟩

/-- Items that make up like sequences may stand for each other in a longer one. -/
theorem within (h : Alike (.sequence ds) (.sequence es)) (before after : List Derivation) :
    Alike (.sequence (before ++ (ds ++ after))) (.sequence (before ++ (es ++ after))) := by
  obtain ⟨hstatements, hspan⟩ := h
  rw [statements_sequence, statements_sequence] at hstatements
  rw [Derivation.span?, Derivation.span?] at hspan
  constructor
  · rw [statements_sequence, statements_sequence, statementsAll_join, statementsAll_join ds,
      hstatements, ← statementsAll_join es, ← statementsAll_join]
  · rw [Derivation.span?, Derivation.span?, spanAll?_append, spanAll?_append ds, hspan,
      ← spanAll?_append es, ← spanAll?_append]

theorem thenBranch (h : Alike d e) (condition : Expr) (other : Derivation) (span : Span) :
    Alike (.branch condition d other span) (.branch condition e other span) := by
  refine ⟨?_, rfl⟩
  by_cases habsent : other = .absent
  · rw [habsent, Derivation.statements, Derivation.statements, h.statements, h.span?]
  · rw [statements_branch habsent, statements_branch habsent, h.statements, h.span?]

theorem elseBranch (h : Alike d e) (hd : d ≠ .absent) (he : e ≠ .absent) (condition : Expr)
    (taken : Derivation) (span : Span) :
    Alike (.branch condition taken d span) (.branch condition taken e span) := by
  refine ⟨?_, rfl⟩
  rw [statements_branch hd, statements_branch he, h.statements, h.span?]

theorem compound (h : Alike d e) (span : Span) : Alike (.compound d span) (.compound e span) := by
  refine ⟨?_, rfl⟩
  rw [Derivation.statements, Derivation.statements, h.statements]

theorem moduleDef (h : Alike d e) (name : String) (parameters : List Parameter) (span : Span) :
    Alike (.moduleDef name parameters d span) (.moduleDef name parameters e span) := by
  refine ⟨?_, rfl⟩
  rw [Derivation.statements, Derivation.statements, h.statements, h.span?]

end Alike

theorem Reshapes.ne_absent (h : Reshapes d e) : e ≠ .absent := by
  cases h <;> nofun

/-- One change to the sequences changes nothing else. -/
theorem Reshapes.alike (h : Reshapes d e) : Alike d e := by
  induction h with
  | wrap d => exact (Alike.singleton d).symm
  | absent before after =>
    have hhidden : Alike (.sequence []) (.sequence [.absent]) :=
      ⟨by rw [statements_sequence, statements_sequence, statementsAll_singleton, statementsAll_nil,
        statements], rfl⟩
    exact hhidden.within before after
  | empty before after => exact (Alike.singleton (.sequence [])).symm.within before after
  | splice before items after => exact (Alike.singleton (.sequence items)).within before after
  | item before after _ ih =>
    have halone := (Alike.singleton _).trans (ih.trans (Alike.singleton _).symm)
    exact halone.within before after
  | thenBranch condition other span _ ih => exact ih.thenBranch condition other span
  | elseBranch condition taken span h hd ih =>
    exact ih.elseBranch hd h.ne_absent condition taken span
  | compound span _ ih => exact ih.compound span
  | moduleDef name parameters span _ ih => exact ih.moduleDef name parameters span

/-- Nor does any number of changes, made or taken back. -/
theorem alike_of_reshaped (h : Relation.EqvGen Reshapes d e) : Alike d e := by
  induction h with
  | rel d e h => exact h.alike
  | refl d => exact Alike.refl d
  | symm d e _ ih => exact ih.symm
  | trans d e f _ _ ih ih' => exact ih.trans ih'

end Derivation

mutual

/-- A statement written back as a tree, without terminators and in as few sequences as can be. -/
def Stmt.tree : Stmt → Derivation
  | .assignment target token value span =>
    .assignment (.identifier target token) token value span
  | .moduleCall name arguments span => .moduleCall name arguments span
  | .moduleDef name parameters body span => .moduleDef name parameters body.tree span
  | .functionDef name parameters body span => .functionDef name parameters body span
  | .branch condition thenBranch none span => .branch condition thenBranch.tree .absent span
  | .branch condition thenBranch (some elseBranch) span =>
    .branch condition thenBranch.tree elseBranch.tree span
  | .compound statements span => .compound (.sequence (Stmt.trees statements)) span
  | .expression expr span => .expression expr span

/-- Statements written back as trees. -/
def Stmt.trees : List Stmt → List Derivation
  | [] => []
  | s :: ss => s.tree :: Stmt.trees ss

end

namespace Stmt

theorem tree_ne_absent (s : Stmt) : s.tree ≠ .absent := by
  cases s with
  | branch condition thenBranch elseBranch span =>
    cases elseBranch <;> rw [tree] <;> nofun
  | _ => rw [tree]; nofun

mutual

/-- A statement that is written back stands for itself. -/
theorem statements_tree : (s : Stmt) → s.tree.statements = .ok [s]
  | .assignment target token value span => by rw [tree, Derivation.statements]
  | .moduleCall name arguments span => by rw [tree, Derivation.statements]
  | .moduleDef name parameters body span => by
    rw [tree, Derivation.statements, statements_tree body]
    rfl
  | .functionDef name parameters body span => by rw [tree, Derivation.statements]
  | .branch condition thenBranch none span => by
    rw [tree, Derivation.statements, statements_tree thenBranch]
    rfl
  | .branch condition thenBranch (some elseBranch) span => by
    rw [tree, Derivation.statements_branch elseBranch.tree_ne_absent, statements_tree thenBranch,
      statements_tree elseBranch]
    rfl
  | .compound statements span => by
    rw [tree, Derivation.statements, Derivation.statements_sequence, statementsAll_trees statements]
    rfl
  | .expression expr span => by rw [tree, Derivation.statements]

theorem statementsAll_trees : (ss : List Stmt) → Derivation.statementsAll (trees ss) = .ok ss
  | [] => by rw [trees, Derivation.statementsAll_nil]
  | s :: ss => by
    rw [trees, Derivation.statementsAll_cons, statements_tree s, statementsAll_trees ss]
    rfl

end

end Stmt

/-- A tree stands for the same statements, or blames the same target, after any number of changes to
the sequences in it. Statements that are written back as a tree are what the tree stands for. -/
theorem Derivation.statements_of_reshaped :
    (∀ d e : Derivation, Relation.EqvGen Reshapes d e → e.statements = d.statements) ∧
      ∀ ss : List Stmt, (sequence (Stmt.trees ss)).statements = .ok ss := by
  constructor
  · intro d e h
    exact (alike_of_reshaped h).statements.symm
  · intro ss
    rw [statements_sequence, Stmt.statementsAll_trees]

/-- The second branch of an `if` comes into a sequence, with an absent part in front of it, and the
`if` comes into an inner sequence. -/
theorem Derivation.statements_of_reshaped_branches :
    let one : Stmt := .expression (.literal .undef default) ⟨7, 8⟩
    let other : Stmt := .expression (.literal .undef default) ⟨15, 16⟩
    let choice (d : Derivation) : Derivation :=
      .branch (.literal (.boolean true) default) one.tree d ⟨0, 17⟩
    let statement : Stmt := .branch (.literal (.boolean true) default) one (some other) ⟨0, 17⟩
    let reshaped := sequence [.sequence [choice (.sequence [.absent, other.tree])]]
    Relation.EqvGen Reshapes (.sequence [statement.tree]) reshaped ∧
      reshaped.statements = .ok [statement] := by
  intro one other choice statement reshaped
  have hwrap : Reshapes (.sequence [statement.tree])
      (.sequence [choice (.sequence [other.tree])]) :=
    .item [] [] (.elseBranch _ _ _ (.wrap other.tree) other.tree_ne_absent)
  have habsent : Reshapes (.sequence [choice (.sequence [other.tree])])
      (.sequence [choice (.sequence [.absent, other.tree])]) :=
    .item [] [] (.elseBranch _ _ _ (.absent [] [other.tree]) nofun)
  have hnest : Reshapes reshaped (.sequence [choice (.sequence [.absent, other.tree])]) :=
    .splice [] [choice (.sequence [.absent, other.tree])] []
  have hall : Relation.EqvGen Reshapes (.sequence [statement.tree]) reshaped :=
    ((Relation.EqvGen.rel _ _ hwrap).trans _ _ _ (.rel _ _ habsent)).trans _ _ _
      (.symm _ _ (.rel _ _ hnest))
  obtain ⟨hreshaped, hwritten⟩ := statements_of_reshaped
  exact ⟨hall, (hreshaped _ _ hall).trans (hwritten [statement])⟩

end SolidScript
