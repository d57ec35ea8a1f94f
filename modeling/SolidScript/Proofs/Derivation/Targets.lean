import SolidScript.Proofs.Compile
import SolidScript.Proofs.Derivation
import SolidScript.Proofs.Node

namespace SolidScript

/-- What an assignment assigns to, with the token that stands for it in errors. -/
structure Target where
  expr : Expr
  token : Token

namespace Target

/-- Only a name can be assigned to. -/
def isName (a : Target) : Bool :=
  match a.expr with
  | .identifier _ _ => true
  | _ => false

/-- The tokens are a way to write the target, and the first of them stands for it. -/
def Written (us : List Token) (a : Target) : Prop :=
  us.head? = some a.token ∧ Expr.Written 13 us a.expr

/-- The tokens are an assignment to the target, and those in `left` stand to the left of the equals
sign. -/
inductive Assigned (left : List Token) : List Token → Target → Prop
  | intro {equals last : Token} {vs : List Token} {a : Target} {value : Expr}
    (hleft : a.Written left) (hequals : equals.isPunct "=") (hvalue : Expr.Written 13 vs value)
    (hlast : last.isPunct ";") : Assigned left (left ++ equals :: (vs ++ [last])) a

end Target

namespace Derivation

mutual

/-- The targets of all assignments in a tree, with `both` to put those of two branches together. -/
def targetsBy (both : List Target → List Target → List Target) : Derivation → List Target
  | .sequence items => targetsAllBy both items
  | .assignment target token _ _ => [⟨target, token⟩]
  | .branch _ thenBranch elseBranch _ =>
    both (thenBranch.targetsBy both) (elseBranch.targetsBy both)
  | .compound body _ => body.targetsBy both
  | .moduleDef _ _ body _ => body.targetsBy both
  | _ => []

/-- The targets of all assignments in several trees. -/
def targetsAllBy (both : List Target → List Target → List Target) : List Derivation → List Target
  | [] => []
  | d :: ds => d.targetsBy both ++ targetsAllBy both ds

end

/-- The targets of all assignments in a tree, in the order of the text. -/
def targets (d : Derivation) : List Target := d.targetsBy fun taken other => taken ++ other

/-- The targets of all assignments in a tree, in the order in which they are met. -/
def met (d : Derivation) : List Target := d.targetsBy fun taken other => other ++ taken

mutual

/-- No `if` in the tree has targets that are no names in both of its branches. -/
def oneSided : Derivation → Bool
  | .sequence items => oneSidedAll items
  | .branch _ thenBranch elseBranch _ =>
    (thenBranch.targets.all Target.isName || elseBranch.targets.all Target.isName) &&
      (thenBranch.oneSided && elseBranch.oneSided)
  | .compound body _ => body.oneSided
  | .moduleDef _ _ body _ => body.oneSided
  | _ => true

/-- None of the trees has an `if` with targets that are no names in both branches. -/
def oneSidedAll : List Derivation → Bool
  | [] => true
  | d :: ds => d.oneSided && oneSidedAll ds

end

/-- The computation goes through if all targets are names, and fails at the first that is none. -/
def Checks {α : Type} (x : Except ParseError α) (as : List Target) : Prop :=
  match as.find? (!·.isName) with
  | some a => x = .error (.invalidTarget a.token)
  | none => ∃ v, x = .ok v

namespace Checks

variable {α β : Type} {x : Except ParseError α} {f : α → Except ParseError β} {as bs : List Target}

theorem pure {v : α} : Checks (.ok v) [] := ⟨v, rfl⟩

theorem bind (hx : Checks x as) (hf : ∀ v, Checks (f v) bs) : Checks (x >>= f) (as ++ bs) := by
  unfold Checks at hx ⊢
  rw [List.find?_append]
  cases hfound : as.find? (!·.isName) with
  | some a =>
    rw [hfound] at hx
    obtain rfl := hx
    rfl
  | none =>
    rw [hfound] at hx
    obtain ⟨v, rfl⟩ := hx
    exact hf v

theorem map {g : α → β} (hx : Checks x as) : Checks (x >>= fun v => .ok (g v)) as := by
  have hall := hx.bind (f := fun v => Except.ok (g v)) fun v => pure
  rwa [List.append_nil] at hall

end Checks

mutual

/-- Statements are made by checking the targets as they are met. -/
theorem checks_statements : (d : Derivation) → Checks d.statements d.met
  | .sequence items => by
    rw [statements, met, targetsBy]
    exact checks_statementsAll items
  | .terminator _ => by rw [statements]; exact .pure
  | .absent => by rw [statements]; exact .pure
  | .expression _ _ => by rw [statements]; exact .pure
  | .assignment target token value span => by
    rw [met, targetsBy]
    cases target with
    | identifier name t => rw [statements]; exact ⟨_, rfl⟩
    | _ => exact statements_of_not_identifier (by simp) token value span
  | .moduleCall _ _ _ => by rw [statements]; exact .pure
  | .branch condition thenBranch elseBranch span => by
    have hthen := checks_statements thenBranch
    have helse := checks_statements elseBranch
    rw [met, targetsBy]
    by_cases habsent : elseBranch = .absent
    · subst habsent
      rw [statements]
      exact hthen.map
    · rw [statements_branch habsent]
      exact helse.bind fun other => hthen.map
  | .compound body _ => by
    rw [statements, met, targetsBy]
    exact (checks_statements body).map
  | .moduleDef _ _ body _ => by
    rw [statements, met, targetsBy]
    exact (checks_statements body).map
  | .functionDef _ _ _ _ => by rw [statements]; exact .pure

theorem checks_statementsAll : (ds : List Derivation) →
    Checks (statementsAll ds) (targetsAllBy (fun taken other => other ++ taken) ds)
  | [] => by rw [statementsAll]; exact .pure
  | d :: ds => by
    rw [statementsAll, targetsAllBy]
    exact (checks_statements d).bind fun first => (checks_statementsAll ds).map

end

variable {a : Target} {d : Derivation}

mutual

/-- However the targets of two branches are put together, none is lost or added. -/
theorem mem_targetsBy {both : List Target → List Target → List Target}
    (hboth : ∀ as bs, a ∈ both as bs ↔ a ∈ as ∨ a ∈ bs) :
    (d : Derivation) → (a ∈ d.targetsBy both ↔ a ∈ d.targets)
  | .sequence items => by
    rw [targets, targetsBy, targetsBy]
    exact mem_targetsAllBy hboth items
  | .branch _ thenBranch elseBranch _ => by
    rw [targets, targetsBy, targetsBy, hboth, List.mem_append, mem_targetsBy hboth thenBranch,
      mem_targetsBy hboth elseBranch]
    rfl
  | .compound body _ => by
    rw [targets, targetsBy, targetsBy]
    exact mem_targetsBy hboth body
  | .moduleDef _ _ body _ => by
    rw [targets, targetsBy, targetsBy]
    exact mem_targetsBy hboth body
  | .assignment _ _ _ _ => by rw [targets, targetsBy, targetsBy]
  | .terminator _ | .absent | .expression _ _ | .moduleCall _ _ _ | .functionDef _ _ _ _ => by
    rw [targets, targetsBy, targetsBy] <;> exact nofun

theorem mem_targetsAllBy {both : List Target → List Target → List Target}
    (hboth : ∀ as bs, a ∈ both as bs ↔ a ∈ as ∨ a ∈ bs) :
    (ds : List Derivation) → (a ∈ targetsAllBy both ds ↔
      a ∈ targetsAllBy (fun taken other => taken ++ other) ds)
  | [] => by rw [targetsAllBy, targetsAllBy]
  | d :: ds => by
    rw [targetsAllBy, targetsAllBy, List.mem_append, List.mem_append, mem_targetsBy hboth d,
      mem_targetsAllBy hboth ds]
    rfl

end

theorem mem_met : a ∈ d.met ↔ a ∈ d.targets :=
  mem_targetsBy (fun _ _ => List.mem_append.trans or_comm) d

theorem find?_eq_none_of_all {as : List Target} (h : as.all Target.isName) :
    as.find? (!·.isName) = none := by
  rw [List.find?_eq_none]
  intro a ha
  simpa using List.all_eq_true.mp h a ha

mutual

/-- Where no two branches both have something to blame, what is blamed is the first in the text. -/
theorem find?_met : (d : Derivation) → d.oneSided →
    d.met.find? (!·.isName) = d.targets.find? (!·.isName)
  | .sequence items, h => by
    rw [oneSided] at h
    rw [met, targets, targetsBy, targetsBy]
    exact find?_metAll items h
  | .branch _ thenBranch elseBranch _, h => by
    simp only [oneSided, Bool.and_eq_true, Bool.or_eq_true] at h
    obtain ⟨hone, hthen, helse⟩ := h
    rw [met, targets, targetsBy, targetsBy, List.find?_append, List.find?_append]
    change (elseBranch.met.find? _).or (thenBranch.met.find? _) =
      (thenBranch.targets.find? _).or (elseBranch.targets.find? _)
    rw [find?_met _ hthen, find?_met _ helse]
    obtain hnames | hnames := hone
    · rw [find?_eq_none_of_all hnames, Option.or_none, Option.none_or]
    · rw [find?_eq_none_of_all hnames, Option.or_none, Option.none_or]
  | .compound body _, h => by
    rw [oneSided] at h
    rw [met, targets, targetsBy, targetsBy]
    exact find?_met body h
  | .moduleDef _ _ body _, h => by
    rw [oneSided] at h
    rw [met, targets, targetsBy, targetsBy]
    exact find?_met body h
  | .assignment _ _ _ _, _ => by rw [met, targets, targetsBy, targetsBy]
  | .terminator _, _ | .absent, _ | .expression _ _, _ | .moduleCall _ _ _, _
  | .functionDef _ _ _ _, _ => by
    rw [met, targets, targetsBy, targetsBy] <;> exact nofun

theorem find?_metAll : (ds : List Derivation) → oneSidedAll ds →
    (targetsAllBy (fun taken other => other ++ taken) ds).find? (!·.isName) =
      (targetsAllBy (fun taken other => taken ++ other) ds).find? (!·.isName)
  | [], _ => by rw [targetsAllBy, targetsAllBy]
  | d :: ds, h => by
    simp only [oneSidedAll, Bool.and_eq_true] at h
    rw [targetsAllBy, targetsAllBy, List.find?_append, List.find?_append]
    change (d.met.find? _).or _ = (d.targets.find? _).or _
    rw [find?_met d h.1, find?_metAll ds h.2]

end

/-- What is blamed is met first. -/
theorem find?_of_statements {e : ParseError} (h : d.statements = .error e) :
    ∃ a, d.met.find? (!·.isName) = some a ∧ e = .invalidTarget a.token := by
  have hchecks := checks_statements d
  unfold Checks at hchecks
  split at hchecks
  · next a hfound =>
    rw [hchecks] at h
    exact ⟨a, hfound, (Except.error.inj h).symm⟩
  · obtain ⟨ss, hok⟩ := hchecks
    rw [hok] at h
    cases h

theorem statements_fails_iff :
    (∃ e, d.statements = .error e) ↔ ∃ a ∈ d.targets, ¬a.isName := by
  constructor
  · rintro ⟨e, he⟩
    obtain ⟨a, hfound, _⟩ := find?_of_statements he
    have hbad : ¬a.isName := by simpa using List.find?_some hfound
    exact ⟨a, mem_met.mp (List.mem_of_find?_eq_some hfound), hbad⟩
  · rintro ⟨a, ha, hbad⟩
    have hsome : (d.met.find? (!·.isName)).isSome :=
      List.find?_isSome.mpr ⟨a, mem_met.mpr ha, by simpa using hbad⟩
    obtain ⟨b, hfound⟩ := Option.isSome_iff_exists.mp hsome
    have hchecks := checks_statements d
    unfold Checks at hchecks
    rw [hfound] at hchecks
    exact ⟨_, hchecks⟩

end Derivation

mutual

/-- The assignments in a tree are written with tokens of the tree, one behind the other. -/
theorem Derivation.Written.assigned {us : List Token} {d : Derivation} :
    Derivation.Written us d → Scattered (fun us a => ∃ left, Target.Assigned left us a) us d.targets
  | .empty _ => .nil
  | .compound _ _ hitems => hitems.assigned.then_token.token
  | .branch _ _ _ _ hthen => by
    change Scattered _ _ (_ ++ [])
    rw [List.append_nil]
    exact (Scattered.nil.append hthen.assigned.token).token.token
  | .branches _ _ _ _ hthen _ helse =>
    (Scattered.nil.append (hthen.assigned.append helse.assigned.token).token).token.token
  | .moduleDef _ _ _ _ _ hbody => (Scattered.nil.append hbody.assigned.token).token.token.token
  | .functionDef _ _ _ _ _ _ _ _ => .nil
  | .moduleCall _ _ _ => .nil
  | @Derivation.Written.assignment t _ _ us _ target _ htarget hequals hvalue hlast => by
    have hwritten : Target.Written (t :: us) ⟨target, t⟩ := ⟨rfl, htarget⟩
    exact .one ⟨t :: us, .intro hwritten hequals hvalue hlast⟩
  | .expression _ _ _ => .nil

theorem InTurn.assigned {us : List Token} {ds : List Derivation} :
    InTurn Derivation.Written us ds →
      Scattered (fun us a => ∃ left, Target.Assigned left us a) us (Derivation.sequence ds).targets
  | .nil => .nil
  | .cons item others => item.assigned.append others.assigned

end

/-- The targets in a tree are written with tokens of the tree, one behind the other. -/
theorem InTurn.targets {us : List Token} {ds : List Derivation}
    (h : InTurn Derivation.Written us ds) :
    Scattered Target.Written us (Derivation.sequence ds).targets := by
  refine h.assigned.within fun us a hassigned => ?_
  obtain ⟨left, ⟨hleft, _, _, _⟩⟩ := hassigned
  exact (Scattered.one hleft).append .nil

/-- The targets in a tree have the order of the text. -/
theorem Scattered.offsets {us : List Token} {as : List Target} {lo hi : Nat}
    (h : Scattered Target.Written us as) (hus : Token.Between lo us hi) :
    as.Pairwise fun a b => a.token.offset < b.token.offset := by
  have hrow : Span.InOrder lo (as.map (·.token.span)) hi := by
    refine h.inOrder (fun ha hvs => ?_) hus
    exact Span.InOrder.mem hvs (List.mem_map_of_mem (List.mem_of_head? ha.1))
  refine (List.pairwise_map.mp hrow.pairwise).imp_of_mem fun ha _ hbefore => ?_
  exact Nat.lt_of_lt_of_le (hrow.mem (List.mem_map_of_mem ha)).proper hbefore

/-- The first target that is no name has the smallest offset of all of them. -/
theorem offset_le_of_find? {as : List Target} {a b : Target}
    (hoffsets : as.Pairwise fun a b => a.token.offset < b.token.offset)
    (ha : as.find? (!·.isName) = some a) (hb : b ∈ as) (hother : ¬b.isName) :
    a.token.offset ≤ b.token.offset := by
  obtain ⟨_, before, after, rfl, hnames⟩ := List.find?_eq_some_iff_append.mp ha
  obtain hb | hb := List.mem_append.mp hb
  · exact absurd (hnames b hb) (by simpa using hother)
  · obtain rfl | hb := List.mem_cons.mp hb
    · exact Nat.le_refl _
    · have hrest := (List.pairwise_append.mp hoffsets).2.1
      exact Nat.le_of_lt ((List.pairwise_cons.mp hrest).1 b hb)

section Sources

variable {source : String} {d : Derivation}

/-- The tree of a text is written with its significant tokens. -/
theorem written_of_derive (h : derive source = .ok d) :
    ∃ tokens ds, tokenize source = .ok tokens ∧ d = .sequence ds ∧
      InTurn Derivation.Written (Token.significant tokens) ds := by
  cases htokens : tokenize source with
  | error e =>
    rw [derive, htokens] at h
    cases h
  | ok tokens =>
    rw [derive, htokens] at h
    change (parseTokens (Token.significant tokens)).mapError CompileError.parse = .ok d at h
    cases hread : parseTokens (Token.significant tokens) with
    | error e =>
      rw [hread] at h
      cases h
    | ok found =>
      rw [hread] at h
      obtain rfl := Except.ok.inj h
      obtain ⟨read, hprogram, rfl⟩ := Grammar.program_of_parseTokens hread
      exact ⟨tokens, _, rfl, rfl, Grammar.program_written hprogram⟩

theorem parse_eq_error_iff {e : CompileError} (h : derive source = .ok d) :
    parse source = .error e ↔ ∃ f, d.statements = .error f ∧ e = .parse f := by
  have hparse : parse source = d.statements.mapError CompileError.parse := by
    rw [parse, h]
    rfl
  rw [hparse]
  cases d.statements with
  | ok ss =>
    constructor
    · intro he
      cases he
    · rintro ⟨_, hf, _⟩
      cases hf
  | error f =>
    constructor
    · intro he
      exact ⟨f, rfl, (Except.error.inj he).symm⟩
    · rintro ⟨_, hf, rfl⟩
      rw [Except.error.inj hf]
      rfl

end Sources

/-- A text that has a tree has statements if and only if all targets of assignments are names, at
any depth. Otherwise one of the others is blamed, by its first token. It is the first of them in the
text, if no two branches of one `if` both have something to blame. -/
theorem derive_invalidTarget (source : String) (d : Derivation) (h : derive source = .ok d) :
    (∀ a ∈ d.targets, ∃ tokens us, tokenize source = .ok tokens ∧
        us <:+: Token.significant tokens ∧ a.Written us) ∧
      (d.targets.Pairwise fun a b => a.token.offset < b.token.offset) ∧
      ((∃ e, parse source = .error e) ↔ ∃ a ∈ d.targets, ¬a.isName) ∧
      ∀ e, parse source = .error e → ∃ a ∈ d.targets, ¬a.isName ∧
        e = .parse (.invalidTarget a.token) ∧
        (d.oneSided → ∀ b ∈ d.targets, ¬b.isName → a.token.offset ≤ b.token.offset) := by
  obtain ⟨tokens, ds, htokens, rfl, hwritten⟩ := written_of_derive h
  have hoffsets := hwritten.targets.offsets (significant_between htokens)
  refine ⟨fun a ha => ?_, hoffsets, ?_, fun e he => ?_⟩
  · obtain ⟨us, hus, hown⟩ := hwritten.targets.mem ha
    exact ⟨tokens, us, htokens, hus, hown⟩
  · rw [← Derivation.statements_fails_iff]
    constructor
    · rintro ⟨e, he⟩
      obtain ⟨f, hf, _⟩ := (parse_eq_error_iff h).mp he
      exact ⟨f, hf⟩
    · rintro ⟨f, hf⟩
      exact ⟨.parse f, (parse_eq_error_iff h).mpr ⟨f, hf, rfl⟩⟩
  · obtain ⟨f, hf, rfl⟩ := (parse_eq_error_iff h).mp he
    obtain ⟨a, hfound, rfl⟩ := Derivation.find?_of_statements hf
    have hbad : ¬a.isName := by simpa using List.find?_some hfound
    have hmem := Derivation.mem_met.mp (List.mem_of_find?_eq_some hfound)
    refine ⟨a, hmem, hbad, rfl, fun hone b hb hother => ?_⟩
    rw [Derivation.find?_met _ hone] at hfound
    exact offset_le_of_find? hoffsets hfound hb hother

/-- A name in one branch, a number in the other and a vector behind: the number is blamed. -/
theorem derive_invalidTarget_number :
    ∃ d e a, derive "if (c) x = 1; else \x7b 2 = 3; \x7d [a] = 4;" = .ok d ∧ d.oneSided ∧
      d.targets.map (·.token.offset) = [7, 21, 30] ∧
      parse "if (c) x = 1; else \x7b 2 = 3; \x7d [a] = 4;" = .error e ∧ a ∈ d.targets ∧ ¬a.isName ∧
      e = .parse (.invalidTarget a.token) ∧
      ∀ b ∈ d.targets, ¬b.isName → a.token.offset ≤ b.token.offset := by
  have hshape : (derive "if (c) x = 1; else \x7b 2 = 3; \x7d [a] = 4;").toOption.map
      (fun d => (d.oneSided, d.targets.map (·.token.offset), d.targets.any (!·.isName))) =
        some (true, [7, 21, 30], true) := by decide +kernel
  cases hderive : derive "if (c) x = 1; else \x7b 2 = 3; \x7d [a] = 4;" with
  | error e =>
    rw [hderive] at hshape
    cases hshape
  | ok d =>
    rw [hderive] at hshape
    obtain ⟨hone, hoffsets, hany⟩ : d.oneSided = true ∧
        d.targets.map (·.token.offset) = [7, 21, 30] ∧ d.targets.any (!·.isName) = true := by
      simpa [Except.toOption] using hshape
    obtain ⟨_, _, hfails, hblamed⟩ := derive_invalidTarget _ d hderive
    obtain ⟨e, he⟩ := hfails.mpr (by simpa using hany)
    obtain ⟨a, ha, hbad, hparse, hfirst⟩ := hblamed e he
    exact ⟨d, e, a, rfl, hone, hoffsets, he, ha, hbad, hparse, hfirst hone⟩

/-- Of two branches that both have something to blame the second one is looked at first, so the
token that is blamed is not the first in the text. -/
theorem invalidTarget_of_branches :
    ∃ d t, derive "if (c) 1 = 2; else 3 = 4;" = .ok d ∧
      d.targets.map (fun a => (a.isName, a.token.offset)) = [(false, 7), (false, 19)] ∧
      parse "if (c) 1 = 2; else 3 = 4;" = .error (.parse (.invalidTarget t)) ∧ t.offset = 19 := by
  have hshape : (derive "if (c) 1 = 2; else 3 = 4;").toOption.map
      (fun d => d.targets.map fun a => (a.isName, a.token.offset)) =
        some [(false, 7), (false, 19)] := by decide +kernel
  have hblamed : (match parse "if (c) 1 = 2; else 3 = 4;" with
      | .error (.parse (.invalidTarget t)) => some t.offset
      | _ => none) = some 19 := by decide +kernel
  cases hderive : derive "if (c) 1 = 2; else 3 = 4;" with
  | error e =>
    rw [hderive] at hshape
    cases hshape
  | ok d =>
    rw [hderive] at hshape
    split at hblamed
    · next t hparse => exact ⟨d, t, rfl, Option.some.inj hshape, hparse, Option.some.inj hblamed⟩
    · cases hblamed

end SolidScript
