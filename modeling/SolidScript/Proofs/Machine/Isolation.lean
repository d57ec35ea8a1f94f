import SolidScript.Proofs.Machine.Session

namespace SolidScript

/-- The scope that is current under a pin. -/
def Machine.under (m : Machine) (pin : Option ScopeId) : ScopeId :=
  (pin.or m.stack.head?).getD m.root

/-- A statement that runs in the scope of another one: the statement itself, or one that stands in
its braces, but none in the branches of an `if`. -/
inductive Stmt.Within (t : Stmt) : Stmt → Prop
  | self : Within t t
  | compound {s : Stmt} {ss : List Stmt} (span : Span) (hs : s ∈ ss) (ht : Within t s) :
    Within t (.compound ss span)

theorem Stmt.Within.trans {s t u : Stmt} (hst : s.Within t) (htu : t.Within u) : s.Within u := by
  induction htu with
  | self => exact hst
  | compound span hs _ ih => exact .compound span hs ih

namespace Runner

variable {r next : Runner} {scope : ScopeId}

/-- The scope is current, or will be when open branches are left. -/
def Opens (r : Runner) (scope : ScopeId) : Prop :=
  scope = r.machine.current ∨ ∃ pin, .restore pin ∈ r.work ∧ scope = r.machine.under pin

/-- No scope is opened where the machine stays in its scope and has no new pins to put back. -/
theorem Opens.mono (hscope : next.Opens scope) (hcurrent : next.machine.current = r.machine.current)
    (hunder : next.machine.under = r.machine.under)
    (hwork : ∀ pin, .restore pin ∈ next.work → .restore pin ∈ r.work) : r.Opens scope := by
  obtain rfl | ⟨pin, hmem, rfl⟩ := hscope
  · exact .inl hcurrent
  · exact .inr ⟨pin, hwork pin hmem, congrFun hunder pin⟩

/-- A turn opens no scope but a new one. -/
theorem Turns.opens (h : r.Turns next) (hscope : next.Opens scope) :
    r.Opens scope ∨
      scope = r.machine.scopes.size ∧ r.machine.scopes.size < next.machine.scopes.size := by
  cases h.moves with
  | leave m pin work =>
    obtain rfl | ⟨other, hmem, rfl⟩ := hscope
    · exact .inl (.inr ⟨pin, List.mem_cons_self, rfl⟩)
    · exact .inl (.inr ⟨other, List.mem_cons_of_mem _ hmem, rfl⟩)
  | unfold m ss span work =>
    refine .inl (hscope.mono rfl rfl fun pin hmem => List.mem_cons_of_mem _ ?_)
    simpa using hmem
  | enter m log condition a b span body work hbody =>
    obtain rfl | ⟨other, hmem, rfl⟩ := hscope
    · exact .inr ⟨rfl, by simp⟩
    · obtain rfl | hwork : other = m.pin ∨ .restore other ∈ work := by simpa using hmem
      · exact .inl (.inl rfl)
      · exact .inl (.inr ⟨other, List.mem_cons_of_mem _ hwork, rfl⟩)
  | pass => exact .inl (hscope.mono rfl rfl fun _ => List.mem_cons_of_mem _)
  | bind => exact .inl (hscope.mono rfl rfl fun _ => List.mem_cons_of_mem _)
  | defer => exact .inl (hscope.mono rfl rfl fun _ => List.mem_cons_of_mem _)
  | abort m log s work pin hpin hunwind =>
    obtain rfl | ⟨other, hmem, _⟩ := hscope
    · obtain rfl | hmem := hpin
      · exact .inl (.inl rfl)
      · exact .inl (.inr ⟨pin, List.mem_cons_of_mem _ hmem, rfl⟩)
    · cases hmem

/-- A turn that changes a context is one of a declaration, and the context is current. -/
theorem Turns.writes (h : r.Turns next) (hscope : scope < r.machine.scopes.size)
    (hchange : next.machine.scopes.context? scope ≠ r.machine.scopes.context? scope) :
    scope = r.machine.current ∧ ∃ s work, r.work = .statement s :: work ∧ s.declares?.isSome := by
  cases h.moves with
  | enter =>
    rw [Scopes.context?_create, if_neg (Nat.ne_of_lt hscope)] at hchange
    exact absurd rfl hchange
  | bind m log s work f hs hf =>
    rw [Scopes.context?_modify] at hchange
    split at hchange
    · next hcurrent => exact ⟨hcurrent, s, work, rfl, hs⟩
    · exact absurd rfl hchange
  | _ => exact absurd rfl hchange

/-- The scope has a context, and none of the work is done in it. -/
structure Shut (r : Runner) (scope : ScopeId) : Prop where
  lt : scope < r.machine.scopes.size
  closed : ¬r.Opens scope

/-- What is shut stays shut. -/
theorem Shut.turns (hshut : r.Shut scope) (hturn : r.Turns next) : next.Shut scope where
  lt := Nat.lt_of_lt_of_le hshut.lt hturn.size_le
  closed hopens := by
    obtain hopens | ⟨heq, _⟩ := hturn.opens hopens
    · exact hshut.closed hopens
    · exact Nat.ne_of_lt hshut.lt heq

theorem Shut.context? (hshut : r.Shut scope) (hturn : r.Turns next) :
    next.machine.scopes.context? scope = r.machine.scopes.context? scope := by
  refine Classical.byContradiction fun hchange => hshut.closed ?_
  exact .inl (hturn.writes hshut.lt hchange).1

/-- The names of a scope that is shut never change again. -/
theorem Shut.goes (hshut : r.Shut scope) (hgoes : r.Goes next) :
    next.machine.scopes.context? scope = r.machine.scopes.context? scope := by
  refine (hgoes.invariant (P := fun later => later.Shut scope ∧
    later.machine.scopes.context? scope = r.machine.scopes.context? scope) ⟨hshut, rfl⟩ ?_).2
  rintro before after hturn ⟨hbefore, heq⟩
  exact ⟨hbefore.turns hturn, (hbefore.context? hturn).trans heq⟩

/-- Work in layers. The deepest layer are statements of `own`, which run in `scope`. Each layer
above it belongs to a branch, whose scope is none of those before `base`; behind it comes the pin
that leads to the layer below. The last index is the scope of the layer on top. -/
inductive Layers (under : Option ScopeId → ScopeId) (own : Stmt → Prop) (base scope : ScopeId) :
    ScopeId → List Work → Prop
  | own (ss : List Stmt) (hss : ∀ s ∈ ss, own s) :
    Layers under own base scope scope (ss.map .statement)
  | deeper {inner : ScopeId} {work : List Work} (hinner : base ≤ inner) (ss : List Stmt)
    (pin : Option ScopeId) (hbelow : Layers under own base scope (under pin) work) :
    Layers under own base scope inner (ss.map .statement ++ .restore pin :: work)

section Layers

variable {under : Option ScopeId → ScopeId} {own : Stmt → Prop} {base current : ScopeId}
  {work tail : List Work}

/-- A statement on top is one of `own`, with nothing but such statements behind it, or belongs to a
branch. -/
theorem Layers.statement_cases {s : Stmt}
    (h : Layers under own base scope current (.statement s :: work)) :
    (current = scope ∧ ∃ ss : List Stmt, work = ss.map .statement ∧ own s ∧ ∀ t ∈ ss, own t) ∨
      base ≤ current ∧ ∃ (ss : List Stmt) (pin : Option ScopeId) (below : List Work),
        work = ss.map .statement ++ .restore pin :: below ∧
          Layers under own base scope (under pin) below := by
  generalize hwork : Work.statement s :: work = whole at h
  cases h with
  | own ss hss =>
    cases ss with
    | nil => cases hwork
    | cons t ss =>
      cases hwork
      exact .inl ⟨rfl, ss, rfl, List.forall_mem_cons.mp hss⟩
  | deeper hinner ss pin hbelow =>
    cases ss with
    | nil => cases hwork
    | cons t ss =>
      cases hwork
      exact .inr ⟨hinner, ss, pin, _, rfl, hbelow⟩

/-- Statements may take the place of one that they are part of. -/
theorem Layers.replace {s : Stmt} (h : Layers under own base scope current (.statement s :: work))
    (ss : List Stmt) (hss : own s → ∀ t ∈ ss, own t) :
    Layers under own base scope current (ss.map .statement ++ work) := by
  obtain ⟨rfl, ts, rfl, hs, hts⟩ | ⟨hcurrent, ts, pin, below, rfl, hbelow⟩ := h.statement_cases
  · rw [← List.map_append]
    exact .own (ss ++ ts) (List.forall_mem_append.mpr ⟨hss hs, hts⟩)
  · rw [← List.append_assoc, ← List.map_append]
    exact .deeper hcurrent (ss ++ ts) pin hbelow

theorem Layers.pop {s : Stmt} (h : Layers under own base scope current (.statement s :: work)) :
    Layers under own base scope current work :=
  h.replace [] fun _ _ hmem => by cases hmem

theorem Layers.leave {pin : Option ScopeId}
    (h : Layers under own base scope current (.restore pin :: work)) :
    Layers under own base scope (under pin) work := by
  generalize hwork : Work.restore pin :: work = whole at h
  cases h with
  | own ss hss => cases ss <;> cases hwork
  | deeper hinner ss pin hbelow =>
    cases ss with
    | nil =>
      cases hwork
      exact hbelow
    | cons t ss => cases hwork

/-- What lies over `tail` in the work is done in `scope`, as far as it is one of `own`, and
otherwise in scopes from `base` on. -/
structure Inside (own : Stmt → Prop) (base scope : ScopeId) (tail : List Work) (r : Runner) :
    Prop where
  size : base ≤ r.machine.scopes.size
  layers : ∃ upper, r.work = upper ++ tail ∧
    Layers r.machine.under own base scope r.machine.current upper

/-- Until only `tail` is left, a turn goes on over it, or fails and leaves all open branches. -/
theorem Inside.turns (hin : r.Inside own base scope tail) (hturn : r.Turns next)
    (hown : ∀ ss span, own (.compound ss span) → ∀ s ∈ ss, own s) (hwork : r.work ≠ tail) :
    next.Inside own base scope tail ∨
      ∃ upper log, next = ⟨unwind (upper ++ tail) { r.machine with log }, []⟩ := by
  have hsize := Nat.le_trans hin.size hturn.size_le
  obtain ⟨_ | ⟨w, upper⟩, hupper, hlayers⟩ := hin.layers
  · exact absurd hupper hwork
  cases hturn.moves with
  | leave m pin work =>
    obtain ⟨rfl, rfl⟩ := List.cons.inj hupper
    exact .inl ⟨hsize, upper, rfl, hlayers.leave⟩
  | unfold m ss span work =>
    obtain ⟨rfl, rfl⟩ := List.cons.inj hupper
    exact .inl ⟨hsize, _, (List.append_assoc ..).symm, hlayers.replace ss (hown ss span)⟩
  | enter m log condition a b span body work hbody =>
    obtain ⟨rfl, rfl⟩ := List.cons.inj hupper
    exact .inl ⟨hsize, .statement body :: .restore m.pin :: upper, rfl,
      .deeper hin.size [body] m.pin hlayers.pop⟩
  | pass m log s work =>
    obtain ⟨rfl, rfl⟩ := List.cons.inj hupper
    exact .inl ⟨hsize, upper, rfl, hlayers.pop⟩
  | bind m log s work f hs hf =>
    obtain ⟨rfl, rfl⟩ := List.cons.inj hupper
    exact .inl ⟨hsize, upper, rfl, hlayers.pop⟩
  | defer m log name arguments span b work =>
    obtain ⟨rfl, rfl⟩ := List.cons.inj hupper
    exact .inl ⟨hsize, upper, rfl, hlayers.pop⟩
  | abort m log s work pin hpin hunwind =>
    obtain ⟨rfl, rfl⟩ := List.cons.inj hupper
    exact .inr ⟨upper, log, congrArg (Runner.mk · []) hunwind.symm⟩

/-- Of the contexts before `base` only that of `scope` is changed over `tail`, and only by
declarations of `own`. -/
theorem Inside.writes (hin : r.Inside own base scope tail) (hturn : r.Turns next)
    (hwork : r.work ≠ tail) {i : ScopeId} (hi : i < base)
    (hchange : next.machine.scopes.context? i ≠ r.machine.scopes.context? i) :
    i = scope ∧ ∃ (s : Stmt) (ss : List Stmt),
      r.work = .statement s :: (ss.map .statement ++ tail) ∧ own s ∧ s.declares?.isSome := by
  obtain ⟨rfl, s, work, hstatement, hs⟩ := hturn.writes (Nat.lt_of_lt_of_le hi hin.size) hchange
  obtain ⟨_ | ⟨w, upper⟩, hupper, hlayers⟩ := hin.layers
  · exact absurd hupper hwork
  obtain ⟨rfl, rfl⟩ := List.cons.inj (hstatement.symm.trans hupper)
  obtain ⟨hscope, ss, rfl, hown, _⟩ | ⟨hbase, _⟩ := hlayers.statement_cases
  · exact ⟨hscope, s, ss, hupper, hown, hs⟩
  · exact absurd hi (Nat.not_lt.mpr hbase)

theorem start_inside (m : Machine) (ss : List Stmt) (hss : ∀ s ∈ ss, own s) :
    (Runner.start m ss).Inside own m.scopes.size m.current [] where
  size := Nat.le_refl _
  layers := ⟨ss.map .statement, (List.append_nil _).symm, .own ss hss⟩

/-- Work that is done in `scope` and in new ones goes on like that, unless all work is dropped. -/
theorem Inside.remains (hin : r.Inside own base scope []) (hgoes : r.Goes next)
    (hown : ∀ ss span, own (.compound ss span) → ∀ s ∈ ss, own s) :
    next.Inside own base scope [] ∨ next.work = [] := by
  refine hgoes.invariant (P := fun later => later.Inside own base scope [] ∨ later.work = [])
    (.inl hin) fun before after hturn hbefore => ?_
  -- A failure may end in any scope, but it leaves no work, so it is the last turn.
  have hinside := hbefore.resolve_right hturn.work_ne_nil
  obtain hafter | ⟨_, _, rfl⟩ := hinside.turns hturn hown hturn.work_ne_nil
  · exact .inl hafter
  · exact .inr rfl

/-- A walk over statements leaves a context as it was that existed before and was not current, and
also the current one if the statements declare nothing. -/
theorem Inside.goes (hin : r.Inside own base scope []) (hgoes : r.Goes next)
    (hown : ∀ ss span, own (.compound ss span) → ∀ s ∈ ss, own s) {i : ScopeId} (hi : i < base)
    (hquiet : i = scope → ∀ s, own s → s.declares? = none) :
    next.machine.scopes.context? i = r.machine.scopes.context? i := by
  induction hgoes with
  | refl => rfl
  | tail hbefore hturn ih =>
    refine .trans (Classical.byContradiction fun hchange => ?_) ih
    have hinside := (hin.remains hbefore hown).resolve_right hturn.work_ne_nil
    obtain ⟨hscope, s, _, _, hs, hdeclares⟩ :=
      hinside.writes hturn hturn.work_ne_nil hi hchange
    rw [hquiet hscope s hs] at hdeclares
    cases hdeclares

end Layers

theorem Turns.under_eq (h : r.Turns next) : next.machine.under = r.machine.under := by
  cases h.moves <;> rfl

/-- All scopes in which work is done have a context. -/
def Anchored (r : Runner) : Prop := ∀ scope, r.Opens scope → scope < r.machine.scopes.size

theorem start_anchored {m : Machine} (h : m.current < m.scopes.size) (ss : List Stmt) :
    (Runner.start m ss).Anchored := by
  rintro scope (rfl | ⟨pin, hmem, _⟩)
  · exact h
  · simp [Runner.start] at hmem

theorem Anchored.goes (h : r.Anchored) (hgoes : r.Goes next) : next.Anchored := by
  refine hgoes.invariant h fun before after hturn hbefore scope hopens => ?_
  obtain hopens | ⟨rfl, hlt⟩ := hturn.opens hopens
  · exact Nat.lt_of_lt_of_le (hbefore scope hopens) hturn.size_le
  · exact hlt

/-- The turn enters a branch of the `if` that is on top of the work: `body` runs in a new scope, and
`lower` is what is left behind the branch. -/
structure Enters (r next : Runner) (body : Stmt) (lower : List Work) : Prop where
  branch : ∃ condition a b span,
    r.work = .statement (.branch condition a b span) :: lower ∧ (body = a ∨ b = some body)
  work : next.work = .statement body :: .restore r.machine.pin :: lower
  scopes : next.machine.scopes = (r.machine.scopes.create (some r.machine.current)).1
  current : next.machine.current = r.machine.scopes.size

/-- Contexts are made for branches that are entered, and for nothing else. -/
theorem Turns.enters (h : r.Turns next)
    (hsize : r.machine.scopes.size < next.machine.scopes.size) :
    ∃ body lower, r.Enters next body lower := by
  cases h.moves with
  | enter m log condition a b span body work hbody =>
    exact ⟨body, work, ⟨_, _, _, _, rfl, hbody⟩, rfl, rfl, rfl⟩
  | bind => simp at hsize
  | _ => exact absurd hsize (Nat.lt_irrefl _)

theorem unwind_append (upper lower : List Work) (m : Machine) :
    unwind (upper ++ lower) m = unwind lower (unwind upper m) := by
  induction upper generalizing m with
  | nil => rfl
  | cons w upper ih =>
    cases w with
    | statement s => exact ih m
    | restore pin =>
      rw [List.cons_append, unwind_restore, unwind_restore]
      exact ih _

section Branch

variable {body : Stmt} {pin : Option ScopeId} {lower : List Work}

/-- When the turn fails inside of a branch, the machine goes to a scope outside of it. -/
theorem current_unwind (upper : List Work) (pin : Option ScopeId) (lower : List Work)
    (m : Machine) :
    ∃ outer, .restore outer ∈ .restore pin :: lower ∧
      (unwind (upper ++ .restore pin :: lower) m).current = m.under outer := by
  obtain ⟨inner, hinner, _⟩ := unwind_eq_setPin upper m
  obtain ⟨outer, houter, hmem⟩ := unwind_eq_setPin lower ((m.setPin inner).setPin pin)
  rw [unwind_append, hinner, unwind_restore, houter]
  refine ⟨outer, ?_, rfl⟩
  obtain rfl | hmem := hmem
  · exact List.mem_cons_self
  · exact List.mem_cons_of_mem _ hmem

/-- The branch with the scope is under way, or its scope is shut for good. -/
structure Branching (body : Stmt) (pin : Option ScopeId) (lower : List Work) (scope : ScopeId)
    (r : Runner) : Prop where
  outside : ∀ outer, .restore outer ∈ .restore pin :: lower → r.machine.under outer ≠ scope
  phase : r.Inside (·.Within body) (scope + 1) scope (.restore pin :: lower) ∨ r.Shut scope

theorem Branching.turns (h : r.Branching body pin lower scope) (hturn : r.Turns next) :
    next.Branching body pin lower scope := by
  have houtside : ∀ outer, .restore outer ∈ .restore pin :: lower →
      next.machine.under outer ≠ scope := by
    rw [hturn.under_eq]
    exact h.outside
  refine ⟨houtside, ?_⟩
  obtain hin | hshut := h.phase
  · have hlt : scope < next.machine.scopes.size := Nat.le_trans hin.size hturn.size_le
    by_cases hwork : r.work = .restore pin :: lower
    · -- The branch is left: the pins below it are all that is still to be put back.
      obtain ⟨m, work⟩ := r
      cases hwork
      cases hturn
      refine .inr ⟨hlt, ?_⟩
      rintro (hcurrent | ⟨outer, hmem, hunder⟩)
      · exact houtside pin List.mem_cons_self hcurrent.symm
      · exact houtside outer (List.mem_cons_of_mem _ hmem) hunder.symm
    · have hown : ∀ ss span, (Stmt.compound ss span).Within body → ∀ s ∈ ss, s.Within body :=
        fun _ span hcompound _ hs => (Stmt.Within.compound span hs .self).trans hcompound
      obtain hnext | ⟨upper, log, rfl⟩ := hin.turns hturn hown hwork
      · exact .inl hnext
      · refine .inr ⟨hlt, ?_⟩
        obtain ⟨outer, hmem, hcurrent⟩ := current_unwind upper pin lower { r.machine with log }
        rintro (hscope | ⟨_, hnil, _⟩)
        · exact h.outside outer hmem (hcurrent.symm.trans hscope.symm)
        · cases hnil
  · exact .inr (hshut.turns hturn)

theorem Branching.goes (h : r.Branching body pin lower scope) (hgoes : r.Goes next) :
    next.Branching body pin lower scope :=
  hgoes.invariant h fun _ _ hturn hbefore => hbefore.turns hturn

/-- The scope of a branch is changed by declarations of the branch only, and only while no branch
inside of it is open. -/
theorem Branching.writes (h : r.Branching body pin lower scope) (hturn : r.Turns next)
    (hchange : next.machine.scopes.context? scope ≠ r.machine.scopes.context? scope) :
    ∃ (t : Stmt) (ts : List Stmt), t.Within body ∧ t.declares?.isSome ∧
      r.work = .statement t :: (ts.map .statement ++ .restore pin :: lower) := by
  obtain hin | hshut := h.phase
  · have hwork : r.work ≠ .restore pin :: lower := by
      intro heq
      obtain ⟨_, s, work, hstatement, _⟩ := hturn.writes hin.size hchange
      rw [heq] at hstatement
      cases hstatement
    obtain ⟨_, t, ts, hstatement, ht, hdeclares⟩ :=
      hin.writes hturn hwork (Nat.lt_succ_self _) hchange
    exact ⟨t, ts, ht, hdeclares, hstatement⟩
  · exact absurd (hshut.context? hturn) hchange

/-- The scope of a branch is shut once the pin behind the branch is no longer among the work. -/
theorem Branching.shut (h : r.Branching body pin lower scope)
    (hover : ¬.restore pin :: lower <:+ r.work) : r.Shut scope := by
  obtain hin | hshut := h.phase
  · obtain ⟨upper, hwork, _⟩ := hin.layers
    exact absurd ⟨upper, hwork.symm⟩ hover
  · exact hshut

/-- A branch that is entered is under way, in a scope in which nothing else is done. -/
theorem Enters.branching (h : r.Enters next body lower) (hturn : r.Turns next)
    (hanchored : r.Anchored) :
    next.Branching body r.machine.pin lower r.machine.scopes.size := by
  obtain ⟨⟨condition, a, b, span, hwork, _⟩, hnext, hscopes, hcurrent⟩ := h
  refine ⟨fun outer hmem => ?_, .inl ⟨?_, [.statement body], hnext, ?_⟩⟩
  · rw [hturn.under_eq]
    refine Nat.ne_of_lt (hanchored _ ?_)
    obtain heq | hmem := List.mem_cons.mp hmem
    · cases heq
      exact .inl rfl
    · exact .inr ⟨outer, hwork ▸ List.mem_cons_of_mem _ hmem, rfl⟩
  · exact Nat.le_of_eq (by rw [hscopes, Scopes.size_create])
  · rw [hcurrent]
    exact .own [body] fun s hs => List.mem_singleton.mp hs ▸ .self

end Branch

end Runner

/-- Emptying the queue changes no context. -/
theorem Machine.scopes_runDeferred (m : Machine) : m.runDeferred.1.scopes = m.scopes := by
  obtain ⟨log, heq⟩ := Machine.performAll_eq { m with queue := [] } m.queue
  rw [Machine.runDeferred, heq]

/-- A run leaves all contexts as they were that existed before, except the current one, and the run
of an `if` leaves that one too. A context that a run makes, in a machine whose current scope has
one, is the scope of a branch that it enters. It is changed only while the branch is under way, by
declarations that stand in the branch but not in a branch inside of it. Once the branch is over,
which is when the pin behind it is gone from the work, it keeps its names, to the end of the run and
while the calls that waited are carried out. -/
theorem Machine.run_isolates (m : Machine) (ss : List Stmt) :
    (∀ i < m.scopes.size, i ≠ m.current →
      (m.run ss).1.scopes.context? i = m.scopes.context? i) ∧
    (∀ (condition : Expr) (a : Stmt) (b : Option Stmt) (span : Span), ∀ i < m.scopes.size,
      (m.run [.branch condition a b span]).1.scopes.context? i = m.scopes.context? i) ∧
    (m.current < m.scopes.size → ∀ r next : Runner, (Runner.start m ss).Goes r → r.Turns next →
      ∀ scope, r.machine.scopes.size = scope → scope < next.machine.scopes.size →
      ∃ body lower, r.Enters next body lower ∧
        (∀ before after : Runner, next.Goes before → before.Turns after →
          after.machine.scopes.context? scope ≠ before.machine.scopes.context? scope →
          ∃ (t : Stmt) (ts : List Stmt), t.Within body ∧ t.declares?.isSome ∧
            before.work =
              .statement t :: (ts.map .statement ++ .restore r.machine.pin :: lower)) ∧
        ∀ left : Runner, next.Goes left → ¬.restore r.machine.pin :: lower <:+ left.work →
          (∀ later : Runner, left.Goes later →
            later.machine.scopes.context? scope = left.machine.scopes.context? scope) ∧
          (m.run ss).1.scopes.context? scope = left.machine.scopes.context? scope ∧
          (m.run ss).1.runDeferred.1.scopes.context? scope =
            left.machine.scopes.context? scope) := by
  refine ⟨fun i hi hne => ?_, fun condition a b span i hi => ?_, ?_⟩
  · exact (Runner.start_inside m ss fun _ _ => trivial).goes (Runner.goes_drain _)
      (fun _ _ _ _ _ => trivial) hi fun heq => absurd heq hne
  · have hin : (Runner.start m [.branch condition a b span]).Inside
        (· = .branch condition a b span) m.scopes.size m.current [] :=
      Runner.start_inside m _ fun s hs => List.mem_singleton.mp hs
    refine hin.goes (Runner.goes_drain _) (fun _ _ h => by cases h) hi fun _ s hs => ?_
    rw [hs]
    rfl
  · rintro hcurrent r next hgoes hturn scope rfl hsize
    obtain ⟨body, lower, henters⟩ := hturn.enters hsize
    have hbranching :=
      henters.branching hturn ((Runner.start_anchored hcurrent ss).goes hgoes)
    refine ⟨body, lower, henters, fun before after hbefore hafter hchange =>
      (hbranching.goes hbefore).writes hafter hchange, fun left hleft hover => ?_⟩
    have hshut := (hbranching.goes hleft).shut hover
    have hdrain : left.Goes (Runner.start m ss).drain.2 :=
      Runner.Goes.to_drain (hgoes.trans (.head hturn hleft))
    refine ⟨fun later hlater => hshut.goes hlater, hshut.goes hdrain, ?_⟩
    rw [Machine.scopes_runDeferred]
    exact hshut.goes hdrain

/-- A branch with another branch inside of it. The outer one declares `a` in its scope and the inner
one `b` in its own; the scope around them is as it was, and what comes after them goes elsewhere. -/
theorem Machine.run_isolates_nested :
    let yes : Expr := .literal (.boolean true) (Lexeme.token ⟨.keyword, "true"⟩)
    let declare (name : String) : Stmt :=
      .assignment name (Lexeme.token ⟨.identifier, name⟩) yes .origin
    let body : Stmt := .compound [declare "a", .branch yes (declare "b") none .origin] .origin
    let ss := [.branch yes body none .origin, declare "c"]
    let m := (Machine.new .standard).pushScope.1
    let next : Runner :=
      ⟨{ m with scopes := (m.scopes.create (some 1)).1, pin := some 2 },
        [.statement body, .restore none, .statement (declare "c")]⟩
    (m.run ss).1.scopes.context? 0 = m.scopes.context? 0 ∧
      (m.run [.branch yes body none .origin]).1.scopes.context? 1 = m.scopes.context? 1 ∧
      (m.run ss).1.runDeferred.1.scopes.context? 2 =
        (next.take 3).2.machine.scopes.context? 2 ∧
      ((next.take 3).2.machine.scopes.context? 2).map (·.values.map Prod.fst) = some ["a"] := by
  intro yes declare body ss m next
  obtain ⟨hothers, hbranch, hmade⟩ := run_isolates m ss
  have hturn : (Runner.start m ss).Turns next := rfl
  obtain ⟨_, lower, _, _, hover⟩ := hmade (by decide) _ next .refl hturn 2 rfl (by decide)
  have hleft : (next.take 3).2.work = [] := rfl
  obtain ⟨_, _, hdeferred⟩ := hover _ (Runner.goes_take 3 next) (by simp [hleft])
  exact ⟨hothers 0 (by decide) (by decide), hbranch _ _ _ _ 1 (by decide), hdeferred, rfl⟩

end SolidScript
