import SolidScript.Compile
import SolidScript.Proofs.Machine.Seams
import SolidScript.Proofs.Scopes.Lookup
import SolidScript.Proofs.Stmt.Slots

namespace SolidScript

/-- What a declaration binds its name to, unless it fails. -/
def Stmt.binding? (m : Machine) : Stmt → Option Binding
  | .assignment _ _ value _ => (m.evaluate value).2.toOption.map .variable
  | .moduleDef name parameters body span => some (.module (.defined ⟨name, parameters, body, span⟩))
  | .functionDef name parameters body span => some (.function ⟨name, parameters, body, span⟩)
  | _ => none

/-- No statement that runs in the scope of this one declares the name. -/
def Stmt.Quiet (key : Namespace × String) (s : Stmt) : Prop :=
  ∀ t : Stmt, t.Within s → t.declares? ≠ some key

theorem Stmt.Quiet.compound {key : Namespace × String} (ss : List Stmt) (span : Span)
    (h : (Stmt.compound ss span).Quiet key) : ∀ s ∈ ss, s.Quiet key :=
  fun _ hs t ht => h t (.compound span hs ht)

namespace Machine

theorem current_run (m : Machine) (ss : List Stmt) : (m.run ss).1.current = m.current := by
  have hkeeps := Stmt.walkAll_keeps ss m
  rw [run_eq, current, hkeeps.pin, hkeeps.stack, hkeeps.root, current]

theorem current_lt_run {m : Machine} (h : m.current < m.scopes.size) (ss : List Stmt) :
    m.current < (m.run ss).1.scopes.size :=
  Nat.lt_of_lt_of_le h (Runner.Goes.size_le (Runner.goes_drain (Runner.start m ss)))

end Machine

namespace Runner

variable {m : Machine} {r next : Runner} {key : Namespace × String} {scope : ScopeId}
  {ss : List Stmt}

/-- The turn writes the name in the scope: the statement on top declares it, in that scope, and does
not fail. -/
structure Binds (r : Runner) (key : Namespace × String) (scope : ScopeId) (next : Runner) :
    Prop where
  declaration : ∃ s work, r.work = .statement s :: work ∧ s.declares? = some key
  current : r.machine.current = scope
  stepped : ∃ step, r.turn = .stepped step next

theorem Binds.turns (h : r.Binds key scope next) : r.Turns next := by
  obtain ⟨step, hturn⟩ := h.stepped
  exact congrArg Turn.next? hturn

/-- A declaration binds its name in the current scope, or fails. -/
theorem visit_declaration {s : Stmt} (hs : s.declares? = some key) (m : Machine)
    (work : List Work) :
    (∃ b f log, s.binding? m = some b ∧ Context.Sets f key b ∧
      visit m work s = stepped s { m with scopes := m.scopes.modify m.current f, log } work) ∨
    s.binding? m = none ∧ ∃ e log, visit m work s = abort { m with log } work e := by
  cases s with
  | assignment target token value span =>
    cases hs
    rw [visit, Stmt.binding?]
    rcases hvalue : m.evaluate value with ⟨n, e | v⟩
    · obtain ⟨rfl, _⟩ := Prod.mk.inj hvalue
      exact .inr ⟨rfl, e, _, rfl⟩
    · obtain ⟨rfl, _⟩ := Prod.mk.inj hvalue
      exact .inl ⟨_, _, _, rfl, .value target v, rfl⟩
  | moduleDef name parameters body span =>
    cases hs
    exact .inl ⟨_, _, m.log, rfl, .module name _, rfl⟩
  | functionDef name parameters body span =>
    cases hs
    exact .inl ⟨_, _, m.log, rfl, .function name _, rfl⟩
  | _ => cases hs

/-- What a name stands for in a context changes only when it is written there. -/
theorem Turns.binding?_eq (h : r.Turns next) (hscope : scope < r.machine.scopes.size)
    (hbinds : ¬r.Binds key scope next) :
    next.machine.scopes.binding? scope key = r.machine.scopes.binding? scope key := by
  refine Classical.byContradiction fun hchange => hbinds ?_
  have hcontext : next.machine.scopes.context? scope ≠ r.machine.scopes.context? scope :=
    fun heq => hchange (congrArg (Option.bind · _) heq)
  obtain ⟨hcurrent, s, work, hwork, hs⟩ := h.writes hscope hcontext
  obtain ⟨other, hs⟩ := Option.isSome_iff_exists.mp hs
  have hturn : r.turn = visit r.machine work s := by rw [turn, hwork]
  rw [Turns, hturn] at h
  obtain ⟨b, f, log, _, hsets, hvisit⟩ | ⟨_, e, log, hvisit⟩ := visit_declaration hs r.machine work
  · rw [hvisit] at h
    cases h
    rw [Scopes.binding?_modify hsets hscope] at hchange
    obtain ⟨⟨_, rfl⟩, _⟩ := Classical.not_imp.mp fun himp => hchange (if_neg himp)
    exact ⟨⟨s, work, hwork, hs⟩, hcurrent.symm, _, hturn.trans hvisit⟩
  · rw [hvisit, abort_eq] at h
    cases h
    obtain ⟨pin, heq, _⟩ := unwind_eq_setPin work { r.machine with log }
    rw [heq] at hchange
    exact absurd rfl hchange

/-- A write gives the name what the declaration comes to. -/
theorem Binds.next_eq (h : r.Binds key scope next) {s : Stmt} {work : List Work}
    (hwork : r.work = .statement s :: work) (hscope : scope < r.machine.scopes.size) :
    ∃ b, s.binding? r.machine = some b ∧ next.machine.scopes.binding? scope key = some b ∧
      next.work = work ∧ next.machine.current = scope := by
  obtain ⟨⟨s', work', hwork', hs⟩, rfl, step, hturn⟩ := h
  cases hwork.symm.trans hwork'
  rw [turn, hwork] at hturn
  obtain ⟨b, f, log, hb, hsets, hvisit⟩ | ⟨_, e, log, hvisit⟩ := visit_declaration hs r.machine work
  · cases hvisit.symm.trans hturn
    refine ⟨b, hb, ?_, rfl, rfl⟩
    rw [Scopes.binding?_modify hsets hscope, if_pos ⟨rfl, rfl⟩]
  · rw [abort_eq] at hvisit
    cases hvisit.symm.trans hturn

section Quiet

variable (hscope : m.current < m.scopes.size) (hquiet : ∀ s ∈ ss, s.Quiet key)

include hscope hquiet

/-- Statements that do not declare a name in the scope where they run never write it there. -/
theorem not_binds_of_quiet (hgoes : (start m ss).Goes r) : ¬r.Binds key m.current next := by
  intro h
  obtain ⟨s, work, hwork, hs⟩ := h.declaration
  obtain ⟨_, upper, hupper, hlayers⟩ := ((start_inside m ss hquiet).remains hgoes
    Stmt.Quiet.compound).resolve_right h.turns.work_ne_nil
  rw [List.append_nil, hwork] at hupper
  rw [← hupper] at hlayers
  obtain ⟨_, _, _, hown, _⟩ | ⟨hbase, _⟩ := hlayers.statement_cases
  · exact hown s .self hs
  · exact absurd hscope (Nat.not_lt.mpr (h.current ▸ hbase))

theorem binding?_of_quiet (hgoes : (start m ss).Goes r) :
    r.machine.scopes.binding? m.current key = m.scopes.binding? m.current key := by
  induction hgoes with
  | refl => rfl
  | tail hbefore hturn ih =>
    have hlt := Nat.lt_of_lt_of_le hscope (Goes.size_le hbefore)
    exact (hturn.binding?_eq hlt (not_binds_of_quiet hscope hquiet hbefore)).trans ih

end Quiet

/-- A write over more work is one without that. -/
theorem Binds.of_onto {n : Machine} {work : List Work} (hwork : work ≠ [])
    (h : (Runner.mk n (work ++ ss.map .statement)).Binds key scope next) :
    ∃ later, (Runner.mk n work).Binds key scope later := by
  obtain ⟨⟨s, rest, hstatement, hs⟩, hcurrent, step, hturn⟩ := h
  obtain ⟨w, work, rfl⟩ := List.exists_cons_of_ne_nil hwork
  obtain ⟨rfl, _⟩ := List.cons.inj hstatement
  rw [turn_onto n hwork] at hturn
  cases hcase : (Runner.mk n (.statement s :: work)).turn with
  | stepped step' later => exact ⟨later, ⟨s, work, rfl, hs⟩, hcurrent, step', hcase⟩
  | _ =>
    rw [hcase] at hturn
    cases hturn

/-- Behind a declaration come the statements that stand behind it, or nothing if it fails. -/
theorem turns_declaration {d : Stmt} (hd : d.declares? = some key)
    (h : (start m (d :: ss)).Turns next) :
    (next = start next.machine ss ∧ next.machine.current = m.current) ∨ next.work = [] := by
  have hturn : (start m (d :: ss)).turn = visit m (ss.map .statement) d := rfl
  rw [Turns, hturn] at h
  obtain ⟨b, f, log, _, _, hvisit⟩ | ⟨_, e, log, hvisit⟩ :=
    visit_declaration hd m (ss.map .statement)
  · rw [hvisit] at h
    cases h
    exact .inl ⟨rfl, rfl⟩
  · rw [hvisit, abort_eq] at h
    cases h
    exact .inr rfl

section Slot

variable {pre post : List Stmt} {d : Stmt} (hscope : m.current < m.scopes.size)
  (hpre : ∀ s ∈ pre, s.Quiet key) (hpost : ∀ s ∈ post, s.Quiet key)
  (hd : d.declares? = some key)

include hscope hpre hpost hd

/-- A name that is declared by one of the statements only is written in the turn of that one, behind
what stands before it. -/
theorem Binds.at_slot (h : r.Binds key m.current next)
    (hgoes : (start m (pre ++ d :: post)).Goes r) :
    (m.run pre).2 = .ok () ∧ r = start (m.run pre).1 (d :: post) := by
  cases hgoes.stage with
  | first hwork hfirst =>
    obtain ⟨later, hbinds⟩ := h.of_onto hwork
    exact absurd hbinds (not_binds_of_quiet hscope hpre hfirst)
  | second hok hseam hsecond =>
    refine ⟨hok, ?_⟩
    obtain heq | ⟨after, hturn, hafter⟩ := hsecond.cases_head
    · exact heq.symm
    · obtain ⟨hstart, hcurrent⟩ | hnil := turns_declaration hd hturn
      · rw [m.current_run] at hcurrent
        have hgrown := Turns.size_le hturn
        have hlt : after.machine.current < after.machine.scopes.size := by
          rw [hcurrent]
          exact Nat.lt_of_lt_of_le (Machine.current_lt_run hscope pre) hgrown
        rw [hstart] at hafter
        rw [← hcurrent] at h
        exact absurd h (not_binds_of_quiet hlt hpost hafter)
      · rw [Goes.eq_of_nil hafter hnil] at h
        exact absurd hnil h.turns.work_ne_nil
  | failed => exact absurd rfl h.turns.work_ne_nil

/-- From then on the name stands for what was written. -/
theorem Binds.lasts (h : r.Binds key m.current next)
    (hgoes : (start m (pre ++ d :: post)).Goes r) :
    ∃ b, d.binding? (m.run pre).1 = some b ∧
      ∀ later, next.Goes later → later.machine.scopes.binding? m.current key = some b := by
  obtain ⟨_, rfl⟩ := h.at_slot hscope hpre hpost hd hgoes
  obtain ⟨b, hb, hbound, hwork, hcurrent⟩ := h.next_eq rfl (Machine.current_lt_run hscope pre)
  refine ⟨b, hb, fun later hlater => ?_⟩
  have hstart : next = start next.machine post := congrArg (Runner.mk next.machine) hwork
  have hlt : next.machine.current < next.machine.scopes.size := by
    rw [hcurrent]
    exact Nat.lt_of_lt_of_le (Machine.current_lt_run hscope pre) h.turns.size_le
  rw [hstart] at hlater
  rw [← hbound, ← hcurrent]
  exact binding?_of_quiet hlt hpost hlater

omit hpre hpost hscope in
/-- A run that succeeds does write the name. -/
theorem binds_of_run (hrun : (m.run (pre ++ d :: post)).2 = .ok ()) :
    ∃ r next, (start m (pre ++ d :: post)).Goes r ∧ r.Binds key m.current next := by
  have hend : (start m (pre ++ d :: post)).drain.2.work = [] := by rw [drain_start]
  generalize hlast : (start m (pre ++ d :: post)).drain.2 = last at hend
  have hgoes := goes_drain (start m (pre ++ d :: post))
  rw [hlast] at hgoes
  cases hgoes.stage with
  | first => simp at hend
  | second hok hseam _ =>
    have hturn : (start (m.run pre).1 (d :: post)).turn =
        visit (m.run pre).1 (post.map .statement) d := rfl
    obtain ⟨b, f, log, _, _, hvisit⟩ | ⟨_, e, log, hvisit⟩ :=
      visit_declaration hd (m.run pre).1 (post.map .statement)
    · exact ⟨_, _, hseam, ⟨d, _, rfl, hd⟩, m.current_run pre, _, hturn.trans hvisit⟩
    · have hall := run_of_goes hseam (List.cons_ne_nil _ _)
      have hfollows := (start (m.run pre).1 (d :: post)).turn_follows
      rw [hturn, hvisit, abort_eq] at hfollows
      rw [hall, hfollows.2] at hrun
      cases hrun
  | failed herror hboth =>
    rw [hrun] at hboth
    cases hboth

end Slot

end Runner

/-- Of all that is left by hoisting, only the slot of the name declares it in the scope of the
whole, if it is not declared in braces. -/
theorem Stmt.hoist_quiet {ss : List Stmt} {key : Namespace × String}
    (hblocks : ∀ body span, .compound body span ∈ ss → (Stmt.compound body span).Quiet key) :
    ((∀ s ∈ ss, s.declares? ≠ some key) ∧ ∀ s ∈ hoist ss, s.Quiet key) ∨
      ∃ before first rest post, ss = before ++ first :: rest ∧ first.declares? = some key ∧
        (∀ s ∈ before, s.declares? ≠ some key) ∧
        hoist ss = (firsts [] before).map (latest ss) ++ latest ss first :: post ∧
        (∀ s ∈ (firsts [] before).map (latest ss), s.Quiet key) ∧ ∀ s ∈ post, s.Quiet key := by
  have hquiet (s : Stmt) (hs : s ∈ hoist ss) (hkey : s.declares? ≠ some key) : s.Quiet key := by
    rintro t (_ | ⟨span, hbody, ht⟩)
    · exact hkey
    · exact hblocks _ span (mem_of_mem_hoist hs) t (.compound span hbody ht)
  cases hfind : ss.find? (·.declares? = some key) with
  | none =>
    have hnone (s : Stmt) (hs : s ∈ ss) : s.declares? ≠ some key := by
      simpa using List.find?_eq_none.mp hfind s hs
    exact .inl ⟨hnone, fun s hs => hquiet s hs (hnone s (mem_of_mem_hoist hs))⟩
  | some first =>
    obtain ⟨hfirst, before, rest, rfl, hbefore⟩ := List.find?_eq_some_iff_append.mp hfind
    have hfirst : first.declares? = some key := by simpa using hfirst
    have hbefore : ∀ s ∈ before, s.declares? ≠ some key := by simpa using hbefore
    obtain ⟨post, hhoist, hpre, hpost⟩ := hoist_slot hfirst hbefore rest
    refine .inr ⟨before, first, rest, post, rfl, hfirst, hbefore, hhoist, fun s hs => ?_,
      fun s hs => ?_⟩
    · exact hquiet s (hhoist ▸ List.mem_append_left _ hs) (hpre s hs)
    · exact hquiet s (hhoist ▸ List.mem_append_right _ (List.mem_cons_of_mem _ hs)) (hpost s hs)

/-- A name that a script does not declare in braces at top level is written in the root at most once
in the whole run, and nothing else changes what it stands for there. That happens, if the run gets
so far, in the slot of the first declaration at top level: the name is bound to what the last one
comes to when all that stands before the slot has been run. All look-ups afterwards that come to
the root find this, from whichever scope they begin, to the end of the run and while the calls that
were put off are carried out. -/
theorem Machine.root_bound_once (settings : Settings) (nextId : Nat) {source : String}
    {ss : List Stmt} (hparse : parse source = .ok ss) (key : Namespace × String)
    (hblocks : ∀ body span, .compound body span ∈ ss → (Stmt.compound body span).Quiet key) :
    let m := Machine.new settings nextId
    let program := Stmt.hoist ss
    let start := Runner.start m program
    let left := (m.run program).1
    compile source = .ok program ∧
    (∀ r next, start.Goes r → r.Turns next →
      next.machine.scopes.binding? m.root key ≠ r.machine.scopes.binding? m.root key →
      r.Binds key m.root next) ∧
    (∀ r next other after, start.Goes r → r.Binds key m.root next →
      start.Goes other → other.Binds key m.root after → other = r ∧ after = next) ∧
    (∀ r next, start.Goes r → r.Binds key m.root next →
      ∃ before first rest b, ss = before ++ first :: rest ∧ first.declares? = some key ∧
        (∀ s ∈ before, s.declares? ≠ some key) ∧
        m.run ((Stmt.firsts [] before).map (Stmt.latest ss)) = (r.machine, .ok ()) ∧
        (Stmt.latest ss first).binding? r.machine = some b ∧
        (∀ later, next.Goes later → later.machine.scopes.Finds key m.root b) ∧
        left.scopes.Finds key m.root b ∧
        ∀ done waiting, left.queue = done ++ waiting →
          ({ left with queue := [] }.performAll done).1.scopes.Finds key m.root b) ∧
    ((m.run program).2 = .ok () → (∃ s ∈ ss, s.declares? = some key) →
      ∃ r next, start.Goes r ∧ r.Binds key m.root next) := by
  intro m program start left
  have hscope : m.current < m.scopes.size := (new_wellFormed settings nextId).current_lt
  have hcompile : compile source = .ok program := by
    rw [compile, hparse]
    rfl
  have hchange (r next : Runner) (hgoes : start.Goes r) (hturn : r.Turns next)
      (hne : next.machine.scopes.binding? m.root key ≠ r.machine.scopes.binding? m.root key) :
      r.Binds key m.root next := by
    have hlt : m.root < r.machine.scopes.size := Nat.lt_of_lt_of_le hscope hgoes.size_le
    exact Classical.byContradiction fun hbinds => hne (hturn.binding?_eq hlt hbinds)
  refine ⟨hcompile, hchange, ?_⟩
  obtain ⟨hnone, hquiet⟩ | ⟨before, first, rest, post, hss, hfirst, hbefore, hhoist, hpre, hpost⟩ :=
    Stmt.hoist_quiet hblocks
  · have hnever (r next : Runner) (hgoes : start.Goes r) : ¬r.Binds key m.root next :=
      Runner.not_binds_of_quiet hscope hquiet hgoes
    exact ⟨fun r next _ _ hgoes hbinds => absurd hbinds (hnever r next hgoes),
      fun r next hgoes hbinds => absurd hbinds (hnever r next hgoes),
      fun _ ⟨s, hs, hkey⟩ => absurd hkey (hnone s hs)⟩
  · have hslot : (Stmt.latest ss first).declares? = some key :=
      (Stmt.declares?_latest ss first).trans hfirst
    have hstart : start = Runner.start m
        ((Stmt.firsts [] before).map (Stmt.latest ss) ++ Stmt.latest ss first :: post) :=
      congrArg (Runner.start m) hhoist
    refine ⟨fun r next other after hgoes hbinds hgoes' hbinds' => ?_, fun r next hgoes hbinds => ?_,
      fun hrun _ => ?_⟩
    · rw [hstart] at hgoes hgoes'
      obtain ⟨_, rfl⟩ := hbinds.at_slot hscope hpre hpost hslot hgoes
      obtain ⟨_, rfl⟩ := hbinds'.at_slot hscope hpre hpost hslot hgoes'
      exact ⟨rfl, Option.some.inj (hbinds'.turns.symm.trans hbinds.turns)⟩
    · have hgoes' := hgoes
      rw [hstart] at hgoes'
      obtain ⟨hok, rfl⟩ := hbinds.at_slot hscope hpre hpost hslot hgoes'
      obtain ⟨b, hb, hlasts⟩ := hbinds.lasts hscope hpre hpost hslot hgoes'
      have hfinds (later : Runner) (hlater : next.Goes later) :
          later.machine.scopes.Finds key m.root b := by
        have hreached : start.Goes later := (hgoes.tail hbinds.turns).trans hlater
        have hstartFormed := Runner.start_wellFormed (new_wellFormed settings nextId) program
        exact (hstartFormed.goes hreached).machine.scopes.finds (hlasts later hlater)
      have hleft : left.scopes.Finds key m.root b :=
        hfinds start.drain.2 (Runner.Goes.to_drain (hgoes.tail hbinds.turns))
      refine ⟨before, first, rest, b, hss, hfirst, hbefore, Prod.ext rfl hok, hb, hfinds, hleft,
        fun done waiting _ => ?_⟩
      obtain ⟨log, heq⟩ := performAll_eq { left with queue := [] } done
      rw [heq]
      exact hleft
    · have hrun' : (m.run ((Stmt.firsts [] before).map (Stmt.latest ss) ++
          Stmt.latest ss first :: post)).2 = .ok () := hhoist ▸ hrun
      rw [hstart]
      exact Runner.binds_of_run hslot hrun'

/-- The condition already sees the last declaration, and so does all else that comes to the root. -/
theorem Machine.root_bound_once_redeclared :
    let m := Machine.new .standard
    ∃ program r next, compile "x = true; if (x) echo(x); x = false;" = .ok program ∧
      (Runner.start m program).Goes r ∧ r.Binds (.variable, "x") m.root next ∧
      (m.run program).1.scopes.Finds (.variable, "x") m.root (.variable (.boolean false)) := by
  intro m
  have hshape : (parse "x = true; if (x) echo(x); x = false;").toOption.map (fun ss =>
      (ss.map Stmt.label, ss.map Stmt.declares?)) =
      some (["assignment", "if", "assignment"],
        [some (.variable, "x"), none, some (.variable, "x")]) := by
    decide +kernel
  have hend : (parse "x = true; if (x) echo(x); x = false;").toOption.map (fun ss =>
      ((m.run (Stmt.hoist ss)).2.isOk,
        ((m.run (Stmt.hoist ss)).1.scopes.findVariable 0 "x").map fun v =>
          (v.kind, v.truthy.toOption))) =
      some (true, some (.boolean, some false)) := by
    decide +kernel
  cases hparse : parse "x = true; if (x) echo(x); x = false;" with
  | error e =>
    rw [hparse] at hshape
    cases hshape
  | ok ss =>
    rw [hparse] at hshape hend
    obtain ⟨hlabels, hdeclares⟩ := Prod.mk.inj (Option.some.inj hshape)
    obtain ⟨hok, hvalue⟩ := Prod.mk.inj (Option.some.inj hend)
    have hblocks (body : List Stmt) (span : Span) (hmem : .compound body span ∈ ss) :
        (Stmt.compound body span).Quiet (.variable, "x") := by
      have hlabel : Stmt.label (.compound body span) ∈ ss.map Stmt.label := List.mem_map_of_mem hmem
      simp [hlabels, Stmt.label] at hlabel
    have hrun : (m.run (Stmt.hoist ss)).2 = .ok () := by
      cases hresult : (m.run (Stmt.hoist ss)).2 with
      | ok _ => rfl
      | error e =>
        rw [hresult] at hok
        cases hok
    have hdeclared : ∃ s ∈ ss, s.declares? = some (.variable, "x") :=
      List.mem_map.mp (hdeclares ▸ List.mem_cons_self)
    obtain ⟨hcompile, _, _, hsettled, hexists⟩ :=
      root_bound_once .standard 0 hparse (.variable, "x") hblocks
    obtain ⟨r, next, hgoes, hbinds⟩ := hexists hrun hdeclared
    obtain ⟨_, _, _, b, _, _, _, _, _, _, hleft, _⟩ := hsettled r next hgoes hbinds
    refine ⟨_, r, next, hcompile, hgoes, hbinds, ?_⟩
    obtain ⟨v, hv, hv'⟩ := Option.map_eq_some_iff.mp hvalue
    have hb : some (Binding.variable v) = some b :=
      (congrArg (Option.map Binding.variable) hv).symm.trans (hleft 0 .here)
    cases hb
    cases v with
    | boolean v =>
      cases hv'
      exact hleft
    | _ => cases hv'

end SolidScript
