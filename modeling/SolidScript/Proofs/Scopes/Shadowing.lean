import SolidScript.Proofs.Machine.Session
import SolidScript.Proofs.Scopes.Lookup

namespace SolidScript

/-- The kind of names that can stand for this. -/
def Binding.space : Binding → Namespace
  | .variable _ => .variable
  | .module _ => .module
  | .function _ => .function

namespace Scopes

variable {s : Scopes} {scope place : ScopeId} {key written : Namespace × String} {b : Binding}
  {f : Context → Context} {result : Option Binding}

/-- Lets a name stand for something at a place. -/
def set (s : Scopes) (place : ScopeId) (name : String) : Binding → Scopes
  | .variable value => s.setVariable place name value
  | .module module => s.setModule place name module
  | .function definition => s.setFunction place name definition

theorem set_eq_modify (s : Scopes) (place : ScopeId) (name : String) (b : Binding) :
    ∃ f, Context.Sets f (b.space, name) b ∧ s.set place name b = s.modify place f := by
  rcases b with value | module | definition
  · exact ⟨_, .value name value, rfl⟩
  · exact ⟨_, .module name module, rfl⟩
  · exact ⟨_, .function name definition, rfl⟩

/-- A write leaves each context where it is and under the same parent, with the same names but for
the one that is written. -/
theorem exists_context?_of_write {c : Context} (hc : s.context? scope = some c)
    (hf : Context.Sets f written b) (place : ScopeId) :
    ∃ d, (s.modify place f).context? scope = some d ∧ d.parent? = c.parent? ∧
      ∀ key, d.binding? key =
        if scope = place ∧ key = written then some b else c.binding? key := by
  rw [context?_modify, hc]
  by_cases hscope : scope = place
  · exact ⟨f c, if_pos hscope, hf.rebinds.parent? c, fun key => by simp [hscope, hf.binding?]⟩
  · exact ⟨c, if_neg hscope, rfl, fun key => by simp [hscope]⟩

/-- A search for the name that is written ends at the place of the write, if it comes there. -/
theorem Reaches.searches_write (h : s.Reaches written place scope)
    (hf : Context.Sets f written b) (hscope : scope < s.size) (hs : s.Ranked) :
    (s.modify place f).Searches (·.binding? written) scope (some b) := by
  induction h with
  | here =>
    obtain ⟨c, hc⟩ := Option.isSome_iff_exists.mp (context?_isSome.mpr hscope)
    obtain ⟨d, hd, _, hbinding⟩ := exists_context?_of_write hc hf place
    exact .found hd ((hbinding written).trans (if_pos ⟨rfl, rfl⟩))
  | @outwards i p c hc hmissing hparent _ ih =>
    obtain ⟨d, hd, hparent', hbinding⟩ := exists_context?_of_write hc hf place
    by_cases hi : i = place
    · exact .found hd ((hbinding written).trans (if_pos ⟨hi, rfl⟩))
    · have hmissing' : d.binding? written = none := by
        rw [hbinding, if_neg fun h => hi h.1, hmissing]
      exact .outwards hd hmissing' (hparent'.trans hparent)
        (ih (Nat.lt_trans (hs i c p hc hparent) hscope))

/-- A search for another name, or one that does not come to the place of the write, goes the same
way as before. -/
theorem Searches.write (h : s.Searches (·.binding? key) scope result)
    (hf : Context.Sets f written b) (hmiss : key = written → ¬s.Reaches key place scope) :
    (s.modify place f).Searches (·.binding? key) scope result := by
  have hkeeps {i : ScopeId} {c : Context} (hc : s.context? i = some c)
      (hi : key = written → ¬s.Reaches key place i) :
      ∃ d, (s.modify place f).context? i = some d ∧ d.parent? = c.parent? ∧
        d.binding? key = c.binding? key := by
    obtain ⟨d, hd, hparent, hbinding⟩ := exists_context?_of_write hc hf place
    refine ⟨d, hd, hparent, (hbinding key).trans (if_neg ?_)⟩
    rintro ⟨rfl, hkey⟩
    exact hi hkey .here
  induction h with
  | found hc hfound =>
    obtain ⟨d, hd, _, hsame⟩ := hkeeps hc hmiss
    exact .found hd (hsame.trans hfound)
  | missing hc hfound hparent =>
    obtain ⟨d, hd, hparent', hsame⟩ := hkeeps hc hmiss
    exact .missing hd (hsame.trans hfound) (hparent'.trans hparent)
  | outwards hc hfound hparent _ ih =>
    obtain ⟨d, hd, hparent', hsame⟩ := hkeeps hc hmiss
    exact .outwards hd (hsame.trans hfound) (hparent'.trans hparent)
      (ih fun hkey hreaches => hmiss hkey (.outwards hc hfound hparent hreaches))

/-- What a search comes to is what the look-up finds. -/
theorem Ranked.find?_eq (hs : s.Ranked) (h : s.Searches (·.binding? key) scope result) :
    s.find? scope key = result := by
  have hscope : scope < s.size := by cases h <;> exact lt_size ‹_›
  rw [find?_eq_lookup]
  exact (hs.searchable _ _ scope hscope).unique h

section Set

variable (hs : s.Ranked) (hscope : scope < s.size)

include hs hscope

/-- What is written is found from wherever the look-up comes to it. -/
theorem Ranked.find?_set_of_reaches {name : String} (h : s.Reaches (b.space, name) place scope) :
    (s.set place name b).find? scope (b.space, name) = some b := by
  obtain ⟨f, hf, heq⟩ := set_eq_modify s place name b
  rw [heq]
  exact (hs.modify hf.rebinds place).find?_eq (h.searches_write hf hscope hs)

/-- All other look-ups find what they found before. -/
theorem Ranked.find?_set_of_not_reaches {name : String}
    (h : key = (b.space, name) → ¬s.Reaches key place scope) :
    (s.set place name b).find? scope key = s.find? scope key := by
  obtain ⟨f, hf, heq⟩ := set_eq_modify s place name b
  have hsearch := hs.searchable _ (·.binding? key) scope hscope
  rw [heq, find?_eq_lookup s]
  exact (hs.modify hf.rebinds place).find?_eq (hsearch.write hf h)

end Set

end Scopes

namespace Machine

/-- The machine behind a look-up of a name that leaves a warning if the name is missing. -/
def afterGet (m : Machine) (scope : ScopeId) : Namespace × String → Machine
  | (.variable, name) => (m.getVariable scope name).1
  | (.module, name) => (m.getModule scope name).1
  | (.function, name) => (m.getFunction scope name).1

theorem orWarn_eq {α : Type} (m : Machine) (space : Namespace) (name : String)
    (found : Option α) :
    m.orWarn space name found = { m with log := m.log ++
      if found.isSome then [] else [⟨.warning, Missing.message ⟨space, name⟩⟩] } := by
  unfold orWarn
  split
  · rw [List.append_nil]
  · rfl

theorem afterGet_eq (m : Machine) (scope : ScopeId) (key : Namespace × String) :
    m.afterGet scope key = { m with log := m.log ++
      if (m.scopes.find? scope key).isSome then []
      else [⟨.warning, Missing.message ⟨key.1, key.2⟩⟩] } := by
  obtain ⟨_ | _ | _, name⟩ := key
  all_goals
    rw [Scopes.find?, Option.isSome_map]
    exact orWarn_eq ..

/-- A variable in an expression is looked up like any other. -/
theorem evaluateIn_variable (m : Machine) (scope : ScopeId) (name : String) :
    m.evaluateIn scope (·.variable name) =
      ((m.getVariable scope name).1, .ok (m.getVariable scope name).2) := by
  have hfind : (m.scopes.bindings scope m.operators).find name =
      m.scopes.findVariable scope name := rfl
  rw [evaluateIn, getVariable, orWarn_eq, Bindings.variable, hfind]
  cases m.scopes.findVariable scope name <;> rfl

/-- In contexts whose parents are older than they are, what is written at a place is found from
every scope from which the look-up of its name comes to the place, and all other look-ups, of other
names or of names of another kind, find what they found before. Where a look-up may leave a warning
it gives the same, for a missing variable the undefined value, and adds one warning with the name to
the log if the name is missing, and nothing else. -/
theorem names_shadow (m : Machine) (hs : m.scopes.Ranked) {scope : ScopeId}
    (hscope : scope < m.scopes.size) (place : ScopeId) (name : String) (b : Binding) :
    (m.scopes.Reaches (b.space, name) place scope →
      (m.scopes.set place name b).find? scope (b.space, name) = some b) ∧
    (∀ key : Namespace × String, (key = (b.space, name) → ¬m.scopes.Reaches key place scope) →
      (m.scopes.set place name b).find? scope key = m.scopes.find? scope key) ∧
    ∀ other : String,
      (m.getVariable scope other).2 = (m.scopes.findVariable scope other).getD .undefined ∧
      (m.getModule scope other).2 = m.scopes.findModule scope other ∧
      (m.getFunction scope other).2 = m.scopes.findFunction scope other ∧
      (∀ space : Namespace, m.afterGet scope (space, other) = { m with log := m.log ++
        if (m.scopes.find? scope (space, other)).isSome then []
        else [⟨.warning, "Ignoring unknown " ++ space.label ++ " '" ++ other ++ "'."⟩] }) ∧
      m.evaluateIn scope (·.variable other) =
        ((m.getVariable scope other).1, .ok (m.getVariable scope other).2) :=
  ⟨hs.find?_set_of_reaches hscope, fun _ => hs.find?_set_of_not_reaches hscope, fun other =>
    ⟨rfl, rfl, rfl, fun space => m.afterGet_eq scope (space, other),
      m.evaluateIn_variable scope other⟩⟩

/-- Three scopes inside of each other, of which the middle one has an `x`. A write of `x` to it is
seen from the inner one and one to the root is not, and neither changes the modules in view. -/
theorem names_shadow_nested :
    let m := ((Machine.new .standard).pushScope.1.setVariable "x" (.string "a")).pushScope.1
    let b : Binding := .variable (.string "b")
    (m.scopes.set 1 "x" b).find? 2 (.variable, "x") = some b ∧
      (m.scopes.set 0 "x" b).find? 2 (.variable, "x") =
        some (.variable (.string "a")) ∧
      (m.scopes.set 1 "x" b).find? 2 (.module, "echo") = some (.module (.builtin .echo)) ∧
      (m.afterGet 2 (.function, "x")).log = [⟨.warning, "Ignoring unknown function 'x'."⟩] := by
  intro m b
  have hm : m.WellFormed := ((Machine.new_wellFormed .standard 0).pushScope.modify 1
    (Context.Sets.value "x" (.string "a")).rebinds).pushScope
  have hinner : 2 < m.scopes.size := by decide
  obtain ⟨hseen, hothers, hget⟩ := names_shadow m hm.scopes.parents hinner 1 "x" b
  obtain ⟨_, hhidden, _⟩ := names_shadow m hm.scopes.parents hinner 0 "x" b
  have hmiddle : m.scopes.Reaches (.variable, "x") 1 2 := .outwards rfl rfl rfl .here
  have hroot : ¬m.scopes.Reaches (.variable, "x") 0 2 := by
    intro h
    have heq := h.find? hm.scopes
    cases heq
  refine ⟨hseen hmiddle, (hhidden _ fun _ => hroot).trans rfl,
    (hothers (.module, "echo") nofun).trans rfl, ?_⟩
  obtain ⟨_, _, _, hlog, _⟩ := hget "x"
  rw [hlog]
  rfl

end Machine

end SolidScript
