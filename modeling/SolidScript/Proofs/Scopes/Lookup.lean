import SolidScript.Proofs.Scopes

namespace SolidScript

/-- What a name stands for. -/
inductive Binding where
  | variable (value : Value)
  | module (module : Module)
  | function (definition : FunctionDefinition)

/-- What a name stands for in a context itself. -/
def Context.binding? (c : Context) : Namespace × String → Option Binding
  | (.variable, name) => (c.values.find? name).map .variable
  | (.module, name) => (c.modules.find? name).map .module
  | (.function, name) => (c.functions.find? name).map .function

/-- The change gives a name its meaning, and nothing else changes. -/
structure Context.Sets (f : Context → Context) (key : Namespace × String) (b : Binding) : Prop where
  rebinds : Rebinds f
  binding? : ∀ c other, (f c).binding? other = if other = key then some b else c.binding? other

namespace Context.Sets

/-- Names of one kind, of which one is given a meaning. -/
private theorem map_insert {α : Type} (names : Names α) (name other : String) (a : α)
    (make : α → Binding) (space : Namespace) :
    ((names.insert name a).find? other).map make =
      if (space, other) = (space, name) then some (make a) else (names.find? other).map make := by
  rw [Names.find?_insert]
  by_cases h : other = name
  · simp [h]
  · simp [h]

theorem value (name : String) (v : Value) :
    Sets (fun c => { c with values := c.values.insert name v }) (.variable, name)
      (.variable v) where
  rebinds := ⟨fun _ => rfl, fun _ => rfl⟩
  binding? := by
    rintro c ⟨_ | _ | _, other⟩
    · exact map_insert ..
    · exact (if_neg (by simp)).symm
    · exact (if_neg (by simp)).symm

theorem module (name : String) (module : Module) :
    Sets (fun c => { c with modules := c.modules.insert name module }) (.module, name)
      (.module module) where
  rebinds := ⟨fun _ => rfl, fun _ => rfl⟩
  binding? := by
    rintro c ⟨_ | _ | _, other⟩
    · exact (if_neg (by simp)).symm
    · exact map_insert ..
    · exact (if_neg (by simp)).symm

theorem function (name : String) (definition : FunctionDefinition) :
    Sets (fun c => { c with functions := c.functions.insert name definition }) (.function, name)
      (.function definition) where
  rebinds := ⟨fun _ => rfl, fun _ => rfl⟩
  binding? := by
    rintro c ⟨_ | _ | _, other⟩
    · exact (if_neg (by simp)).symm
    · exact (if_neg (by simp)).symm
    · exact map_insert ..

end Context.Sets

namespace Scopes

variable {s : Scopes} {scope place : ScopeId} {key other : Namespace × String} {b : Binding}

/-- What a name stands for in the context at a place, without a look at its parents. -/
def binding? (s : Scopes) (place : ScopeId) (key : Namespace × String) : Option Binding :=
  (s.context? place).bind (·.binding? key)

/-- What a name stands for in view of a place. -/
def find? (s : Scopes) (scope : ScopeId) : Namespace × String → Option Binding
  | (.variable, name) => (s.findVariable scope name).map .variable
  | (.module, name) => (s.findModule scope name).map .module
  | (.function, name) => (s.findFunction scope name).map .function

theorem find?_eq_lookup (s : Scopes) (scope : ScopeId) (key : Namespace × String) :
    s.find? scope key = s.lookup scope (·.binding? key) := by
  obtain ⟨_ | _ | _, name⟩ := key <;> exact List.map_findSome? ..

theorem binding?_modify {f : Context → Context} (hf : Context.Sets f key b)
    (hplace : place < s.size) :
    (s.modify scope f).binding? place other =
      if place = scope ∧ other = key then some b else s.binding? place other := by
  obtain ⟨c, hc⟩ := Option.isSome_iff_exists.mp (context?_isSome.mpr hplace)
  rw [binding?, binding?, context?_modify, hc]
  by_cases hscope : place = scope
  · simp [hscope, hf.binding?]
  · simp [hscope]

/-- The look-up of a name from a scope comes to a place: the contexts before it do not have the
name. -/
inductive Reaches (s : Scopes) (key : Namespace × String) (place : ScopeId) : ScopeId → Prop
  | here : Reaches s key place place
  | outwards {i p : ScopeId} {c : Context} (hc : s.context? i = some c)
    (hmissing : c.binding? key = none) (hparent : c.parent? = some p)
    (hrest : Reaches s key place p) : Reaches s key place i

theorem Searches.unique {α : Type} {find : Context → Option α} {x y : Option α}
    (hx : s.Searches find scope x) (hy : s.Searches find scope y) : x = y := by
  induction hx with
  | found hc hfound => cases hy <;> grind
  | missing hc hfound hparent => cases hy <;> grind
  | outwards hc hfound hparent _ ih =>
    cases hy with
    | found hc' hfound' => grind
    | missing hc' _ hparent' => grind
    | outwards hc' _ hparent' hrest' =>
      cases hc.symm.trans hc'
      cases hparent.symm.trans hparent'
      exact ih hrest'

/-- A look-up that does not find the name at a place goes on at the parent. -/
theorem WellFormed.find?_parent (hs : s.WellFormed) {c : Context} (hc : s.context? scope = some c)
    (hmissing : c.binding? key = none) (hparent : c.parent? = some place) :
    s.find? scope key = s.find? place key := by
  have hplace : place < s.size := Nat.lt_trans (hs.parents scope c place hc hparent) (lt_size hc)
  rw [find?_eq_lookup, find?_eq_lookup]
  refine (hs.searchable _ _ scope (lt_size hc)).unique ?_
  exact .outwards hc hmissing hparent (hs.searchable _ _ place hplace)

/-- A look-up that comes to a place finds what a look-up from there finds. -/
theorem Reaches.find? (h : s.Reaches key place scope) (hs : s.WellFormed) :
    s.find? scope key = s.find? place key := by
  induction h with
  | here => rfl
  | outwards hc hmissing hparent _ ih => exact (hs.find?_parent hc hmissing hparent).trans ih

/-- The look-up from the root finds what the root has. -/
theorem WellFormed.find?_root (hs : s.WellFormed) (key : Namespace × String) :
    s.find? 0 key = s.binding? 0 key := by
  obtain ⟨c, hc⟩ := Option.isSome_iff_exists.mp (context?_isSome.mpr hs.nonempty)
  have hroot : c.parent? = none := (hs.root 0 c hc).mpr rfl
  rw [find?_eq_lookup]
  refine (hs.searchable _ _ 0 hs.nonempty).unique ?_
  rw [binding?, hc, Option.bind_some]
  cases hfound : c.binding? key with
  | none => exact .missing hc hfound hroot
  | some b => exact .found hc hfound

/-- Every look-up of the name that comes to the place finds this. -/
def Finds (s : Scopes) (key : Namespace × String) (place : ScopeId) (b : Binding) : Prop :=
  ∀ scope, s.Reaches key place scope → s.find? scope key = some b

theorem WellFormed.finds (hs : s.WellFormed) (h : s.binding? 0 key = some b) : s.Finds key 0 b := by
  intro scope hreaches
  rw [hreaches.find? hs, hs.find?_root, h]

end Scopes

end SolidScript
