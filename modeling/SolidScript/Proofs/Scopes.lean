import SolidScript.Scopes

namespace SolidScript

namespace Names

variable {α : Type}

theorem find?_cons (n : String) (v : α) (names : Names α) (name : String) :
    find? ((n, v) :: names) name = if name = n then some v else find? names name := by
  rw [find?, List.lookup_cons]
  by_cases h : name = n
  · simp [h]
  · simp [h, beq_false_of_ne h, find?]

/-- A name that is given a meaning has it from then on, and all others keep theirs. -/
theorem find?_insert (name : String) (value : α) (names : Names α) (other : String) :
    (names.insert name value).find? other =
      if other = name then some value else names.find? other := by
  induction names with
  | nil => rw [insert, find?_cons]
  | cons entry rest ih =>
    obtain ⟨n, v⟩ := entry
    rw [insert]
    split
    · next hname =>
      rw [find?_cons, find?_cons, ← hname]
      split <;> rfl
    · next hname =>
      split
      · rw [find?_cons]
      · rw [find?_cons, find?_cons, ih]
        by_cases hn : other = n
        · have hother : other ≠ name := fun h => hname (h.symm.trans hn)
          simp only [hn, if_true, if_neg (hn ▸ hother)]
        · simp only [if_neg hn]

/-- A name that has a meaning does not lose it. -/
theorem find?_insert_isSome {names : Names α} {other : String} (h : (names.find? other).isSome)
    (name : String) (value : α) : ((names.insert name value).find? other).isSome := by
  rw [find?_insert]
  split
  · rfl
  · exact h

end Names

/-- The change keeps the number and the parent of a context. -/
structure Context.Rebinds (f : Context → Context) : Prop where
  id : ∀ c, (f c).id = c.id
  parent? : ∀ c, (f c).parent? = c.parent?

namespace Scopes

variable {s : Scopes} {scope : ScopeId} {parent? : Option ScopeId} {f : Context → Context}

/-- How many contexts there are. -/
def size (s : Scopes) : Nat := s.contexts.length

theorem context?_isSome : (s.context? scope).isSome ↔ scope < s.size := by
  simp [context?, size]

theorem lt_size {c : Context} (h : s.context? scope = some c) : scope < s.size := by
  rw [← context?_isSome, h]
  rfl

theorem mem_of_context? {c : Context} (h : s.context? scope = some c) : c ∈ s.contexts :=
  List.mem_of_getElem? h

@[simp] theorem size_create (s : Scopes) (parent? : Option ScopeId) :
    (s.create parent?).1.size = s.size + 1 := by
  simp [create, size]

@[simp] theorem size_modify (s : Scopes) (scope : ScopeId) (f : Context → Context) :
    (s.modify scope f).size = s.size := by
  simp [modify, size]

/-- The context that is added last. -/
def fresh (s : Scopes) (parent? : Option ScopeId) : Context := ⟨s.nextId, parent?, [], [], []⟩

theorem context?_create (s : Scopes) (parent? : Option ScopeId) (scope : ScopeId) :
    (s.create parent?).1.context? scope =
      if scope = s.size then some (s.fresh parent?) else s.context? scope := by
  obtain hlt | rfl | hgt := Nat.lt_trichotomy scope s.size
  · rw [if_neg (Nat.ne_of_lt hlt)]
    exact List.getElem?_append_left hlt
  · simp [create, context?, size, fresh]
  · rw [if_neg (Nat.ne_of_gt hgt)]
    have hnone : s.context? scope = none := List.getElem?_eq_none (Nat.le_of_lt hgt)
    rw [hnone]
    refine List.getElem?_eq_none ?_
    simp only [create, List.length_append, List.length_singleton]
    exact hgt

theorem context?_modify (s : Scopes) (scope : ScopeId) (f : Context → Context) (other : ScopeId) :
    (s.modify scope f).context? other =
      if other = scope then (s.context? other).map f else s.context? other := by
  simp only [modify, context?, List.getElem?_modify]
  by_cases h : scope = other
  · simp [h]
  · simp [h, Ne.symm h]

/-- A change of names leaves the number and the parent that the context at a place had before. -/
theorem exists_context?_of_modify (hf : Context.Rebinds f) {i : ScopeId} {c : Context}
    (hc : (s.modify scope f).context? i = some c) :
    ∃ d, s.context? i = some d ∧ c.id = d.id ∧ c.parent? = d.parent? := by
  rw [context?_modify] at hc
  split at hc
  · obtain ⟨d, hd, rfl⟩ := Option.map_eq_some_iff.mp hc
    exact ⟨d, hd, hf.id d, hf.parent? d⟩
  · exact ⟨c, hc, rfl, rfl⟩

/-- Parents are older than their children. -/
def Ranked (s : Scopes) : Prop :=
  ∀ i c p, s.context? i = some c → c.parent? = some p → p < i

theorem Ranked.modify (h : s.Ranked) (hf : Context.Rebinds f) (scope : ScopeId) :
    (s.modify scope f).Ranked := by
  intro i c p hc hp
  obtain ⟨d, hd, _, hparent⟩ := exists_context?_of_modify hf hc
  exact h i d p hd (hparent ▸ hp)

/-- Every context but the first has an older one as its parent, and contexts are numbered in the
order of their creation. -/
structure WellFormed (s : Scopes) : Prop where
  nonempty : 0 < s.size
  root : ∀ i c, s.context? i = some c → (c.parent? = none ↔ i = 0)
  parents : ∀ i c p, s.context? i = some c → c.parent? = some p → p < i
  ids : s.contexts.Pairwise fun a b => a.id < b.id
  nextId : ∀ c ∈ s.contexts, c.id < s.nextId

namespace WellFormed

theorem create (h : s.WellFormed) (hscope : scope < s.size) :
    (s.create (some scope)).1.WellFormed where
  nonempty := by simp
  root i c hc := by
    rw [context?_create] at hc
    split at hc
    · next hi =>
      obtain rfl := Option.some.inj hc
      have hpos := h.nonempty
      simp only [fresh, reduceCtorEq, false_iff]
      exact Nat.ne_of_gt (hi ▸ hpos)
    · exact h.root i c hc
  parents i c p hc hp := by
    rw [context?_create] at hc
    split at hc
    · next hi =>
      obtain rfl := Option.some.inj hc
      obtain rfl := Option.some.inj hp
      exact hi ▸ hscope
    · exact h.parents i c p hc hp
  ids := by
    refine List.pairwise_append.mpr ⟨h.ids, List.pairwise_singleton _ _, fun a ha b hb => ?_⟩
    obtain rfl := List.mem_singleton.mp hb
    exact h.nextId a ha
  nextId c hc := by
    obtain hc | hc := List.mem_append.mp hc
    · exact Nat.lt_succ_of_lt (h.nextId c hc)
    · obtain rfl := List.mem_singleton.mp hc
      exact Nat.lt_succ_self _

/-- Numbers may be left out. -/
theorem elapse (h : s.WellFormed) {nextId : Nat} (hnext : s.nextId ≤ nextId) :
    { s with nextId }.WellFormed :=
  ⟨h.nonempty, h.root, h.parents, h.ids, fun c hc => Nat.lt_of_lt_of_le (h.nextId c hc) hnext⟩

theorem modify (h : s.WellFormed) (hf : Context.Rebinds f) (scope : ScopeId) :
    (s.modify scope f).WellFormed := by
  have hids : (s.modify scope f).contexts.map Context.id = s.contexts.map Context.id := by
    refine List.ext_getElem? fun i => ?_
    have hi := context?_modify s scope f i
    simp only [context?] at hi
    rw [List.getElem?_map, List.getElem?_map, hi]
    split
    · cases s.contexts[i]? <;> simp [hf.id]
    · rfl
  refine ⟨by simpa using h.nonempty, ?_, ?_, ?_, ?_⟩
  · intro i c hc
    obtain ⟨d, hd, _, hparent⟩ := exists_context?_of_modify hf hc
    rw [hparent]
    exact h.root i d hd
  · exact Ranked.modify h.parents hf scope
  · have hpairs := List.pairwise_map.mpr h.ids
    rw [← hids] at hpairs
    exact List.pairwise_map.mp hpairs
  · intro c hc
    obtain ⟨i, hi⟩ := List.mem_iff_getElem?.mp hc
    obtain ⟨d, hd, hid, _⟩ := exists_context?_of_modify hf hi
    rw [hid]
    exact h.nextId d (mem_of_context? hd)

end WellFormed

/-- The contexts on the way outwards from a place: there is one at every step, and the last one has
no parent. -/
inductive Ascends (s : Scopes) : ScopeId → List Context → Prop
  | root {i : ScopeId} {c : Context} (hc : s.context? i = some c) (hparent : c.parent? = none) :
    Ascends s i [c]
  | up {i p : ScopeId} {c : Context} {cs : List Context} (hc : s.context? i = some c)
    (hparent : c.parent? = some p) (hothers : Ascends s p cs) : Ascends s i (c :: cs)

/-- The search of a name, step by step: it looks at the context at a place, and goes on at the
parent if the name is not there. There is no bound on the steps, and no step if the place holds no
context. -/
inductive Searches {α : Type} (s : Scopes) (find : Context → Option α) :
    ScopeId → Option α → Prop
  | found {i : ScopeId} {c : Context} {a : α} (hc : s.context? i = some c)
    (hfound : find c = some a) : Searches s find i (some a)
  | missing {i : ScopeId} {c : Context} (hc : s.context? i = some c) (hfound : find c = none)
    (hparent : c.parent? = none) : Searches s find i none
  | outwards {i p : ScopeId} {c : Context} {result : Option α} (hc : s.context? i = some c)
    (hfound : find c = none) (hparent : c.parent? = some p) (hrest : Searches s find p result) :
    Searches s find i result

namespace Searches

variable {α : Type} {find : Context → Option α} {result : Option α}

/-- What a search finds is in some context; what it does not find is not in the last one either,
which has no parent. -/
theorem ends (h : s.Searches find scope result) :
    ∃ i c, s.context? i = some c ∧ find c = result ∧ (result = none → c.parent? = none) := by
  induction h with
  | found hc hfound => exact ⟨_, _, hc, hfound, fun h => by cases h⟩
  | missing hc hfound hparent => exact ⟨_, _, hc, hfound, fun _ => hparent⟩
  | outwards _ _ _ _ ih => exact ih

end Searches

/-- Wherever a search for a name begins, it comes to its end, and all its steps find a context. -/
def Searchable (s : Scopes) : Prop :=
  ∀ (α : Type) (find : Context → Option α) (scope : ScopeId), scope < s.size →
    s.Searches find scope (s.lookup scope find)

theorem Ascends.searches {α : Type} {cs : List Context} (h : s.Ascends scope cs)
    (find : Context → Option α) : s.Searches find scope (cs.findSome? find) := by
  induction h with
  | @root i c hc hparent =>
    rw [List.findSome?_singleton]
    cases hfound : find c with
    | none => exact .missing hc hfound hparent
    | some a => exact .found hc hfound
  | up hc hparent _ ih =>
    rw [List.findSome?_cons]
    split
    · next hfound => exact .found hc hfound
    · next hfound => exact .outwards hc hfound hparent ih

namespace Ranked

theorem chainFrom_ascends (h : s.Ranked) {fuel : Nat} (hfuel : scope < fuel)
    (hscope : scope < s.size) : s.Ascends scope (s.chainFrom fuel (some scope)) := by
  induction fuel generalizing scope with
  | zero => exact absurd hfuel (Nat.not_lt_zero _)
  | succ fuel ih =>
    obtain ⟨c, hc⟩ := Option.isSome_iff_exists.mp (context?_isSome.mpr hscope)
    rw [chainFrom, hc]
    cases hparent : c.parent? with
    | none =>
      have hnil : s.chainFrom fuel none = [] := by cases fuel <;> rfl
      simp only [hparent, hnil]
      exact .root hc hparent
    | some p =>
      have holder := h scope c p hc hparent
      simp only [hparent]
      exact .up hc hparent
        (ih (Nat.lt_of_lt_of_le holder (Nat.le_of_lt_succ hfuel)) (Nat.lt_trans holder hscope))

/-- The bound on the number of contexts is never reached. -/
theorem chain_ascends (h : s.Ranked) (hscope : scope < s.size) :
    s.Ascends scope (s.chain scope) :=
  h.chainFrom_ascends hscope hscope

/-- A look-up comes to its end inside the arena. -/
theorem searchable (h : s.Ranked) : s.Searchable :=
  fun _ find _ hscope => (h.chain_ascends hscope).searches find

end Ranked

theorem WellFormed.searchable (h : s.WellFormed) : s.Searchable := Ranked.searchable h.parents

end Scopes

end SolidScript
