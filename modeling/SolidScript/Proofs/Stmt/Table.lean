import SolidScript.Proofs.Stmt.Slots

namespace SolidScript.Stmt

variable {s t : Stmt} {ss ts before : List Stmt} {key : Namespace × String} {slot : Nat}

theorem settle_append_self (h : ∀ t ∈ ts, ¬s.redeclares t) : settle s ts = ts ++ [s] := by
  induction ts with
  | nil => simp [settle]
  | cons t ts ih =>
    obtain ⟨hfirst, hrest⟩ := List.forall_mem_cons.mp h
    rw [settle_of_not_redeclares hfirst, ih hrest, List.cons_append]

/-- A repeated declaration comes to the first place where the name is declared. -/
theorem settle_eq_set (hplace : ts[slot]? = some t) (hst : s.redeclares t)
    (hbefore : ∀ i u, i < slot → ts[i]? = some u → ¬s.redeclares u) :
    settle s ts = ts.set slot s := by
  induction ts generalizing slot with
  | nil => simp at hplace
  | cons v ts ih =>
    cases slot with
    | zero =>
      obtain rfl : v = t := by simpa using hplace
      rw [settle_of_redeclares hst, List.set_cons_zero]
    | succ slot =>
      have hv : ¬s.redeclares v := hbefore 0 v (Nat.succ_pos slot) (by simp)
      rw [settle_of_not_redeclares hv, List.set_cons_succ, ih (by simpa using hplace)]
      intro i u hi hu
      exact hbefore (i + 1) u (Nat.succ_lt_succ hi) (by simpa using hu)

/-- The statements so far, and the slot of each name that is declared among them. -/
structure Table where
  slots : Namespace × String → Option Nat
  done : List Stmt

namespace Table

/-- Nothing has been seen yet. -/
def empty : Table := ⟨fun _ => none, []⟩

/-- Adds a statement. A name that has a slot keeps it; a new one gets the slot at the end. -/
def add (table : Table) (s : Stmt) : Table :=
  match s.declares? with
  | none => { table with done := table.done ++ [s] }
  | some key =>
    match table.slots key with
    | some slot => { table with done := table.done.set slot s }
    | none =>
      ⟨fun k => if k = key then some table.done.length else table.slots k, table.done ++ [s]⟩

/-- One pass over the statements. -/
def ofAll (ss : List Stmt) : Table := ss.foldl add empty

/-- The slot of a name is the one place where it is declared. -/
def Accurate (table : Table) : Prop :=
  ∀ key slot, table.slots key = some slot ↔ table.done[slot]?.bind declares? = some key

variable {table : Table}

theorem ofAll_concat (ss : List Stmt) (s : Stmt) : ofAll (ss ++ [s]) = (ofAll ss).add s := by
  simp [ofAll]

theorem empty_accurate : empty.Accurate := by
  simp [Accurate, empty]

theorem Accurate.none_of_mem (h : table.Accurate) (hslot : table.slots key = none)
    (ht : t ∈ table.done) : t.declares? ≠ some key := by
  intro hkey
  obtain ⟨slot, hplace⟩ := List.mem_iff_getElem?.mp ht
  have hsome := (h key slot).mpr (by simpa [hplace] using hkey)
  rw [hslot] at hsome
  cases hsome

/-- Looking a slot up comes to the same as searching for the declaration. -/
theorem Accurate.add_done (h : table.Accurate) (s : Stmt) :
    (table.add s).done = settle s table.done := by
  unfold add
  cases hkey : s.declares? with
  | none =>
    have hnone : ∀ t ∈ table.done, ¬s.redeclares t := by simp [redeclares, hkey]
    rw [settle_append_self hnone]
  | some key =>
    cases hslot : table.slots key with
    | none =>
      have hnone : ∀ t ∈ table.done, ¬s.redeclares t := by
        intro t ht hst
        exact h.none_of_mem hslot ht ((redeclares_of_declares? hkey).mp hst)
      simp only [settle_append_self hnone, hslot]
    | some slot =>
      obtain ⟨t, hplace, ht⟩ := Option.bind_eq_some_iff.mp ((h key slot).mp hslot)
      have hst : s.redeclares t := (redeclares_of_declares? hkey).mpr ht
      simp only [hslot]
      refine (settle_eq_set hplace hst ?_).symm
      intro i u hi hu hsu
      -- A second place with the name would be its slot as well.
      have hother := (h key i).mpr (by simpa [hu] using (redeclares_of_declares? hkey).mp hsu)
      rw [hslot] at hother
      obtain rfl := Option.some.inj hother
      exact Nat.lt_irrefl _ hi

/-- The slots stay where they are, and what is added at the end gets a slot there if it declares a
name. -/
theorem Accurate.add (h : table.Accurate) (s : Stmt) : (table.add s).Accurate := by
  intro key slot
  unfold Table.add
  have hend : (table.done ++ [s])[slot]?.bind declares? =
      if slot = table.done.length then s.declares? else table.done[slot]?.bind declares? := by
    grind
  cases hkey : s.declares? with
  | none =>
    have hbeyond : table.slots key ≠ some table.done.length := by
      rw [Ne, h key]
      simp
    simp only [hend, hkey]
    grind [Accurate]
  | some own =>
    cases hslot : table.slots own with
    | none =>
      simp only [hslot, hend, hkey]
      grind [Accurate]
    | some place =>
      obtain ⟨t, hplace, ht⟩ := Option.bind_eq_some_iff.mp ((h own place).mp hslot)
      have hsame : (table.done.set place s)[slot]?.bind declares? =
          table.done[slot]?.bind declares? := by
        grind
      simp only [hslot, hsame]
      exact h key slot

theorem ofAll_accurate (ss : List Stmt) : (ofAll ss).Accurate := by
  induction ss using List.reverseRecOn with
  | nil => exact empty_accurate
  | append_singleton ss s ih =>
    rw [ofAll_concat]
    exact ih.add s

theorem ofAll_done (ss : List Stmt) : (ofAll ss).done = hoist ss := by
  induction ss using List.reverseRecOn with
  | nil => rfl
  | append_singleton ss s ih =>
    rw [ofAll_concat, (ofAll_accurate ss).add_done, ih, hoist_concat]

end Table

/-- What is left of the statement that stands behind `n` others: itself if it declares nothing, the
last declaration of its name if it is the first one, and nothing if it is a later one. -/
def kept (ss : List Stmt) (s : Stmt) (n : Nat) : List Stmt :=
  match s.declares? with
  | none => [s]
  | some key =>
    if (ss.take n).any (·.declares? = some key) then []
    else (ss.filter (·.declares? = some key)).getLast?.toList

theorem kept_eq (hs : s ∈ ss) (n : Nat) :
    kept ss s n = if (ss.take n).any (s.redeclares ·) then [] else [latest ss s] := by
  cases hkey : s.declares? with
  | none =>
    have hnone (t : Stmt) : s.redeclares t = false := by simp [redeclares, hkey]
    have hlatest : latest ss s = s := by
      rw [latest, List.filter_eq_nil_iff.mpr (by simp [hnone])]
      rfl
    simp [kept, hkey, hnone, hlatest]
  | some key =>
    have hsame : (s.redeclares ·) = (fun t => decide (t.declares? = some key)) := by
      funext t
      rw [Bool.eq_iff_iff, decide_eq_true_iff]
      exact redeclares_of_declares? hkey
    have hmem : s ∈ ss.filter (·.declares? = some key) := by simp [hs, hkey]
    obtain ⟨last, hlast⟩ := Option.isSome_iff_exists.mp
      (List.getLast?_isSome.mpr (List.ne_nil_of_mem hmem))
    simp only [kept, hkey, latest, hsame, hlast, Option.getD_some, Option.toList_some]

/-- Going through the rest of the statements, with those before it seen already. -/
theorem map_firsts (h : before ++ ts = ss) :
    (firsts before.reverse ts).map (latest ss) =
      (ts.zipIdx before.length).flatMap fun (s, n) => kept ss s n := by
  induction ts generalizing before with
  | nil => rfl
  | cons s ts ih =>
    have hmem : s ∈ ss := by simp [← h]
    have htake : ss.take before.length = before := by rw [← h, List.take_left]
    have hsplit : (before ++ [s]) ++ ts = ss := by simpa using h
    have hrest := ih hsplit
    rw [List.reverse_append, List.length_append, List.length_singleton] at hrest
    rw [List.zipIdx_cons, List.flatMap_cons, ← hrest, firsts, List.any_reverse]
    simp only [kept_eq hmem, htake]
    split <;> simp

/-- No name is declared twice. -/
theorem Distinct.nodup (h : Distinct ts) : (ts.filterMap declares?).Nodup := by
  apply List.Pairwise.filterMap declares? _ h
  intro s t hst key hs key' ht
  rintro rfl
  exact hst (redeclares_iff.mpr ⟨key, hs, ht⟩)

/-- Hoisting goes through the statements in order. It keeps those that declare nothing, puts the
last declaration of each name in the place of the first, and leaves out the others. A table of slots
does it in one pass, and after it each slot is the place of its name. What is left declares each
name once, so that hoisting it again changes nothing, and statements may be hoisted in parts
first. -/
theorem hoist_keeps_last (ss : List Stmt) :
    (hoist ss = ss.zipIdx.flatMap fun (s, n) => kept ss s n) ∧
      (Table.ofAll ss).done = hoist ss ∧ (Table.ofAll ss).Accurate ∧
      ((hoist ss).filterMap declares?).Nodup ∧ hoist (hoist ss) = hoist ss ∧
      ∀ ts, hoist (ss ++ ts) = hoist (hoist ss ++ hoist ts) := by
  refine ⟨?_, Table.ofAll_done ss, Table.ofAll_accurate ss, (hoist_distinct ss).nodup, ?_, ?_⟩
  · rw [hoist_eq]
    exact map_firsts (List.nil_append ss)
  · exact settleAll_hoist [] ss
  · intro ts
    exact (hoist_append ss ts).symm

end SolidScript.Stmt
