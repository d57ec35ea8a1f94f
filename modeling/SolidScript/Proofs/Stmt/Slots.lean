import Mathlib.Data.List.Induction
import SolidScript.Proofs.Stmt.Hoisting

namespace SolidScript.Stmt

variable {s t : Stmt} {ss ts seen : List Stmt} {key : Namespace × String}

/-- The last statement that declares the same, or the statement itself if it declares nothing. -/
def latest (ss : List Stmt) (s : Stmt) : Stmt := (ss.filter (s.redeclares ·)).getLast?.getD s

/-- The statements that do not repeat a declaration, neither one of those before them nor one of
those seen already. -/
def firsts (seen : List Stmt) : List Stmt → List Stmt
  | [] => []
  | s :: ss =>
    if seen.any (s.redeclares ·) then firsts (s :: seen) ss else s :: firsts (s :: seen) ss

theorem redeclares_of_declares? (hs : s.declares? = some key) :
    s.redeclares t ↔ t.declares? = some key := by
  rw [redeclares_iff]
  constructor
  · rintro ⟨key', hs', ht⟩
    rw [ht, ← hs', hs]
  · exact fun ht => ⟨key, hs, ht⟩

theorem redeclares_congr (h : s.declares? = t.declares?) (u : Stmt) :
    s.redeclares u = t.redeclares u := by
  rw [redeclares, redeclares, h]

theorem declares?_of_redeclares (h : s.redeclares t) : t.declares? = s.declares? := by
  obtain ⟨key, hs, ht⟩ := redeclares_iff.mp h
  exact ht.trans hs.symm

theorem declares?_latest (ss : List Stmt) (s : Stmt) : (latest ss s).declares? = s.declares? := by
  rw [latest]
  cases hlast : (ss.filter (s.redeclares ·)).getLast? with
  | none => rfl
  | some t =>
    have hmem := List.mem_of_getLast? hlast
    exact declares?_of_redeclares (List.mem_filter.mp hmem).2

/-- One more statement is the latest of those that declare the same. -/
theorem latest_concat (ss : List Stmt) (s t : Stmt) :
    latest (ss ++ [s]) t = if t.redeclares s then s else latest ss t := by
  rw [latest, List.filter_append]
  by_cases h : t.redeclares s
  · simp [h]
  · simp [h, latest]

theorem latest_concat_self (ss : List Stmt) (s : Stmt) : latest (ss ++ [s]) s = s := by
  rw [latest_concat]
  by_cases h : s.declares?.isSome
  · rw [if_pos (by simp [redeclares, h])]
  · have hnone (t : Stmt) : ¬s.redeclares t := by simp [redeclares, h]
    rw [if_neg (hnone s), latest, List.filter_eq_nil_iff.mpr fun t _ => hnone t]
    rfl

theorem firsts_append (seen ss ts : List Stmt) :
    firsts seen (ss ++ ts) = firsts seen ss ++ firsts (ss.reverse ++ seen) ts := by
  induction ss generalizing seen with
  | nil => rfl
  | cons s ss ih =>
    rw [List.cons_append, firsts, firsts, ih, List.reverse_cons, List.append_assoc,
      List.singleton_append]
    split <;> rfl

/-- What is repeated among statements without repetition is exchanged in its place. -/
theorem Distinct.settle_eq (h : Distinct ts) (s : Stmt) :
    Stmt.settle s ts = ts.map (fun t => if s.redeclares t then s else t) ++
      if ts.any (s.redeclares ·) then [] else [s] := by
  induction ts with
  | nil => rfl
  | cons t ts ih =>
    obtain ⟨hfirst, hrest⟩ := List.pairwise_cons.mp h
    by_cases hst : s.redeclares t
    · have hothers : ts.map (fun u => if s.redeclares u then s else u) = ts := by
        refine (List.map_congr_left fun u hu => if_neg fun hsu => hfirst u hu ?_).trans ts.map_id'
        exact redeclares_trans (redeclares_symm hst) hsu
      rw [settle_of_redeclares hst, List.map_cons, hothers, if_pos hst]
      simp [hst]
    · rw [settle_of_not_redeclares hst, ih hrest, List.map_cons, if_neg hst]
      simp [hst]

theorem hoist_concat (ss : List Stmt) (s : Stmt) : hoist (ss ++ [s]) = settle s (hoist ss) :=
  settleAll_append [] ss [s]

/-- What has been hoisted declares nothing twice. -/
theorem hoist_distinct (ss : List Stmt) : Distinct (hoist ss) := by
  induction ss using List.reverseRecOn with
  | nil => exact .nil
  | append_singleton ss s ih =>
    rw [hoist_concat]
    exact ih.settle s

/-- Hoisting loses no name. -/
theorem any_hoist (ss : List Stmt) (s : Stmt) :
    (hoist ss).any (s.redeclares ·) = ss.any (s.redeclares ·) := by
  rw [Bool.eq_iff_iff, List.any_eq_true, List.any_eq_true]
  refine ⟨fun ⟨t, ht, hst⟩ => ⟨t, mem_of_mem_hoist ht, hst⟩, ?_⟩
  induction ss using List.reverseRecOn with
  | nil => exact id
  | append_singleton ss u ih =>
    rintro ⟨t, ht, hst⟩
    rw [hoist_concat]
    obtain ht | ht := List.mem_append.mp ht
    · exact exists_redeclares_settle (ih ⟨t, ht, hst⟩) u
    · obtain rfl := List.mem_singleton.mp ht
      exact ⟨t, mem_settle_self t _, hst⟩

/-- Hoisting keeps the first declaration of each name, in the form of the last. -/
theorem hoist_eq (ss : List Stmt) : hoist ss = (firsts [] ss).map (latest ss) := by
  induction ss using List.reverseRecOn with
  | nil => rfl
  | append_singleton ss s ih =>
    have hkept : (hoist ss).map (fun t => if s.redeclares t then s else t) =
        (firsts [] ss).map (latest (ss ++ [s])) := by
      rw [ih, List.map_map]
      refine List.map_congr_left fun t _ => ?_
      have hsame : s.redeclares (latest ss t) ↔ t.redeclares s := by
        rw [← redeclares_congr (declares?_latest ss t)]
        exact ⟨redeclares_symm, redeclares_symm⟩
      rw [Function.comp_apply, latest_concat, if_congr hsame rfl rfl]
    have hadded : (if ss.any (s.redeclares ·) then [] else [s]) =
        (firsts (ss.reverse ++ []) [s]).map (latest (ss ++ [s])) := by
      rw [List.append_nil, firsts, List.any_reverse]
      split
      · rfl
      · simp [firsts, latest_concat_self]
    rw [hoist_concat, (hoist_distinct ss).settle_eq, any_hoist, hkept, hadded, firsts_append,
      List.map_append]

/-- The slot of a name is that of its first declaration, and what stands there is its last. Nothing
else that is left declares the name. -/
theorem hoist_slot {before : List Stmt} {first : Stmt} (hfirst : first.declares? = some key)
    (hbefore : ∀ s ∈ before, s.declares? ≠ some key) (rest : List Stmt) :
    ∃ post, hoist (before ++ first :: rest) =
        (firsts [] before).map (latest (before ++ first :: rest)) ++
          latest (before ++ first :: rest) first :: post ∧
      (∀ s ∈ (firsts [] before).map (latest (before ++ first :: rest)),
        s.declares? ≠ some key) ∧
      ∀ s ∈ post, s.declares? ≠ some key := by
  generalize hss : before ++ first :: rest = ss
  have hnew : (before.reverse ++ []).any (first.redeclares ·) = false := by
    rw [List.append_nil, List.any_reverse, List.any_eq_false]
    exact fun s hs hredeclares => hbefore s hs ((redeclares_of_declares? hfirst).mp hredeclares)
  have hhoist : hoist ss = (firsts [] before).map (latest ss) ++ latest ss first ::
      (firsts (first :: (before.reverse ++ [])) rest).map (latest ss) := by
    rw [hoist_eq, ← hss, firsts_append, firsts, hnew, List.map_append]
    rfl
  have hslot : (latest ss first).declares? = some key := (declares?_latest ss first).trans hfirst
  have hdistinct := hoist_distinct ss
  rw [hhoist] at hdistinct
  obtain ⟨_, hafter, hacross⟩ := List.pairwise_append.mp hdistinct
  refine ⟨_, hhoist, fun s hs hkey => hacross s hs _ List.mem_cons_self ?_, fun s hs hkey => ?_⟩
  · exact redeclares_symm ((redeclares_of_declares? hslot).mpr hkey)
  · exact (List.pairwise_cons.mp hafter).1 s hs ((redeclares_of_declares? hslot).mpr hkey)

end SolidScript.Stmt
