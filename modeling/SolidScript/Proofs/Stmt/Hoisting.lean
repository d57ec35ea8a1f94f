import SolidScript.Stmt

namespace SolidScript.Stmt

variable {s t u : Stmt} {ss ts : List Stmt}

theorem redeclares_iff :
    s.redeclares t ↔ ∃ key, s.declares? = some key ∧ t.declares? = some key := by
  rw [redeclares, Bool.and_eq_true, decide_eq_true_eq, Option.isSome_iff_exists]
  constructor
  · rintro ⟨⟨key, hs⟩, hst⟩
    exact ⟨key, hs, hst ▸ hs⟩
  · rintro ⟨key, hs, ht⟩
    exact ⟨⟨key, hs⟩, hs.trans ht.symm⟩

theorem redeclares_symm (h : s.redeclares t) : t.redeclares s := by
  obtain ⟨key, hs, ht⟩ := redeclares_iff.mp h
  exact redeclares_iff.mpr ⟨key, ht, hs⟩

theorem redeclares_trans (hst : s.redeclares t) (htu : t.redeclares u) : s.redeclares u := by
  obtain ⟨key, hs, ht⟩ := redeclares_iff.mp hst
  obtain ⟨key', ht', hu⟩ := redeclares_iff.mp htu
  obtain rfl : key = key' := Option.some.inj (ht.symm.trans ht')
  exact redeclares_iff.mpr ⟨key, hs, hu⟩

/-- No two of the statements declare the same. -/
def Distinct (ss : List Stmt) : Prop := ss.Pairwise fun s t => ¬s.redeclares t

theorem settle_of_redeclares (h : s.redeclares t) : settle s (t :: ts) = s :: ts := if_pos h

theorem settle_of_not_redeclares (h : ¬s.redeclares t) : settle s (t :: ts) = t :: settle s ts :=
  if_neg h

theorem mem_settle (h : u ∈ settle s ts) : u = s ∨ u ∈ ts := by
  induction ts with
  | nil => exact .inl (List.mem_singleton.mp h)
  | cons t ts ih =>
    by_cases hst : s.redeclares t
    · rw [settle_of_redeclares hst] at h
      exact (List.mem_cons.mp h).imp_right (List.mem_cons_of_mem t)
    · rw [settle_of_not_redeclares hst] at h
      obtain rfl | h := List.mem_cons.mp h
      · exact .inr List.mem_cons_self
      · exact (ih h).imp_right (List.mem_cons_of_mem t)

theorem Distinct.settle (s : Stmt) (h : Distinct ts) : Distinct (settle s ts) := by
  induction ts with
  | nil => exact List.pairwise_singleton _ s
  | cons t ts ih =>
    obtain ⟨hfirst, hrest⟩ := List.pairwise_cons.mp h
    by_cases hst : s.redeclares t
    · rw [settle_of_redeclares hst]
      refine List.pairwise_cons.mpr ⟨fun u hu hsu => hfirst u hu ?_, hrest⟩
      exact redeclares_trans (redeclares_symm hst) hsu
    · rw [settle_of_not_redeclares hst]
      refine List.pairwise_cons.mpr ⟨fun u hu => ?_, ih hrest⟩
      obtain rfl | hu := mem_settle hu
      · exact fun hts => hst (redeclares_symm hts)
      · exact hfirst u hu

/-- A later declaration of the same leaves no trace of the earlier one. -/
theorem settle_settle (h : s.redeclares t) : settle s (settle t ts) = settle s ts := by
  induction ts with
  | nil => exact settle_of_redeclares h
  | cons u ts ih =>
    by_cases htu : t.redeclares u
    · rw [settle_of_redeclares htu, settle_of_redeclares h,
        settle_of_redeclares (redeclares_trans h htu)]
    · have hsu : ¬s.redeclares u := fun hsu => htu (redeclares_trans (redeclares_symm h) hsu)
      rw [settle_of_not_redeclares htu, settle_of_not_redeclares hsu,
        settle_of_not_redeclares hsu, ih]

/-- Where the slot is already there, it does not matter which of two declarations comes first. -/
theorem settle_comm (hslot : ∃ t ∈ ts, s.redeclares t) (hsu : ¬s.redeclares u) :
    settle s (settle u ts) = settle u (settle s ts) := by
  induction ts with
  | nil =>
    obtain ⟨_, hmem, _⟩ := hslot
    cases hmem
  | cons t ts ih =>
    by_cases hst : s.redeclares t
    · have hut : ¬u.redeclares t :=
        fun hut => hsu (redeclares_trans hst (redeclares_symm hut))
      have hus : ¬u.redeclares s := fun hus => hsu (redeclares_symm hus)
      rw [settle_of_redeclares hst, settle_of_not_redeclares hut, settle_of_redeclares hst,
        settle_of_not_redeclares hus]
    · obtain ⟨v, hmem, hsv⟩ := hslot
      obtain rfl | hmem := List.mem_cons.mp hmem
      · exact absurd hsv hst
      · by_cases hut : u.redeclares t
        · rw [settle_of_redeclares hut, settle_of_not_redeclares hsu,
            settle_of_not_redeclares hst, settle_of_redeclares hut]
        · rw [settle_of_not_redeclares hut, settle_of_not_redeclares hst,
            settle_of_not_redeclares hst, settle_of_not_redeclares hut, ih ⟨v, hmem, hsv⟩]

theorem mem_settle_self (s : Stmt) (ts : List Stmt) : s ∈ settle s ts := by
  induction ts with
  | nil => exact List.mem_singleton.mpr rfl
  | cons t ts ih =>
    by_cases hst : s.redeclares t
    · rw [settle_of_redeclares hst]
      exact List.mem_cons_self
    · rw [settle_of_not_redeclares hst]
      exact List.mem_cons_of_mem t ih

/-- A slot stays a slot. -/
theorem exists_redeclares_settle (hslot : ∃ t ∈ ts, s.redeclares t) (u : Stmt) :
    ∃ t ∈ settle u ts, s.redeclares t := by
  induction ts with
  | nil =>
    obtain ⟨_, hmem, _⟩ := hslot
    cases hmem
  | cons v ts ih =>
    obtain ⟨t, hmem, hst⟩ := hslot
    by_cases huv : u.redeclares v
    · rw [settle_of_redeclares huv]
      obtain rfl | hmem := List.mem_cons.mp hmem
      · exact ⟨u, List.mem_cons_self, redeclares_trans hst (redeclares_symm huv)⟩
      · exact ⟨t, List.mem_cons_of_mem u hmem, hst⟩
    · rw [settle_of_not_redeclares huv]
      obtain rfl | hmem := List.mem_cons.mp hmem
      · exact ⟨t, List.mem_cons_self, hst⟩
      · obtain ⟨w, hw, hsw⟩ := ih ⟨t, hmem, hst⟩
        exact ⟨w, List.mem_cons_of_mem v hw, hsw⟩

/-- Adds statements to a list one after the other. -/
def settleAll (done ss : List Stmt) : List Stmt := ss.foldl (fun done s => settle s done) done

theorem settleAll_cons (done : List Stmt) (s : Stmt) (ss : List Stmt) :
    settleAll done (s :: ss) = settleAll (settle s done) ss := rfl

theorem settleAll_append (done ss ts : List Stmt) :
    settleAll done (ss ++ ts) = settleAll (settleAll done ss) ts := List.foldl_append

theorem mem_settleAll {done : List Stmt} (h : u ∈ settleAll done ss) : u ∈ done ∨ u ∈ ss := by
  induction ss generalizing done with
  | nil => exact .inl h
  | cons s ss ih =>
    obtain h | h := ih h
    · obtain rfl | h := mem_settle h
      · exact .inr List.mem_cons_self
      · exact .inl h
    · exact .inr (List.mem_cons_of_mem s h)

/-- Nothing is added. -/
theorem mem_of_mem_hoist (h : u ∈ hoist ss) : u ∈ ss :=
  (mem_settleAll h).resolve_left List.not_mem_nil

theorem settle_settleAll (hslot : ∃ t ∈ ts, s.redeclares t) (hss : ∀ u ∈ ss, ¬s.redeclares u) :
    settle s (settleAll ts ss) = settleAll (settle s ts) ss := by
  induction ss generalizing ts with
  | nil => rfl
  | cons u ss ih =>
    obtain ⟨hu, hss⟩ := List.forall_mem_cons.mp hss
    rw [settleAll_cons, settleAll_cons, ih (exists_redeclares_settle hslot u) hss,
      settle_comm hslot hu]

/-- A statement that has been settled among others comes to the same slot as one behind them. -/
theorem settleAll_settle (done : List Stmt) (s : Stmt) (h : Distinct ts) :
    settleAll done (settle s ts) = settle s (settleAll done ts) := by
  induction ts generalizing done with
  | nil => rfl
  | cons t ts ih =>
    obtain ⟨hfirst, hrest⟩ := List.pairwise_cons.mp h
    by_cases hst : s.redeclares t
    · have hnone : ∀ u ∈ ts, ¬s.redeclares u :=
        fun u hu hsu => hfirst u hu (redeclares_trans (redeclares_symm hst) hsu)
      rw [settle_of_redeclares hst, settleAll_cons, settleAll_cons,
        settle_settleAll ⟨t, mem_settle_self t done, hst⟩ hnone, settle_settle hst]
    · rw [settle_of_not_redeclares hst, settleAll_cons, settleAll_cons, ih _ hrest]

/-- Statements may be hoisted before they are added to others. -/
theorem settleAll_hoist (done ss : List Stmt) : settleAll done (hoist ss) = settleAll done ss := by
  have hparts (ts : List Stmt) (hts : Distinct ts) :
      settleAll done (settleAll ts ss) = settleAll (settleAll done ts) ss := by
    induction ss generalizing ts with
    | nil => rfl
    | cons s ss ih =>
      rw [settleAll_cons, ih _ (hts.settle s), settleAll_settle done s hts, settleAll_cons]
  exact hparts [] .nil

theorem hoist_append (ss ts : List Stmt) : hoist (hoist ss ++ hoist ts) = hoist (ss ++ ts) := by
  change settleAll [] (hoist ss ++ hoist ts) = settleAll [] (ss ++ ts)
  rw [settleAll_append, settleAll_append, settleAll_hoist, settleAll_hoist]

end SolidScript.Stmt
