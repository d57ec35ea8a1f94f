import SolidScript.Proofs.Operators

namespace SolidScript

theorem Number.rank?_eq_none_iff (x : Float) : rank? x = none ↔ decode x = .nan := by
  unfold rank? decode
  by_cases h : infiniteMagnitude < magnitude x
  · simp only [if_pos h]
  · simp only [if_neg h]
    constructor
    · intro hnone
      split at hnone <;> cases hnone
    · intro hnan
      split at hnan
      · cases hnan
      · split at hnan <;> cases hnan

/-- Numbers and booleans, which are ordered together. -/
def Kind.isScalar : Kind → Bool
  | .number => true
  | .boolean => true
  | _ => false

/-- Whether values of these kinds have an order. -/
def Kind.Comparable (j k : Kind) : Prop := j.isScalar ∧ k.isScalar ∨ j = .string ∧ k = .string

theorem Kind.comparable_iff {j k : Kind} :
    j.Comparable k ↔ (j, k) ∈ Operators.orderedPairs := by
  unfold Comparable
  cases j <;> cases k <;> simp [isScalar, Operators.orderedPairs]

namespace Value

/-- Whether the value is the one that is not a number. -/
def isNaN : Value → Bool
  | .number x => Number.decode x = .nan
  | _ => false

/-- The rank of the number by which a number or a boolean is ordered. -/
def rank? (v : Value) : Option Int := (Operators.ordinal? v).bind Number.rank?

theorem isScalar_of_rank? {v : Value} {x : Int} (h : v.rank? = some x) : v.kind.isScalar := by
  cases v with
  | number => rfl
  | boolean => rfl
  | _ => cases h

theorem isNaN_of_rank? {v : Value} {x : Int} (h : v.rank? = some x) : v.isNaN = false := by
  cases v with
  | number n =>
    have hnan : Number.decode n ≠ .nan := by
      rw [Ne, ← Number.rank?_eq_none_iff]
      exact Option.ne_none_iff_exists'.mpr ⟨x, h⟩
    exact decide_eq_false hnan
  | _ => rfl

theorem exists_rank? {v : Value} (h : v.kind.isScalar) (hnan : v.isNaN = false) :
    ∃ x, v.rank? = some x := by
  cases v with
  | number n =>
    refine Option.ne_none_iff_exists'.mp fun hnone => ?_
    exact of_decide_eq_false hnan ((Number.rank?_eq_none_iff n).mp hnone)
  | boolean b => cases b <;> exact ⟨_, rfl⟩
  | _ => cases h

end Value

namespace Operators

variable {a b c : Value} {o : Ordering} {op : BinaryOp}

/-- Two values are in order by their ranks, or by their characters. -/
theorem order?_eq_some_iff : order? a b = some o ↔
    (∃ x y, a.rank? = some x ∧ b.rank? = some y ∧ compare x y = o) ∨
      ∃ s t, a = .string s ∧ b = .string t ∧ compare s t = o := by
  cases a <;> cases b <;>
    simp [order?, Value.rank?, ordinal?, Number.order?, Option.bind_eq_some_iff]

theorem order?_swap (h : order? a b = some o) : order? b a = some o.swap := by
  rw [order?_eq_some_iff] at h ⊢
  obtain ⟨x, y, hx, hy, rfl⟩ | ⟨s, t, hs, ht, rfl⟩ := h
  · exact .inl ⟨y, x, hy, hx, Std.OrientedCmp.eq_swap⟩
  · exact .inr ⟨t, s, ht, hs, Std.OrientedCmp.eq_swap⟩

theorem order?_swap_iff : order? a b = some o ↔ order? b a = some o.swap :=
  ⟨order?_swap, fun h => by simpa using order?_swap h⟩

theorem compare_trans {α : Type} [Ord α] [Std.TransOrd α] {x y z : α} (hxy : compare x y = o)
    (hyz : compare y z = o) : compare x z = o := by
  cases o with
  | lt => exact Std.TransCmp.lt_trans hxy hyz
  | eq => exact Std.TransCmp.eq_trans hxy hyz
  | gt => exact Std.TransCmp.gt_trans hxy hyz

theorem order?_trans (hab : order? a b = some o) (hbc : order? b c = some o) :
    order? a c = some o := by
  rw [order?_eq_some_iff] at hab hbc ⊢
  obtain ⟨x, y, hx, hy, hxy⟩ | ⟨s, t, hs, rfl, hst⟩ := hab
  · obtain ⟨y', z, hy', hz, hyz⟩ | ⟨_, _, rfl, _⟩ := hbc
    · cases hy.symm.trans hy'
      exact .inl ⟨x, z, hx, hz, compare_trans hxy hyz⟩
    · cases hy
  · obtain ⟨_, _, ht, _⟩ | ⟨t', u, ht, hu, htu⟩ := hbc
    · cases ht
    · cases ht
      exact .inr ⟨s, u, hs, hu, compare_trans hst htu⟩

/-- Only values of comparable kinds have an order. -/
theorem comparable_of_order? (h : order? a b = some o) : a.kind.Comparable b.kind := by
  obtain ⟨x, y, hx, hy, _⟩ | ⟨s, t, rfl, rfl, _⟩ := order?_eq_some_iff.mp h
  · exact .inl ⟨Value.isScalar_of_rank? hx, Value.isScalar_of_rank? hy⟩
  · exact .inr ⟨rfl, rfl⟩

theorem order?_eq_none (h : ¬a.kind.Comparable b.kind) : order? a b = none :=
  Option.eq_none_iff_forall_ne_some.mpr fun _ horder => h (comparable_of_order? horder)

/-- No inequality holds of values without an order. -/
theorem holds_none (hop : op ∈ BinaryOp.inequalities) : holds op none = false := by
  simp only [BinaryOp.inequalities, List.mem_cons, List.not_mem_nil, or_false] at hop
  obtain rfl | rfl | rfl | rfl := hop <;> rfl

/-- Values of comparable kinds have an order, unless one of them is not a number. -/
theorem exists_order? (h : a.kind.Comparable b.kind) (ha : a.isNaN = false)
    (hb : b.isNaN = false) : ∃ o, order? a b = some o := by
  obtain ⟨hleft, hright⟩ | ⟨hleft, hright⟩ := h
  · obtain ⟨x, hx⟩ := Value.exists_rank? hleft ha
    obtain ⟨y, hy⟩ := Value.exists_rank? hright hb
    exact ⟨_, order?_eq_some_iff.mpr (.inl ⟨x, y, hx, hy, rfl⟩)⟩
  · cases a <;> cases hleft
    cases b <;> cases hright
    exact ⟨_, rfl⟩

/-- A value has the same order as itself, unless it is not a number. -/
theorem order?_self (h : a.kind.Comparable a.kind) (hnan : a.isNaN = false) :
    order? a a = some .eq := by
  obtain ⟨hscalar, _⟩ | ⟨hstring, _⟩ := h
  · obtain ⟨x, hx⟩ := Value.exists_rank? hscalar hnan
    exact order?_eq_some_iff.mpr (.inl ⟨x, x, hx, hx, Std.ReflCmp.compare_self⟩)
  · cases a <;> cases hstring
    exact congrArg some Std.ReflCmp.compare_self

/-- Whether two values are equal: if they are the same in their order, or, being of a kind that is
compared by text, have the same text. -/
def same (l r : Value) : Bool :=
  order? l r = some .eq || (l.kind = r.kind && r.kind ∈ renderedKinds && l.text = r.text)

theorem same_iff : same a b ↔
    order? a b = some .eq ∨ a.kind = b.kind ∧ b.kind ∈ renderedKinds ∧ a.text = b.text := by
  simp [same, and_assoc]

/-- No kind that is compared by text has an order. -/
theorem not_comparable_of_rendered {j k : Kind} (h : k ∈ renderedKinds) : ¬j.Comparable k := by
  simp only [renderedKinds, List.mem_cons, List.not_mem_nil, or_false] at h
  obtain rfl | rfl | rfl := h <;> simp [Kind.Comparable, Kind.isScalar]

/-- A kind that has no order with itself is compared by text. -/
theorem rendered_of_not_comparable {k : Kind} (h : ¬k.Comparable k) : k ∈ renderedKinds := by
  rw [Kind.comparable_iff] at h
  cases k <;> revert h <;> decide

theorem same_of_comparable (h : a.kind.Comparable b.kind) :
    same a b = decide (order? a b = some .eq) := by
  rw [Bool.eq_iff_iff, same_iff, decide_eq_true_iff]
  exact or_iff_left fun ⟨_, hrendered, _⟩ => not_comparable_of_rendered hrendered h

theorem same_of_rendered (hkind : a.kind = b.kind) (hrendered : b.kind ∈ renderedKinds) :
    same a b = decide (a.text = b.text) := by
  rw [Bool.eq_iff_iff, same_iff, decide_eq_true_iff]
  constructor
  · rintro (horder | ⟨_, _, htext⟩)
    · exact absurd (comparable_of_order? horder) (not_comparable_of_rendered hrendered)
    · exact htext
  · exact fun htext => .inr ⟨hkind, hrendered, htext⟩

theorem same_of_others (h : ¬a.kind.Comparable b.kind)
    (hkinds : ¬(a.kind = b.kind ∧ b.kind ∈ renderedKinds)) : same a b = false := by
  rw [Bool.eq_false_iff, Ne, same_iff]
  rintro (horder | ⟨hkind, hrendered, _⟩)
  · exact h (comparable_of_order? horder)
  · exact hkinds ⟨hkind, hrendered⟩

theorem same_symm (h : same a b) : same b a := by
  rw [same_iff] at h ⊢
  obtain horder | ⟨hkind, hrendered, htext⟩ := h
  · exact .inl (order?_swap horder)
  · exact .inr ⟨hkind.symm, hkind ▸ hrendered, htext.symm⟩

theorem same_trans (hab : same a b) (hbc : same b c) : same a c := by
  rw [same_iff] at hab hbc ⊢
  obtain hab | ⟨hkind, hrendered, htext⟩ := hab
  · obtain hbc | ⟨hkind, hrendered, _⟩ := hbc
    · exact .inl (order?_trans hab hbc)
    · exact absurd (comparable_of_order? hab) (not_comparable_of_rendered (hkind ▸ hrendered))
  · obtain hbc | ⟨hkind', hrendered', htext'⟩ := hbc
    · have hswap := comparable_of_order? (order?_swap hbc)
      exact absurd hswap (not_comparable_of_rendered hrendered)
    · exact .inr ⟨hkind.trans hkind', hrendered', htext.trans htext'⟩

theorem same_self_iff : same a a ↔ a.isNaN = false := by
  rw [same_iff]
  constructor
  · rintro (horder | ⟨_, hrendered, _⟩)
    · obtain ⟨x, _, hx, _, _⟩ | ⟨s, _, rfl, _, _⟩ := order?_eq_some_iff.mp horder
      · exact Value.isNaN_of_rank? hx
      · rfl
    · cases a with
      | number => simp [Value.kind, renderedKinds] at hrendered
      | _ => rfl
  · intro hnan
    by_cases hcomparable : a.kind.Comparable a.kind
    · exact .inl (order?_self hcomparable hnan)
    · exact .inr ⟨rfl, rendered_of_not_comparable hcomparable, rfl⟩

/-- The inequalities hold of values that are in such an order. -/
theorem applyBinary_inequality (hop : op ∈ BinaryOp.inequalities) (a b : Value) :
    standard.applyBinary op a b = .ok (.boolean (holds op (order? a b))) := by
  have hcomparison : op ∈ BinaryOp.comparisons := List.mem_append_left [BinaryOp.eq, .ne] hop
  rw [applyBinary_comparison standard hcomparison]
  by_cases hkinds : a.kind.Comparable b.kind
  · rw [lookup_ordered hcomparison (Kind.comparable_iff.mp hkinds)]
    rfl
  · rw [lookup_unordered hcomparison (mt Kind.comparable_iff.mpr hkinds) (.inl hop),
      order?_eq_none hkinds, holds_none hop]
    simp only [BinaryOp.inequalities, List.mem_cons, List.not_mem_nil, or_false] at hop
    obtain rfl | rfl | rfl | rfl := hop <;> rfl

/-- Of `==` and `!=` one asks whether two values are equal and the other one denies it. -/
theorem applyBinary_equality (hop : op = .eq ∨ op = .ne) (a b : Value) :
    standard.applyBinary op a b =
      .ok (.boolean (if op = .eq then same a b else !same a b)) := by
  have hcomparison : op ∈ BinaryOp.comparisons := by obtain rfl | rfl := hop <;> decide
  rw [applyBinary_comparison standard hcomparison]
  by_cases hkinds : a.kind.Comparable b.kind
  · rw [lookup_ordered hcomparison (Kind.comparable_iff.mp hkinds), same_of_comparable hkinds]
    obtain rfl | rfl := hop <;> simp [comparison, holds]
  · by_cases hrendered : a.kind = b.kind ∧ b.kind ∈ renderedKinds
    · rw [same_of_rendered hrendered.1 hrendered.2, hrendered.1]
      obtain rfl | rfl := hop
      · rw [lookup_eq_rendered hrendered.2]
        rfl
      · rw [lookup_ne_rendered hrendered.2]
        simp [otherText]
    · rw [lookup_unordered hcomparison (mt Kind.comparable_iff.mpr hkinds) (.inr hrendered),
        same_of_others hkinds hrendered]
      obtain rfl | rfl := hop <;> rfl

theorem applyBinary_eq (a b : Value) :
    standard.applyBinary .eq a b = .ok (.boolean (same a b)) :=
  applyBinary_equality (.inl rfl) a b

theorem applyBinary_ne (a b : Value) :
    standard.applyBinary .ne a b = .ok (.boolean (!same a b)) :=
  applyBinary_equality (.inr rfl) a b

/-- The comparison comes out true. -/
def Says (o : Operators) (op : BinaryOp) (a b : Value) : Prop :=
  o.applyBinary op a b = .ok (.boolean true)

/-- How the comparisons of a table fit together. -/
structure ComparisonLaws (o : Operators) : Prop where
  /-- No comparison fails, and each comes out true or false. -/
  decided : ∀ op ∈ BinaryOp.comparisons, ∀ a b : Value,
    ∃ answer : Bool, o.applyBinary op a b = .ok (.boolean answer)
  ne_iff : ∀ a b : Value, o.Says .ne a b ↔ ¬o.Says .eq a b
  eq_symm : ∀ a b : Value, o.Says .eq a b → o.Says .eq b a
  eq_trans : ∀ a b c : Value, o.Says .eq a b → o.Says .eq b c → o.Says .eq a c
  /-- Every value is equal to itself but the one that is not a number. -/
  eq_self_iff : ∀ a : Value, o.Says .eq a a ↔ a.isNaN = false
  lt_iff_gt : ∀ a b : Value, o.Says .lt a b ↔ o.Says .gt b a
  le_iff_ge : ∀ a b : Value, o.Says .le a b ↔ o.Says .ge b a
  lt_trans : ∀ a b c : Value, o.Says .lt a b → o.Says .lt b c → o.Says .lt a c
  /-- Numbers and booleans in any mix, but for what is not a number, are less than each other, equal
  or greater, and only one of these; strings likewise. -/
  trichotomy : ∀ a b : Value, a.kind.Comparable b.kind → a.isNaN = false → b.isNaN = false →
    o.Says .lt a b ∧ ¬o.Says .eq a b ∧ ¬o.Says .gt a b ∨
      ¬o.Says .lt a b ∧ o.Says .eq a b ∧ ¬o.Says .gt a b ∨
      ¬o.Says .lt a b ∧ ¬o.Says .eq a b ∧ o.Says .gt a b
  le_iff : ∀ a b : Value, a.kind.Comparable b.kind → a.isNaN = false → b.isNaN = false →
    (o.Says .le a b ↔ o.Says .lt a b ∨ o.Says .eq a b)
  /-- Values of all other kinds have no order. -/
  incomparable : ∀ a b : Value, ¬a.kind.Comparable b.kind → ∀ op ∈ BinaryOp.inequalities,
    o.applyBinary op a b = .ok (.boolean false)

theorem says_inequality (hop : op ∈ BinaryOp.inequalities) :
    standard.Says op a b ↔ holds op (order? a b) := by
  simp [Says, applyBinary_inequality hop]

theorem says_eq : standard.Says .eq a b ↔ same a b := by
  simp [Says, applyBinary_eq]

theorem says_ne : standard.Says .ne a b ↔ ¬same a b := by
  simp [Says, applyBinary_ne]

theorem says_lt : standard.Says .lt a b ↔ order? a b = some .lt := by
  rw [says_inequality (by decide)]
  exact decide_eq_true_iff

theorem says_gt : standard.Says .gt a b ↔ order? a b = some .gt := by
  rw [says_inequality (by decide)]
  exact decide_eq_true_iff

theorem says_le :
    standard.Says .le a b ↔ order? a b = some .lt ∨ order? a b = some .eq := by
  rw [says_inequality (by decide)]
  simp [holds]

theorem says_ge :
    standard.Says .ge a b ↔ order? a b = some .gt ∨ order? a b = some .eq := by
  rw [says_inequality (by decide)]
  simp [holds]

/-- The comparisons of the table that every run starts with fit together. -/
theorem standard_comparisonLaws : ComparisonLaws standard where
  decided op hop a b := by
    by_cases hinequality : op ∈ BinaryOp.inequalities
    · exact ⟨_, applyBinary_inequality hinequality a b⟩
    · obtain rfl | rfl : op = .eq ∨ op = .ne := by
        revert hop hinequality
        cases op <;> decide
      · exact ⟨_, applyBinary_eq a b⟩
      · exact ⟨_, applyBinary_ne a b⟩
  ne_iff a b := says_ne.trans (not_congr says_eq.symm)
  eq_symm a b h := says_eq.mpr (same_symm (says_eq.mp h))
  eq_trans a b c hab hbc := says_eq.mpr (same_trans (says_eq.mp hab) (says_eq.mp hbc))
  eq_self_iff a := says_eq.trans same_self_iff
  lt_iff_gt a b := by
    rw [says_lt, says_gt]
    exact order?_swap_iff
  le_iff_ge a b := by
    rw [says_le, says_ge]
    exact or_congr order?_swap_iff order?_swap_iff
  lt_trans a b c hab hbc := says_lt.mpr (order?_trans (says_lt.mp hab) (says_lt.mp hbc))
  trichotomy a b h ha hb := by
    obtain ⟨o, ho⟩ := exists_order? h ha hb
    rw [says_lt, says_eq, says_gt, same_of_comparable h, ho]
    cases o <;> decide
  le_iff a b h _ _ := by
    rw [says_le, says_lt, says_eq, same_of_comparable h, decide_eq_true_iff]
  incomparable a b h op hop := by
    rw [applyBinary_inequality hop, order?_eq_none h, holds_none hop]

end Operators

end SolidScript
