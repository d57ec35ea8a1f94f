import SolidScript.Operators

namespace SolidScript

/-- The operators that compare by order alone. -/
def BinaryOp.inequalities : List BinaryOp := [.lt, .le, .gt, .ge]

namespace Operators

variable {op : BinaryOp} {j k : Kind}

theorem lookup_ordered (hop : op ∈ BinaryOp.comparisons) (hkinds : (j, k) ∈ orderedPairs) :
    standard.binary.lookup (op, j, k) = some (comparison op) := by
  simp only [orderedPairs, List.mem_cons, Prod.mk.injEq, List.not_mem_nil, or_false] at hkinds
  simp only [BinaryOp.comparisons, List.mem_cons, List.not_mem_nil, or_false] at hop
  obtain ⟨rfl, rfl⟩ | ⟨rfl, rfl⟩ | ⟨rfl, rfl⟩ | ⟨rfl, rfl⟩ | ⟨rfl, rfl⟩ := hkinds
  all_goals obtain rfl | rfl | rfl | rfl | rfl | rfl := hop <;> rfl

theorem lookup_eq_rendered (hk : k ∈ renderedKinds) :
    standard.binary.lookup (.eq, k, k) = some sameText := by
  simp only [renderedKinds, List.mem_cons, List.not_mem_nil, or_false] at hk
  obtain rfl | rfl | rfl := hk <;> rfl

theorem lookup_ne_rendered (hk : k ∈ renderedKinds) :
    standard.binary.lookup (.ne, k, k) = some otherText := by
  simp only [renderedKinds, List.mem_cons, List.not_mem_nil, or_false] at hk
  obtain rfl | rfl | rfl := hk <;> rfl

theorem lookup_unordered (hop : op ∈ BinaryOp.comparisons) (hkinds : (j, k) ∉ orderedPairs)
    (hrendered : op ∈ BinaryOp.inequalities ∨ ¬(j = k ∧ k ∈ renderedKinds)) :
    standard.binary.lookup (op, j, k) = none := by
  have hall : ∀ op ∈ BinaryOp.comparisons, ∀ j ∈ Kind.all, ∀ k ∈ Kind.all,
      (j, k) ∉ orderedPairs → op ∈ BinaryOp.inequalities ∨ ¬(j = k ∧ k ∈ renderedKinds) →
      (standard.binary.lookup (op, j, k)).isNone := by
    decide +kernel
  have hkind (k : Kind) : k ∈ Kind.all := by cases k <;> decide
  exact Option.isNone_iff_eq_none.mp (hall op hop j (hkind j) k (hkind k) hkinds hrendered)

/-- Every operator but the logical ones is looked up in the table. -/
theorem applyBinary_of_lookup (o : Operators) (hand : op ≠ .and) (hor : op ≠ .or) (l r : Value) :
    o.applyBinary op l r = match o.binary.lookup (op, l.kind, r.kind) with
      | some handler => .ok (handler l r)
      | none => .ok (fallback op) := by
  cases op with
  | and => exact absurd rfl hand
  | or => exact absurd rfl hor
  | _ => rfl

theorem applyBinary_comparison (o : Operators) (hop : op ∈ BinaryOp.comparisons) (l r : Value) :
    o.applyBinary op l r = match o.binary.lookup (op, l.kind, r.kind) with
      | some handler => .ok (handler l r)
      | none => .ok (fallback op) := by
  apply applyBinary_of_lookup
  · rintro rfl
    simp [BinaryOp.comparisons] at hop
  · rintro rfl
    simp [BinaryOp.comparisons] at hop

end Operators

end SolidScript
