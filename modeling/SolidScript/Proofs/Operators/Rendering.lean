import SolidScript.Proofs.Operators.Comparison
import SolidScript.Proofs.Value.Text

namespace SolidScript.Operators

open Value (Plain Clear)

theorem says_eq_vector_iff (vs ws : List Value) :
    standard.Says .eq (.vector vs) (.vector ws) ↔
      (Value.vector vs).text = (Value.vector ws).text := by
  have hsame := same_of_rendered (a := .vector vs) (b := .vector ws) rfl
    (show Kind.vector ∈ renderedKinds by decide)
  rw [says_eq, hsame, decide_eq_true_iff]

/-- Vectors that are equal are found equal. Vectors made of strings, booleans, undefined values and
vectors of these are found equal only if they are, provided that no string in them has a quote with
a comma and a blank behind it or behind the closing brackets that follow it. The text of such a
value tells which one it is. -/
theorem vector_eq_iff_of_clear (vs ws : List Value) :
    (vs = ws → standard.Says .eq (.vector vs) (.vector ws)) ∧
      ((∀ v ∈ vs, v.Plain Clear) → (∀ w ∈ ws, w.Plain Clear) →
        standard.Says .eq (.vector vs) (.vector ws) → vs = ws) ∧
      ∀ v w : Value, v.Plain Clear → w.Plain Clear → v.text = w.text → v = w := by
  refine ⟨?_, fun hvs hws heq => ?_, fun v w => Value.text_injective⟩
  · rintro rfl
    exact (says_eq_vector_iff vs vs).mpr rfl
  · have htext := (says_eq_vector_iff vs ws).mp heq
    exact Value.vector.inj (Value.text_injective (.vector hvs) (.vector hws) htext)

/-- A string with quotes and a comma in it that no blank follows. It is told apart from two
strings. -/
theorem vector_eq_iff_of_clear_quotes :
    let tail : Value := .vector [.boolean true, .undefined]
    ¬standard.Says .eq (.vector [.string "a\",\"b", tail])
      (.vector [.string "a", .string "b", tail]) := by
  intro tail hsays
  have htail : tail.Plain Clear :=
    .vector (List.forall_mem_cons.mpr ⟨.boolean true, List.forall_mem_singleton.mpr .undefined⟩)
  have hleft : ∀ v ∈ [.string "a\",\"b", tail], v.Plain Clear := by
    simp only [List.forall_mem_cons]
    exact ⟨.string (by decide), htail, nofun⟩
  have hright : ∀ v ∈ [.string "a", .string "b", tail], v.Plain Clear := by
    simp only [List.forall_mem_cons]
    exact ⟨.string (by decide), .string (by decide), htail, nofun⟩
  obtain ⟨_, honly, _⟩ := vector_eq_iff_of_clear [.string "a\",\"b", tail]
    [.string "a", .string "b", tail]
  exact absurd (congrArg List.length (honly hleft hright hsays)) (by decide)

/-- One string that reads like two. -/
theorem vector_eq_of_quotes :
    (Value.vector [.string "a\", \"b"]).Plain (fun _ => True) ∧
      (Value.vector [.string "a", .string "b"]).Plain (fun _ => True) ∧
      standard.applyBinary .eq (.vector [.string "a\", \"b"])
        (.vector [.string "a", .string "b"]) = .ok (.boolean true) ∧
      Value.vector [.string "a\", \"b"] ≠ .vector [.string "a", .string "b"] := by
  refine ⟨.vector ?_, .vector ?_, ?_, fun heq => ?_⟩
  · exact List.forall_mem_singleton.mpr (.string trivial)
  · exact List.forall_mem_cons.mpr
      ⟨.string trivial, List.forall_mem_singleton.mpr (.string trivial)⟩
  · exact (says_eq_vector_iff _ _).mpr rfl
  · exact absurd (congrArg List.length (Value.vector.inj heq)) (by decide)

end SolidScript.Operators
