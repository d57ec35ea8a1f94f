import SolidScript.Proofs.Number.Text
import SolidScript.Proofs.Token.Longest

namespace SolidScript.Number

open Lexical

variable {cs ds xs rest : List Char} {e : ℤ}

theorem takeSign_signed {sign : List Char} (hsign : sign ∈ [[], ['+'], ['-']]) (h : IsDigits ds) :
    ∃ negative, takeSign (sign ++ ds) = (negative, ds) := by
  obtain ⟨d, ds, rfl⟩ := List.exists_cons_of_ne_nil h.1
  simp only [List.mem_cons, List.not_mem_nil, or_false] at hsign
  obtain rfl | rfl | rfl := hsign
  · exact ⟨false, takeSign_of_isDigit (h.2 d List.mem_cons_self) ds⟩
  · exact ⟨false, rfl⟩
  · exact ⟨true, rfl⟩

theorem exists_readExponent? (h : IsExponent xs) : ∃ e, readExponent? xs = some e := by
  obtain ⟨hmark, hsign, hdigits⟩ := h
  obtain ⟨negative, htake⟩ := takeSign_signed hsign hdigits
  have hmark' := by simpa only [List.mem_cons, List.not_mem_nil, or_false] using hmark
  rw [readExponent?, htake]
  exact ⟨_, if_pos ⟨hmark', hdigits.1, List.all_eq_true.mpr hdigits.2⟩⟩

theorem exists_read?_of_mantissa (h : IsMantissa cs)
    (hrest : ∀ c, rest.head? = some c → c.isDigit = false ∧ c ≠ '.')
    (he : readExponent? rest = some e) : ∃ d, Decimal.read? (cs ++ rest) = some d := by
  have hstop : ∀ c, rest.head? = some c → c.isDigit = false := fun c hc => (hrest c hc).1
  cases h with
  | whole h =>
    have hread : Decimal.read? (pointed cs [] ++ rest) = _ :=
      Decimal.read?_pointed h.1 h.2 nofun hrest he
    rw [pointed, if_pos rfl, List.append_nil] at hread
    exact ⟨_, hread⟩
  | @pointed ds fs h hfraction =>
    have hfs : Digits fs := by
      obtain rfl | hfs := hfraction
      · exact nofun
      · exact hfs.2
    rw [List.append_assoc]
    exact ⟨_, Decimal.read?_point (fun hnone => h.1 hnone.1) h.2 hfs hstop he⟩
  | @leading fs h =>
    have hread : Decimal.read? ([] ++ '.' :: (fs ++ rest)) = _ :=
      Decimal.read?_point (fun hnone => h.1 hnone.2) nofun h.2 hstop he
    exact ⟨_, hread⟩

/-- The numerals of a source text can all be read. -/
theorem exists_read?_of_class (h : Class .number cs) : ∃ d, Decimal.read? cs = some d := by
  cases h with
  | plain h =>
    have hread : ∃ d, Decimal.read? (cs ++ []) = some d := exists_read?_of_mantissa h nofun rfl
    rwa [List.append_nil] at hread
  | @scaled ms xs h hexponent =>
    obtain ⟨e, he⟩ := exists_readExponent? hexponent
    have hhead := hexponent.head []
    rw [List.append_nil] at hhead
    exact exists_read?_of_mantissa h hhead he

/-- They have no sign of their own. -/
theorem takeSign_of_mantissa (h : IsMantissa cs) (rest : List Char) :
    takeSign (cs ++ rest) = (false, cs ++ rest) := by
  have hdigits {ds : List Char} (h : IsDigits ds) (tail : List Char) :
      takeSign (ds ++ tail) = (false, ds ++ tail) := by
    obtain ⟨d, ds, rfl⟩ := List.exists_cons_of_ne_nil h.1
    exact takeSign_of_isDigit (h.2 d List.mem_cons_self) _
  cases h with
  | whole h => exact hdigits h rest
  | pointed h =>
    rw [List.append_assoc]
    exact hdigits h _
  | leading => rfl

theorem takeSign_of_class (h : Class .number cs) : takeSign cs = (false, cs) := by
  cases h with
  | plain h =>
    have htake := takeSign_of_mantissa h []
    rwa [List.append_nil] at htake
  | scaled h => exact takeSign_of_mantissa h _

theorem read?_of_class {text : String} (h : Class .number text.toList) :
    ∃ d, Decimal.read? text.toList = some d ∧ read? text = some d.toFloat := by
  obtain ⟨d, hd⟩ := exists_read?_of_class h
  refine ⟨d, hd, ?_⟩
  simp only [read?, takeSign_of_class h, hd]
  rfl

end SolidScript.Number
