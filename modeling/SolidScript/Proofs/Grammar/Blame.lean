import SolidScript.Proofs.Grammar.Ambiguity

namespace SolidScript

open Grammar

/-- Some program begins with the tokens. -/
def Viable (ts : List Token) : Prop := ∃ us d, parseTokens (ts ++ us) = .ok d

theorem Viable.of_append {ts : List Token} (us : List Token) (h : Viable (ts ++ us)) :
    Viable ts := by
  obtain ⟨vs, d, hread⟩ := h
  exact ⟨us ++ vs, d, by rwa [← List.append_assoc]⟩

namespace Grammar

variable {ts us rest : List Token} {t : Token}

theorem viable_of_done {statements : List (Derivation × List Token)}
    (h : program ts = .done statements rest) : Viable ts :=
  ⟨[], _, by rw [List.append_nil]; exact parseTokens_of_done h⟩

theorem viable_of_ended (h : program ts = .stuck []) : Viable ts := by
  obtain ⟨us, statements, hus⟩ := (program_predictsAt ts).ended h
  have hread := hus [] rfl
  rw [List.append_nil] at hread
  exact ⟨us, _, parseTokens_of_done hread⟩

/-- What stands in front of the token to blame has been read without fault. -/
theorem program_before_stuck (h : program (us ++ t :: rest) = .stuck (t :: rest)) :
    (∃ statements left, program us = .done statements left) ∨ program us = .stuck [] := by
  cases hbefore : program us with
  | done statements left => exact .inl ⟨statements, left, rfl⟩
  | stuck left =>
    cases left with
    | nil => exact .inr rfl
    | cons u left =>
      -- A token inside `us` would have been to blame for the longer list as well.
      obtain ⟨vs, rfl, hother⟩ := (program_predictsAt us).stuck hbefore
      have hlonger := hother (left ++ t :: rest)
      rw [List.append_assoc, List.cons_append, hlonger] at h
      have hlen := congrArg List.length (Outcome.stuck.inj h)
      simp only [List.length_cons, List.length_append] at hlen
      omega

theorem parseTokens_before_stuck (h : program (us ++ t :: rest) = .stuck (t :: rest)) :
    (∃ d, parseTokens us = .ok d) ∨
      parseTokens us = .error (.unexpectedEnd (Parser.endOffset us)) := by
  obtain ⟨statements, left, hread⟩ | hread := program_before_stuck h
  · exact .inl ⟨_, parseTokens_of_done hread⟩
  · exact .inr (parseTokens_of_ended hread)

theorem viable_before_stuck (h : program (us ++ t :: rest) = .stuck (t :: rest)) : Viable us := by
  obtain ⟨statements, left, hread⟩ | hread := program_before_stuck h
  · exact viable_of_done hread
  · exact viable_of_ended hread

/-- Where a token is to blame, it is to blame whatever comes behind it. -/
theorem parseTokens_after_stuck (h : program (us ++ t :: rest) = .stuck (t :: rest))
    (other : List Token) : parseTokens (us ++ t :: other) = .error (.unexpectedToken t) := by
  obtain ⟨vs, hvs, hother⟩ := (program_predictsAt _).stuck h
  obtain rfl : us = vs := List.append_cancel_right hvs
  exact parseTokens_of_stuck (hother other)

theorem not_viable_of_stuck (h : program (us ++ t :: rest) = .stuck (t :: rest))
    (other : List Token) : ¬Viable (us ++ t :: other) := by
  rintro ⟨vs, d, hread⟩
  rw [List.append_assoc, List.cons_append, parseTokens_after_stuck h] at hread
  cases hread

end Grammar

/-- Blame is exact. Tokens that are refused are refused at the furthest failure of any alternative.
This is their end if and only if they begin a program. Otherwise it is the least index up to which
no program begins with them, and the token there is to blame; whatever else begins with the tokens
up to this one is refused with the same token, and those in front of it are a program or the
beginning of one. -/
theorem parseTokens_blame (ts : List Token) (e : ParseError) (h : parseTokens ts = .error e) :
    ((∃ offset, e = .unexpectedEnd offset) ↔ Viable ts) ∧
      (Viable ts → e = .unexpectedEnd (Parser.endOffset ts) ∧
        (Parser.program ts).left? = some 0) ∧
      (¬Viable ts → ∃ k t, ts[k]? = some t ∧ e = .unexpectedToken t ∧
        (Parser.program ts).left? = some (ts.length - k) ∧
        ¬Viable (ts.take (k + 1)) ∧ (∀ j < k, Viable (ts.take (j + 1))) ∧
        (∀ us, parseTokens (ts.take (k + 1) ++ us) = .error (.unexpectedToken t)) ∧
        ((∃ d, parseTokens (ts.take k) = .ok d) ∨
          parseTokens (ts.take k) = .error (.unexpectedEnd (Parser.endOffset (ts.take k))))) := by
  cases hread : program ts with
  | done statements rest =>
    rw [parseTokens_of_done hread] at h
    cases h
  | stuck rest =>
    obtain ⟨_, hfails⟩ := (Parser.program_refines ts).2 rest hread
    rw [hfails]
    cases rest with
    | nil =>
      rw [parseTokens_of_ended hread] at h
      obtain rfl := Except.error.inj h
      have hviable := viable_of_ended hread
      exact ⟨⟨fun _ => hviable, fun _ => ⟨_, rfl⟩⟩, fun _ => ⟨rfl, rfl⟩,
        fun hnot => absurd hviable hnot⟩
    | cons t rest =>
      rw [parseTokens_of_stuck hread] at h
      obtain rfl := Except.error.inj h
      obtain ⟨us, rfl, _⟩ := (program_predictsAt ts).stuck hread
      have hnot := not_viable_of_stuck hread
      have hupTo : (us ++ t :: rest).take (us.length + 1) = us ++ [t] := by
        rw [List.take_length_add_append]
        rfl
      have hbefore : (us ++ t :: rest).take us.length = us := by simp
      refine ⟨⟨nofun, fun hviable => absurd hviable (hnot rest)⟩,
        fun hviable => absurd hviable (hnot rest), fun _ => ?_⟩
      refine ⟨us.length, t, by simp, rfl, by simp, ?_, fun j hj => ?_, fun vs => ?_, ?_⟩
      · rw [hupTo]
        exact hnot []
      · have htake : (us ++ t :: rest).take (j + 1) = us.take (j + 1) :=
          List.take_append_of_le_length hj
        rw [htake]
        apply Viable.of_append (us.drop (j + 1))
        rw [List.take_append_drop]
        exact viable_before_stuck hread
      · rw [hupTo, List.append_assoc]
        exact parseTokens_after_stuck hread vs
      · rw [hbefore]
        exact parseTokens_before_stuck hread

/-- A range needs a second bound, so the semicolon in its place is to blame: no program begins like
this. The parser has also tried a vector and then an expression for a statement, but neither of them
comes as far. -/
theorem parseTokens_blame_missing_bound :
    let ts := [Token.someName, Token.ofPunct "=", Token.ofPunct "[", Token.someName,
      Token.ofPunct ":", Token.ofPunct ";"]
    parseTokens ts = .error (.unexpectedToken (Token.ofPunct ";")) ∧ ¬Viable ts ∧
      (Parser.program ts).left? = some 1 := by
  intro ts
  have hread : parseTokens ts = .error (.unexpectedToken (Token.ofPunct ";")) := by
    apply parseTokens_of_stuck
    rfl
  obtain ⟨hend, _, hblamed⟩ := parseTokens_blame ts _ hread
  have hnot : ¬Viable ts := fun hviable => by
    obtain ⟨_, hoffset⟩ := hend.mpr hviable
    cases hoffset
  obtain ⟨k, t, hk, herror, hleft, _⟩ := hblamed hnot
  obtain rfl := ParseError.unexpectedToken.inj herror
  -- There is one semicolon, and it comes last.
  have hfirst : ∀ i < 5, ts[i]? ≠ some (Token.ofPunct ";") := by decide
  have hlow : ¬k < 5 := fun hlt => hfirst k hlt hk
  have hhigh : k < 6 := (List.getElem?_eq_some_iff.mp hk).1
  obtain rfl : k = 5 := by omega
  exact ⟨hread, hnot, hleft⟩

end SolidScript
