import SolidScript.Proofs.Number.Reading
import SolidScript.Proofs.Parser.Primary
import SolidScript.Proofs.Text.Escape

namespace SolidScript

open Lexical

section Tokens

variable {source : String} {tokens : List Token} {t : Token}

theorem Token.literal_of_number {d : Number.Decimal} (hkind : t.kind = .number)
    (hread : Number.read? t.text = some d.toFloat) :
    Literal.ofToken? t = some (.number d.toFloat) := by
  rw [Literal.ofToken?, hkind]
  exact congrArg (Option.map Literal.number) hread

theorem Token.literal_of_string {cs : List Char} (hkind : t.kind = .string)
    (htext : Escape.inside t.text.toList = cs) :
    Literal.ofToken? t = some (.string (String.ofList (Escape.decode cs))) := by
  rw [Literal.ofToken?, hkind, htext]

theorem class_of_token (h : tokenize source = .ok tokens) (ht : t ∈ tokens)
    (hcomment : t.kind ≠ .comment) (hstring : t.kind ≠ .string) : Class t.kind t.text.toList := by
  obtain ⟨before, after, _, _, hscan⟩ := scans_of_token h ht
  have hclass := hscan.class hcomment hstring
  rwa [String.toList_append, List.take_left] at hclass

/-- Between its quotes, which are two, a string protects a character with every backslash. -/
theorem guarded_of_token (h : tokenize source = .ok tokens) (ht : t ∈ tokens)
    (hkind : t.kind = .string) :
    ∃ text : String, t.text = "\"" ++ text ++ "\"" ∧ Escape.Guarded text.toList := by
  obtain ⟨before, after, _, _, hscan⟩ := scans_of_token h ht
  have htake : (t.text ++ after).toList.take t.text.toList.length = t.text.toList := by
    rw [String.toList_append, List.take_left]
  rw [hkind] at hscan
  generalize hlength : t.text.toList.length = n at hscan htake
  cases hscan with
  | string _ _ _ hpos =>
    obtain ⟨text, htext, hguarded⟩ := quoted_take hpos
    rw [htake] at htext
    refine ⟨String.ofList text, ?_, ?_⟩
    · rw [← String.toList_inj, htext]
      simp
    · rwa [String.toList_ofList]

end Tokens

/-- What the rules take as a number is a numeral that can be read, and so the grammar takes every
number token as a literal. What they take as a string has a quote on either side, and decoding what
stands between them never comes to a backslash with nothing behind it; the value is what it decodes
to. -/
theorem token_spells_literal {source : String} {tokens : List Token} {t : Token}
    (h : tokenize source = .ok tokens) (ht : t ∈ tokens) :
    (t.kind = .number → Class .number t.text.toList ∧
      ∃ d, Number.Decimal.read? t.text.toList = some d ∧ Number.read? t.text = some d.toFloat ∧
        ∀ sub ts, (Parser.primary sub (t :: ts)).value? =
          some (.literal (.number d.toFloat) t, ts)) ∧
      (t.kind = .string → ∃ text : String, t.text = "\"" ++ text ++ "\"" ∧
        Escape.inside t.text.toList = text.toList ∧
        (∀ rest, Escape.ComesTo text.toList rest →
          (∃ out, Escape.decode text.toList = out ++ Escape.decode rest) ∧ rest ≠ ['\\']) ∧
        ∀ sub ts, (Parser.primary sub (t :: ts)).value? =
          some (.literal (.string (String.ofList (Escape.decode text.toList))) t, ts)) := by
  constructor
  · intro hkind
    have hclass := class_of_token h ht (by simp [hkind]) (by simp [hkind])
    rw [hkind] at hclass
    obtain ⟨d, hd, hread⟩ := Number.read?_of_class hclass
    refine ⟨hclass, d, hd, hread, fun sub ts => ?_⟩
    exact Parser.primary_of_literal (Token.literal_of_number hkind hread) sub ts
  · intro hkind
    obtain ⟨text, htext, hguarded⟩ := guarded_of_token h ht hkind
    have hinside : Escape.inside t.text.toList = text.toList := by
      have hchars : t.text.toList = '"' :: (text.toList ++ ['"']) := by simp [htext]
      rw [hchars, Escape.inside_quoted]
    refine ⟨text, htext, hinside, fun rest hrest => ?_, fun sub ts => ?_⟩
    · exact ⟨Escape.decode_comesTo hrest, (hguarded.comesTo hrest).ne_slash⟩
    · exact Parser.primary_of_literal (Token.literal_of_string hkind hinside) sub ts

/-- A numeral with no digit behind its point, and a string with the digits of a code point in front
of a protected backslash. -/
theorem token_spells_literal_slashes :
    ∃ tokens t u, tokenize "5.e-3+\"\\u00e9\\\\\"" = .ok tokens ∧ t ∈ tokens ∧ u ∈ tokens ∧
      t.kind = .number ∧ t.text = "5.e-3" ∧
      (∃ d : Number.Decimal, Number.read? "5.e-3" = some d.toFloat ∧
        ∀ sub ts, (Parser.primary sub (t :: ts)).value? =
          some (.literal (.number d.toFloat) t, ts)) ∧
      u.kind = .string ∧ u.text = "\"\\u00e9\\\\\"" ∧
      (∀ rest, Escape.ComesTo "\\u00e9\\\\".toList rest → rest ≠ ['\\']) ∧
      ∀ sub ts, (Parser.primary sub (u :: ts)).value? =
        some (.literal (.string "é\\") u, ts) := by
  obtain ⟨t, ht, hnumber, htext⟩ : ∃ t ∈ emitted "5.e-3+\"\\u00e9\\\\\"", t.kind = .number ∧
      t.text = "5.e-3" := by
    decide +kernel
  obtain ⟨u, hu, hstring, hquoted⟩ : ∃ u ∈ emitted "5.e-3+\"\\u00e9\\\\\"", u.kind = .string ∧
      u.text = "\"\\u00e9\\\\\"" := by
    decide +kernel
  have htokens : tokenize "5.e-3+\"\\u00e9\\\\\"" = .ok (emitted "5.e-3+\"\\u00e9\\\\\"") :=
    rfl
  obtain ⟨_, d, _, hread, hnumeral⟩ := (token_spells_literal htokens ht).1 hnumber
  obtain ⟨text, hsplit, _, hcomes, hvalue⟩ := (token_spells_literal htokens hu).2 hstring
  obtain rfl : text = "\\u00e9\\\\" := by
    have hsame : "\"" ++ "\\u00e9\\\\" ++ "\"" = "\"" ++ text ++ "\"" := hquoted.symm.trans hsplit
    rw [String.append_left_inj, String.append_right_inj] at hsame
    exact hsame.symm
  rw [htext] at hread
  exact ⟨_, t, u, htokens, ht, hu, hnumber, htext, ⟨d, hread, hnumeral⟩, hstring, hquoted,
    fun rest hrest => (hcomes rest hrest).2, hvalue⟩

end SolidScript
