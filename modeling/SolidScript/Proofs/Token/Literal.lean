import SolidScript.Proofs.Parser.Primary
import SolidScript.Proofs.Text.Escape
import SolidScript.Proofs.Token.Emission

namespace SolidScript

namespace Lexical

open Escape

variable {cs text : List Char}

/-- Between quotes the text is a string for the rules. -/
theorem scans_string (h : EncodesAll cs text) (rest : List Char) :
    Scans ('"' :: (text ++ '"' :: rest)) .string (text.length + 2) := by
  have hquoted := quoted_of_guarded h.guarded rest
  have hstring : 0 < quoted ('"' :: (text ++ '"' :: rest)) := by omega
  rw [← hquoted]
  exact .string (blanks_of_not_blank (by decide))
    (comment_of_not_open fun h => absurd h (by decide))
    (number_of_not_numeric (by decide) (by decide)) hstring

end Lexical

open Escape Lexical

/-- A literal has the value that its text decodes to. -/
theorem Token.literal_of_encodesAll {t : Token} {value text : String} (hkind : t.kind = .string)
    (htext : t.text = "\"" ++ text ++ "\"") (h : EncodesAll value.toList text.toList) :
    Literal.ofToken? t = some (.string value) := by
  have hchars : t.text.toList = '"' :: (text.toList ++ ['"']) := by simp [htext]
  rw [Literal.ofToken?, hkind, hchars, inside_quoted, h.decode, String.ofList_toList]

/-- However the characters of a value are spelled, between quotes they are one string token with
exactly this text, whatever stands behind it, and what is read from that token is the value. -/
theorem literal_decodes {before after value text : String}
    (htext : EncodesAll value.toList text.toList)
    (h : Reaches (before ++ ("\"" ++ text ++ "\"" ++ after)) before) :
    ∃ t ∈ emitted (before ++ ("\"" ++ text ++ "\"" ++ after)),
      t.kind = .string ∧ t.Covers before ("\"" ++ text ++ "\"") ∧
      (∀ tokens, tokenize (before ++ ("\"" ++ text ++ "\"" ++ after)) = .ok tokens → t ∈ tokens) ∧
      ∀ sub ts, (Parser.primary sub (t :: ts)).value? = some (.literal (.string value) t, ts) := by
  have hchars : ("\"" ++ text ++ "\"" ++ after).toList =
      '"' :: (text.toList ++ '"' :: after.toList) := by
    simp
  have hlength : ("\"" ++ text ++ "\"").toList.length = text.toList.length + 2 := by
    simp
  have hscan := scans_string htext after.toList
  rw [← hchars, ← hlength] at hscan
  obtain ⟨t, ht, hkind, hcovers⟩ := h.emits hscan
  refine ⟨t, ht, hkind, hcovers, ?_, ?_⟩
  · intro tokens htokens
    rwa [← emitted_of_ok htokens]
  · intro sub ts
    exact Parser.primary_of_literal (Token.literal_of_encodesAll hkind hcovers.1 htext) sub ts

/-- Five characters, each spelled in another way, and the empty string at the start of a text.
Behind both stands a quote that nothing closes. -/
theorem literal_decodes_escapes :
    (∃ t ∈ emitted "x = \"\\u03aF\\\"é\\n\\\\\"; y = \"", t.kind = .string ∧
      t.span = ⟨4, 20⟩ ∧
      ∀ sub ts, (Parser.primary sub (t :: ts)).value? =
        some (.literal (.string "ί\"é\n\\") t, ts)) ∧
    ∃ t ∈ emitted "\"\"\"", t.kind = .string ∧ t.span = ⟨0, 2⟩ ∧
      ∀ sub ts, (Parser.primary sub (t :: ts)).value? = some (.literal (.string "") t, ts) := by
  have hcodePoint : Encodes 'ί' ['\\', 'u', '0', '3', 'a', 'F'] :=
    .codePoint (i := 0) (j := 3) (k := 10) (l := 15) (.inl rfl) (.inl rfl) (.inl rfl) (.inr rfl) rfl
  have htext : EncodesAll "ί\"é\n\\".toList "\\u03aF\\\"é\\n\\\\".toList :=
    .cons hcodePoint (.cons .quote (.cons (.raw (by decide) (by decide))
      (.cons .newline (.cons .slash .nil))))
  have hempty : EncodesAll "".toList "".toList := .nil
  have hreaches : Reaches ("x = " ++ ("\"" ++ "\\u03aF\\\"é\\n\\\\" ++ "\"" ++ "; y = \""))
      "x = " :=
    ⟨_, List.take_prefix 4 _, by decide +kernel⟩
  have hstart : Reaches ("" ++ ("\"" ++ "" ++ "\"" ++ "\"")) "" := Reaches.start _
  obtain ⟨t, ht, hkind, hcovers, _, hvalue⟩ := literal_decodes htext hreaches
  obtain ⟨u, hu, hkindEmpty, hcoversEmpty, _, hvalueEmpty⟩ := literal_decodes hempty hstart
  exact ⟨⟨t, ht, hkind, hcovers.2, hvalue⟩, u, hu, hkindEmpty, hcoversEmpty.2, hvalueEmpty⟩

end SolidScript
