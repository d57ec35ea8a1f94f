import SolidScript.Proofs.Token.Cutting

namespace SolidScript

/-- Whitespace and comments mean nothing to the grammar. -/
def Lexeme.isTrivia (l : Lexeme) : Bool := l.kind = .whitespace || l.kind = .comment

/-- The lexemes that the grammar reads. -/
def Lexeme.significant (ls : List Lexeme) : List Lexeme := ls.filter (!·.isTrivia)

theorem Lexeme.significant_cons (l : Lexeme) (ls : List Lexeme) :
    significant (l :: ls) = significant [l] ++ significant ls :=
  List.filter_append [l] ls

theorem Token.map_significant (ts : List Token) :
    (significant ts).map Token.toLexeme = Lexeme.significant (ts.map Token.toLexeme) := by
  rw [Lexeme.significant, List.filter_map]
  rfl

namespace Lexical

/-- The text is cut into lexemes up to its end, and these are its words. -/
def Words (cs : List Char) (words : List Lexeme) : Prop :=
  ∃ ls, Cuts cs ls [] ∧ Lexeme.significant ls = words

theorem Cuts.of_nil {ls : List Lexeme} {rest : List Char} (h : Cuts [] ls rest) : ls = [] := by
  cases h with
  | done => rfl
  | lexeme hfirst => exact absurd (scans_le hfirst) (Nat.not_le_of_lt (scans_pos hfirst))

theorem isBlank_of_blanks_eq {cs : List Char} (h : blanks cs = cs.length) :
    ∀ c ∈ cs, isBlank c := by
  have hwhole : cs.takeWhile isBlank = cs := (List.takeWhile_prefix isBlank).eq_of_length h
  rw [← hwhole]
  exact List.all_eq_true.mp List.all_takeWhile

namespace Words

variable {cs ds tail : List Char} {c : Char} {kind : TokenKind} {n : Nat} {ls ms : List Lexeme}

theorem nil : Words [] [] := ⟨[], .done [], rfl⟩

/-- The first lexeme is a word or nothing. -/
theorem lexeme (hfirst : Scans cs kind n) (h : Words (cs.drop n) ls) :
    Words cs (Lexeme.significant [⟨kind, String.ofList (cs.take n)⟩] ++ ls) := by
  obtain ⟨all, hcuts, rfl⟩ := h
  exact ⟨_, .lexeme hfirst hcuts, Lexeme.significant_cons _ all⟩

theorem drop_blanks (h : Words cs ls) : Words (cs.drop (blanks cs)) ls := by
  obtain ⟨all, hcuts, rfl⟩ := h
  cases hcuts with
  | done => exact nil
  | @lexeme _ _ kind n all hfirst hothers =>
    by_cases hkind : kind = .whitespace
    · subst hkind
      rw [← blanks_of_scans hfirst]
      exact ⟨all, hothers, rfl⟩
    · rw [blanks_of_significant hfirst hkind]
      exact ⟨_, .lexeme hfirst hothers, rfl⟩

theorem blank (hc : isBlank c) (h : Words cs ls) : Words (c :: cs) ls := by
  have hfirst : Scans (c :: cs) .whitespace (blanks cs + 1) := by
    rw [Nat.add_comm]
    exact scans_blank hc
  exact lexeme hfirst h.drop_blanks

theorem blank_append (hcs : ∀ c ∈ cs, isBlank c) (h : Words ds ls) : Words (cs ++ ds) ls := by
  induction cs with
  | nil => exact h
  | cons c cs ih =>
    obtain ⟨hc, hcs⟩ := List.forall_mem_cons.mp hcs
    exact (ih hcs).blank hc

/-- A text can be continued on a new line, provided that no comment in it is opened by a mark that
is directly followed by a slash. -/
theorem append (h : Words cs ls) (hno : ¬['/', '*', '/'] <:+: cs)
    (hnext : Words ('\n' :: ds) ms) : Words (cs ++ '\n' :: ds) (ls ++ ms) := by
  obtain ⟨all, hcuts, rfl⟩ := h
  generalize hend : [] = rest at hcuts
  induction hcuts with
  | done rest =>
    subst hend
    exact hnext
  | @lexeme cs rest kind n all hfirst hothers ih =>
    have hle := scans_le hfirst
    by_cases htrailing : kind = .whitespace ∧ n = cs.length
    · -- The blanks at the end run together with the line break.
      obtain ⟨rfl, hlength⟩ := htrailing
      rw [hlength, List.drop_length] at hothers
      obtain rfl := hothers.of_nil
      exact hnext.blank_append (isBlank_of_blanks_eq (blanks_of_scans hfirst ▸ hlength))
    · have hmore : Scans (cs ++ '\n' :: ds) kind n := by
        refine scans_append hfirst hno ?_ fun hkind => ?_
        · rintro _ ⟨⟩
          rfl
        · have hne : n ≠ cs.length := fun hlength => htrailing ⟨hkind, hlength⟩
          omega
      have hshorter : ¬['/', '*', '/'] <:+: cs.drop n :=
        fun hin => hno (hin.trans (List.drop_suffix n cs).isInfix)
      have hrest := ih hshorter hend
      rw [← List.drop_append_of_le_length hle] at hrest
      have hwords := lexeme hmore hrest
      rwa [List.take_append_of_le_length hle, ← List.append_assoc,
        ← Lexeme.significant_cons] at hwords

end Words

/-- Wherever a blank follows it, or nothing, the lexeme is scanned as it is. -/
def Standalone (l : Lexeme) : Prop :=
  ∀ tail, Gap tail → Scans (l.text.toList ++ tail) l.kind l.text.toList.length

theorem Cuts.standalone {cs rest : List Char} {ls : List Lexeme} (h : Cuts cs ls rest) :
    ∀ l ∈ Lexeme.significant ls, Standalone l := by
  intro l hl
  obtain ⟨hmem, hkind⟩ := List.mem_filter.mp hl
  induction h with
  | done rest => cases hmem
  | @lexeme cs rest kind n ls hfirst _ ih =>
    obtain rfl | hmem := List.mem_cons.mp hmem
    · intro tail htail
      have hle := scans_le hfirst
      obtain ⟨hspace, hcomment⟩ : kind ≠ .whitespace ∧ kind ≠ .comment := by
        simpa [Lexeme.isTrivia] using hkind
      rw [String.toList_ofList, List.length_take, Nat.min_eq_left hle]
      exact scans_take_append hfirst hspace hcomment htail (Nat.le_refl n)
    · exact ih (List.mem_filter.mpr ⟨hmem, hkind⟩) hmem

theorem Words.standalone {l : Lexeme} {tail : List Char} {ls : List Lexeme}
    (hl : Standalone l) (hword : l.isTrivia = false) (htail : Gap tail) (h : Words tail ls) :
    Words (l.text.toList ++ tail) (l :: ls) := by
  have hsignificant : Lexeme.significant [l] = [l] := by simp [Lexeme.significant, hword]
  have hwords : Words _ _ := .lexeme (hl tail htail) (by rwa [List.drop_left])
  rwa [List.take_left, String.ofList_toList, hsignificant] at hwords

/-- Words with single spaces between them are the words again. -/
theorem Words.spaced {ls : List Lexeme} (hwords : ∀ l ∈ ls, l.isTrivia = false)
    (h : ∀ l ∈ ls, Standalone l) : Words (" ".intercalate (ls.map Lexeme.text)).toList ls := by
  rw [String.toList_intercalate, List.map_map]
  induction ls with
  | nil => exact nil
  | cons l ls ih =>
    obtain ⟨hword, hwords⟩ := List.forall_mem_cons.mp hwords
    obtain ⟨hl, h⟩ := List.forall_mem_cons.mp h
    have hrest := ih hwords h
    cases ls with
    | nil =>
      have hlast : Words (l.text.toList ++ []) [l] := .standalone hl hword nofun .nil
      rw [List.append_nil] at hlast
      rwa [List.map_singleton, List.intercalate_singleton]
    | cons m ls =>
      rw [List.map_cons, List.map_cons, List.intercalate_cons_cons, List.append_assoc]
      refine Words.standalone hl hword ?_ (.blank rfl hrest)
      rintro _ ⟨⟩
      rfl

end Lexical

open Lexical

theorem words_iff_tokenize {source : String} {words : List Lexeme} :
    Words source.toList words ↔ ∃ tokens, tokenize source = .ok tokens ∧
      (Token.significant tokens).map Token.toLexeme = words := by
  constructor
  · rintro ⟨ls, hcuts, rfl⟩
    refine ⟨_, tokenize_eq_ok_iff.mpr ⟨ls, hcuts, rfl⟩, ?_⟩
    rw [Token.map_significant, place_toLexeme]
  · rintro ⟨tokens, htokens, rfl⟩
    obtain ⟨ls, hcuts, rfl⟩ := tokenize_eq_ok_iff.mp htokens
    refine ⟨ls, hcuts, ?_⟩
    rw [Token.map_significant, place_toLexeme]

end SolidScript
