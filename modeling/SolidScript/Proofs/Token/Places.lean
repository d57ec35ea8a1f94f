import SolidScript.Proofs.Text.Lines

/-!
The places of tokens. Blanks are taken as many as there are, and no other lexeme ends with a
carriage return, so no line break is torn apart between two lexemes. Hence the place of a token is
where moving on over all the text in front of it leads.
-/

namespace SolidScript

namespace Lexical

variable {cs rest : List Char} {kind : TokenKind} {n : Nat} {ls : List Lexeme}

section Ends

theorem run_forall {p : Char → Bool} : ∀ c ∈ cs.take (run p cs), p c := by
  induction cs with
  | nil => nofun
  | cons d cs ih =>
    rw [run_cons]
    split
    · next hd =>
      intro c hc
      rw [Nat.add_comm, List.take_succ_cons] at hc
      obtain rfl | hc := List.mem_cons.mp hc
      · exact hd
      · exact ih c hc
    · nofun

theorem run_stop {p : Char → Bool} : ∀ c ∈ (cs.drop (run p cs)).head?, p c = false := by
  induction cs with
  | nil => nofun
  | cons d cs ih =>
    rw [run_cons]
    split
    · rwa [Nat.add_comm, List.drop_succ_cons]
    · next hd =>
      intro c hc
      obtain rfl := Option.some.inj hc
      exact Bool.eq_false_iff.mpr hd

/-- A rule that stops wherever a text is cut off in front of a blank takes none at its end: without
that blank it would take less. -/
theorem last_ne_return_of_rule {rule : List Char → Nat} (hle : ∀ cs, rule cs ≤ cs.length)
    (hcut : ∀ cs tail n, Gap tail → rule cs ≤ n → rule (cs.take n ++ tail) = rule cs)
    (cs : List Char) : (cs.take (rule cs)).getLast? ≠ some '\r' := by
  intro hlast
  obtain ⟨front, hfront⟩ := List.getLast?_eq_some_iff.mp hlast
  have hgap : Gap ['\r'] := fun c hc => by
    obtain rfl := Option.some.inj hc
    rfl
  have hwhole : rule (front ++ ['\r']) = rule cs := by
    have hnone := hcut cs [] (rule cs) nofun (Nat.le_refl _)
    rwa [List.append_nil, hfront] at hnone
  have hless : rule (front ++ ['\r']) = rule front := by
    have hsome := hcut front ['\r'] front.length hgap (hle front)
    rwa [List.take_length] at hsome
  have hlength : front.length + 1 = rule cs := by
    have hcount := congrArg List.length hfront
    rw [List.length_take_of_le (hle cs), List.length_append] at hcount
    exact hcount.symm
  have hfrontLe := hle front
  omega

theorem name_last (cs : List Char) : (cs.take (name cs)).getLast? ≠ some '\r' :=
  last_ne_return_of_rule name_le (fun _ _ _ => name_take_append) cs

/-- A string ends with its closing quote. -/
theorem quoted_last (h : 0 < quoted cs) : (cs.take (quoted cs)).getLast? = some '"' := by
  obtain ⟨text, htake, _⟩ := quoted_take h
  rw [htake, ← List.cons_append, List.getLast?_concat]

/-- A block comment ends with the slash of its closing mark. -/
theorem commentBody_last (h : commentBody cs = some n) : (cs.take n).getLast? = some '/' := by
  refine commentBody_induction (P := fun cs n => (cs.take n).getLast? = some '/') ?_ ?_ ?_ ?_ h
  · exact fun cs => rfl
  · intro cs j k hj _ _ hk
    have hsplit : ('/' :: '*' :: cs).take (2 + j + k) =
        '/' :: '*' :: cs.take j ++ (cs.drop j).take k := by
      rw [Nat.add_assoc, Nat.add_comm, List.take_succ_cons, List.take_succ_cons, List.take_add]
      rfl
    rw [hsplit, List.getLast?_append, hk]
    rfl
  · exact fun cs _ => rfl
  · intro c cs k _ _ hk
    rw [Nat.add_comm, List.take_succ_cons, List.getLast?_cons, hk]
    rfl

theorem comment_last (h : 0 < comment cs) : (cs.take (comment cs)).getLast? ≠ some '\r' := by
  obtain ⟨rest, rfl⟩ | ⟨rest, k, rfl, hk⟩ := comment_cases h
  · intro hlast
    rw [comment_line, Nat.add_comm, List.take_succ_cons, List.take_succ_cons] at hlast
    have hmem := List.mem_of_getLast? hlast
    simp only [List.mem_cons, Char.reduceEq, false_or] at hmem
    have hplain := run_forall '\r' hmem
    cases hplain
  · have hcomment : comment ('/' :: '*' :: rest) = k + 2 := by
      rw [comment_block, hk, Option.map_some, Option.getD_some, Nat.add_comm]
    rw [hcomment, List.take_succ_cons, List.take_succ_cons, List.getLast?_cons, List.getLast?_cons,
      commentBody_last hk]
    decide

theorem punct_last (h : 0 < punct cs) : (cs.take (punct cs)).getLast? ≠ some '\r' := by
  have hpairs : ∀ l ∈ pairs, l.getLast? ≠ some '\r' := by decide
  have hsingles : '\r' ∉ singles := by decide
  cases cs with
  | nil => exact absurd h (Nat.lt_irrefl 0)
  | cons c cs =>
    have hcons := punct_cons (not_open_of_punct h)
    rw [hcons] at h ⊢
    split at h
    · next hpair =>
      rw [if_pos hpair, List.take_succ_cons]
      exact hpairs _ hpair
    · next hpair =>
      split at h
      · next hsingle =>
        rw [if_neg hpair, if_pos hsingle, List.take_succ_cons, List.take_zero]
        intro hlast
        exact hsingles (Option.some.inj hlast ▸ hsingle)
      · exact absurd h (Nat.lt_irrefl 0)

/-- No line break is torn apart behind a lexeme. -/
theorem scans_seam (h : Scans cs kind n) : Seam (cs.take n) (cs.drop n) := by
  cases h with
  | whitespace =>
    intro _ hfeed
    have hstop : isBlank '\n' = false := run_stop '\n' hfeed
    cases hstop
  | comment _ hpos => exact fun hlast => absurd hlast (comment_last hpos)
  | number =>
    exact fun hlast => absurd hlast
      (last_ne_return_of_rule number_le (fun _ _ _ => number_take_append) cs)
  | string _ _ _ hpos =>
    intro hlast
    rw [quoted_last hpos] at hlast
    exact absurd hlast (by decide)
  | special =>
    exact fun hlast => absurd hlast
      (last_ne_return_of_rule specialName_le (fun _ _ _ => specialName_take_append) cs)
  | keyword _ _ _ _ _ hpos =>
    rw [← name_of_keyword hpos]
    exact fun hlast => absurd hlast (name_last cs)
  | identifier => exact fun hlast => absurd hlast (name_last cs)
  | punct _ _ _ _ _ _ _ hpos => exact fun hlast => absurd hlast (punct_last hpos)

end Ends

section Places

/-- The place behind lexemes that are cut off a text is where moving on over their characters leads,
and it is not inside a line break. -/
theorem Cuts.place_stop (h : Cuts cs ls rest) (p : Position) :
    ∃ before, cs = before ++ rest ∧ Seam before rest ∧ (place p ls).2 = p.advance before := by
  induction h generalizing p with
  | done rest => exact ⟨[], rfl, .nil rest, rfl⟩
  | @lexeme cs rest kind n ls hfirst _ ih =>
    obtain ⟨before, hdrop, hseam, hstop⟩ := ih (p.advance (cs.take n))
    have hcut := scans_seam hfirst
    rw [hdrop] at hcut
    refine ⟨cs.take n ++ before, ?_, hcut.append hseam, ?_⟩
    · rw [List.append_assoc, ← hdrop, List.take_append_drop]
    · rw [Position.advance_append hcut.left, ← hstop]
      simp only [place, String.toList_ofList]

theorem Cuts.split {as bs : List Lexeme} (h : Cuts cs (as ++ bs) rest) :
    ∃ mid, Cuts cs as mid ∧ Cuts mid bs rest := by
  induction as generalizing cs with
  | nil => exact ⟨cs, .done cs, h⟩
  | cons l as ih =>
    cases h with
    | lexeme hfirst hothers =>
      obtain ⟨mid, has, hbs⟩ := ih hothers
      exact ⟨mid, .lexeme hfirst has, hbs⟩

/-- A token stands behind the lexemes before it. -/
theorem place_before {p : Position} {t : Token} (ht : t ∈ (place p ls).1) :
    ∃ as bs, ls = as ++ t.toLexeme :: bs ∧ (place p as).2 = ⟨t.offset, t.line, t.column⟩ := by
  induction ls generalizing p with
  | nil => cases ht
  | cons l ls ih =>
    obtain rfl | ht := List.mem_cons.mp ht
    · exact ⟨[], ls, rfl, rfl⟩
    · obtain ⟨as, bs, rfl, hplace⟩ := ih ht
      exact ⟨l :: as, bs, rfl, hplace⟩

end Places

end Lexical

open Lexical

/-- The place behind the first lexemes of a text is counted by its lines as it is by moving on. -/
theorem Lexical.Cuts.lineColumn {source : String} {ls : List Lexeme} {rest : List Char}
    (h : Cuts source.toList ls rest) :
    (LineIndex.ofSource source).lineColumn (place Position.start ls).2.offset =
      ((place Position.start ls).2.line, (place Position.start ls).2.column) := by
  obtain ⟨before, hsource, hseam, hstop⟩ := h.place_stop Position.start
  rw [hstop]
  exact LineIndex.lineColumn_advance hsource hseam

theorem lineColumn_of_token {source : String} {tokens : List Token} {t : Token}
    (h : tokenize source = .ok tokens) (ht : t ∈ tokens) :
    (LineIndex.ofSource source).lineColumn t.offset = (t.line, t.column) := by
  obtain ⟨ls, hcuts, rfl⟩ := tokenize_eq_ok_iff.mp h
  obtain ⟨as, bs, rfl, hplace⟩ := place_before ht
  obtain ⟨mid, has, _⟩ := hcuts.split
  have hcounted := has.lineColumn
  rwa [hplace] at hcounted

theorem lineColumn_of_lexError {source : String} {e : LexError} (h : tokenize source = .error e) :
    (LineIndex.ofSource source).lineColumn e.span.start = (e.place.line, e.place.column) := by
  obtain ⟨ls, c, cs, hcuts, _, rfl⟩ := tokenize_eq_error h
  rw [(LexError.span_faultAt c cs _).1]
  exact hcuts.lineColumn

end SolidScript
