import SolidScript.Proofs.Token.Order
import SolidScript.Proofs.Token.Places
import SolidScript.Proofs.Token.Spacing

namespace SolidScript

/-- The text is what stands in the source between the ends of the span. -/
def Span.Holds (span : Span) (source text : String) : Prop :=
  source.toByteArray.extract span.start span.stop = text.toByteArray

instance (span : Span) (source text : String) : Decidable (span.Holds source text) :=
  inferInstanceAs (Decidable (_ = text.toByteArray))

theorem Span.Holds.unique {span : Span} {source a b : String} (ha : span.Holds source a)
    (hb : span.Holds source b) : a = b :=
  String.toByteArray_inj.mp (ha.symm.trans hb)

theorem Span.holds_between (before text after : String) :
    Span.Holds ⟨before.utf8ByteSize, before.utf8ByteSize + text.utf8ByteSize⟩
      (before ++ (text ++ after)) text := by
  rw [Span.Holds, String.toByteArray_append, String.toByteArray_append,
    ← String.size_toByteArray, ← String.size_toByteArray]
  exact extract_between _ _ _

namespace Lexical

variable {cs rest : List Char} {ls : List Lexeme}

/-- Lexemes that are cut off a text are cut off it as well if it ends behind them. -/
theorem Cuts.alone (h : Cuts cs ls rest) (hfirm : ∀ l ∈ ls, l.Firm) :
    Cuts (ls.flatMap (·.text.toList)) ls [] := by
  induction h with
  | done rest => exact .done []
  | @lexeme cs rest kind n ls hfirst hothers ih =>
    have hle := scans_le hfirst
    have hrest := hothers.text
    obtain ⟨hown, hlater⟩ := List.forall_mem_cons.mp hfirm
    have hinner := ih hlater
    rw [List.flatMap_cons, String.toList_ofList]
    generalize ls.flatMap (·.text.toList) = inner at hinner hrest ⊢
    have hwhole : cs.take (n + inner.length) = cs.take n ++ inner := by
      rw [List.take_add, ← hrest, List.take_left]
    have hscans := scans_take hfirst (Nat.le_add_right n inner.length) hown
    rw [hwhole] at hscans
    have hlength : (cs.take n).length = n := List.length_take_of_le hle
    have hcuts := Cuts.lexeme hscans (by rwa [List.drop_left' hlength])
    rwa [List.take_left' hlength] at hcuts

end Lexical

namespace Token

variable {start stop : Nat} {us vs : List Token}

theorem adjacent_append :
    Adjacent start (us ++ vs) stop ↔ ∃ mid, Adjacent start us mid ∧ Adjacent mid vs stop := by
  induction us generalizing start with
  | nil => exact ⟨fun h => ⟨start, rfl, h⟩, fun ⟨_, hmid, h⟩ => hmid ▸ h⟩
  | cons u us ih =>
    constructor
    · rintro ⟨hoffset, hrest⟩
      obtain ⟨mid, hus, hvs⟩ := ih.mp hrest
      exact ⟨mid, ⟨hoffset, hus⟩, hvs⟩
    · rintro ⟨mid, ⟨hoffset, hus⟩, hvs⟩
      exact ⟨hoffset, ih.mpr ⟨mid, hus, hvs⟩⟩

theorem Adjacent.size (h : Adjacent start us stop)
    (hlength : ∀ t ∈ us, t.length = t.text.utf8ByteSize) :
    stop = start + (String.join (us.map (·.text))).utf8ByteSize := by
  induction us generalizing start with
  | nil => exact h.symm
  | cons u us ih =>
    obtain ⟨hfirst, hothers⟩ := List.forall_mem_cons.mp hlength
    obtain ⟨rfl, hrest⟩ := h
    rw [ih hrest hothers, List.map_cons, String.join_cons, String.utf8ByteSize_append, Token.stop,
      hfirst, Nat.add_assoc]

theorem Adjacent.spanOf (h : Adjacent start us stop) (hus : us ≠ []) :
    Token.spanOf us = ⟨start, stop⟩ := by
  obtain ⟨first, last, hfirst, hlast, hspan⟩ := spanOf_eq hus
  obtain ⟨others, rfl⟩ := List.head?_eq_some_iff.mp hfirst
  obtain ⟨front, hfront⟩ := List.getLast?_eq_some_iff.mp hlast
  have hstop := h
  rw [hfront] at hstop
  obtain ⟨_, _, _, hend⟩ := adjacent_append.mp hstop
  rw [hspan, h.1, hend]

section Trimming

variable {ts core : List Token}

private theorem exists_front (ts : List Token) : ∃ before us, ts = before ++ us ∧
    significant us = significant ts ∧ us.head? = (significant ts).head? := by
  induction ts with
  | nil => exact ⟨[], [], rfl, rfl, rfl⟩
  | cons t ts ih =>
    cases ht : t.isTrivia with
    | true =>
      have hskip : significant (t :: ts) = significant ts := by simp [significant, ht]
      obtain ⟨before, us, rfl, hus, hhead⟩ := ih
      exact ⟨t :: before, us, rfl, by rw [hskip, hus], by rw [hskip, hhead]⟩
    | false => exact ⟨[], t :: ts, rfl, rfl, by simp [significant, ht]⟩

private theorem exists_back (ts : List Token) : ∃ us after, ts = us ++ after ∧
    significant us = significant ts ∧ us.getLast? = (significant ts).getLast? := by
  obtain ⟨before, us, hts, hus, hhead⟩ := exists_front ts.reverse
  refine ⟨us.reverse, before.reverse, ?_, ?_, ?_⟩
  · rw [← List.reverse_append, ← hts, List.reverse_reverse]
  · simp only [significant, List.filter_reverse] at hus ⊢
    rw [hus, List.reverse_reverse]
  · simp only [significant, List.filter_reverse, List.head?_reverse] at hhead ⊢
    rw [List.getLast?_reverse, hhead]

/-- Significant tokens that stand together are those of a piece that has the same ends. -/
theorem significant_slice (h : core <:+: significant ts) (hcore : core ≠ []) :
    ∃ before mid after, ts = before ++ (mid ++ after) ∧ mid ≠ [] ∧ significant mid = core ∧
      Token.spanOf mid = Token.spanOf core := by
  obtain ⟨xs, ys, hsplit⟩ := h
  obtain ⟨front, after, rfl, hfront, _⟩ := List.filter_eq_append_iff.mp hsplit.symm
  obtain ⟨before, inner, rfl, _, hinner⟩ := List.filter_eq_append_iff.mp hfront
  obtain ⟨us, after', rfl, hus, hlast⟩ := exists_back inner
  obtain ⟨before', mid, rfl, hmid, hhead⟩ := exists_front us
  replace hinner : significant (before' ++ mid ++ after') = core := hinner
  rw [hus, hinner] at hmid hhead
  rw [hinner] at hlast
  have hne : mid ≠ [] := by
    rintro rfl
    exact hcore hmid.symm
  have hsame : mid.getLast? = core.getLast? := by
    obtain ⟨last, hend⟩ := Option.isSome_iff_exists.mp (List.getLast?_isSome.mpr hne)
    rw [← hlast, List.getLast?_append, hend]
    rfl
  refine ⟨before ++ before', mid, after' ++ after, by simp, hne, hmid, ?_⟩
  rw [spanOf, spanOf, hhead, hsame]

end Trimming

end Token

open Lexical

section Pieces

variable {source : String} {before mid after : List Token}

/-- What tokens side by side cover is their texts. -/
theorem Tiling.holds (h : Tiling source (before ++ (mid ++ after))) (hmid : mid ≠ []) :
    (Token.spanOf mid).Holds source (String.join (mid.map (·.text))) := by
  obtain ⟨start, hbefore, hmore⟩ := Token.adjacent_append.mp h.adjacent
  obtain ⟨stop, hown, _⟩ := Token.adjacent_append.mp hmore
  have hlength := h.length
  simp only [List.forall_mem_append] at hlength
  rw [hown.spanOf hmid, hown.size hlength.2.1, hbefore.size hlength.1, Nat.zero_add, ← h.whole,
    List.map_append, List.map_append, String.join_append, String.join_append]
  exact Span.holds_between _ _ _

theorem Tiling.inside (h : Tiling source (before ++ (mid ++ after))) (hmid : mid ≠ []) {t : Token}
    (ht : t ∈ mid) : (Token.spanOf mid).start ≤ t.offset ∧ t.stop ≤ (Token.spanOf mid).stop := by
  have hown : Token.Between 0 mid source.utf8ByteSize :=
    h.between.sublist ((List.sublist_append_left mid after).trans (List.sublist_append_right _ _))
  have hspan := Span.InOrder.mem (hown.tight hmid) (List.mem_map_of_mem ht)
  exact ⟨hspan.start, hspan.stop⟩

/-- Tokens side by side are cut out of their texts as well. -/
theorem tokenize_piece (h : tokenize source = .ok (before ++ (mid ++ after)))
    (hfirm : ∀ t ∈ mid, t.Firm) :
    ∃ own, tokenize (String.join (mid.map (·.text))) = .ok own ∧
      own.map Token.toLexeme = mid.map Token.toLexeme := by
  obtain ⟨ls, hcuts, hplaced⟩ := tokenize_eq_ok_iff.mp h
  rw [← place_toLexeme Position.start ls, ← hplaced, List.map_append, List.map_append] at hcuts
  obtain ⟨_, _, hrest⟩ := hcuts.split
  obtain ⟨_, hpiece, _⟩ := hrest.split
  have htext : (String.join (mid.map (·.text))).toList =
      (mid.map Token.toLexeme).flatMap (·.text.toList) := by
    rw [String.toList_join, List.flatMap_map, List.flatMap_map]
  have hown := hpiece.alone (List.forall_mem_map.mpr hfirm)
  rw [← htext] at hown
  exact ⟨_, tokenize_eq_ok_iff.mpr ⟨_, hown, rfl⟩, place_toLexeme _ _⟩

end Pieces

/-- Significant tokens that stand together in a text are those of what they cover as well. -/
theorem tokenize_slice {source : String} {tokens core : List Token}
    (h : tokenize source = .ok tokens) (hin : core <:+: Token.significant tokens)
    (hcore : core ≠ []) :
    ∃ text, (Token.spanOf core).Holds source text ∧
      ((∀ t ∈ tokens, (Token.spanOf core).start ≤ t.offset → t.stop ≤ (Token.spanOf core).stop →
        t.Firm) → ∃ own, tokenize text = .ok own ∧
        (Token.significant own).map Token.toLexeme = core.map Token.toLexeme) := by
  obtain ⟨before, mid, after, rfl, hne, hmid, hspan⟩ := Token.significant_slice hin hcore
  have htiling := Tiling.of_tokenize h
  refine ⟨_, hspan ▸ htiling.holds hne, fun hfirm => ?_⟩
  have hinside : ∀ t ∈ mid, t.Firm := by
    intro t ht
    obtain ⟨hstart, hstop⟩ := htiling.inside hne ht
    rw [hspan] at hstart hstop
    exact hfirm t (by simp [ht]) hstart hstop
  obtain ⟨own, hown, hsame⟩ := tokenize_piece h hinside
  refine ⟨own, hown, ?_⟩
  rw [Token.map_significant, hsame, ← Token.map_significant, hmid]

end SolidScript
