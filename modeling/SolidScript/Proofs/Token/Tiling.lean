import SolidScript.Proofs.Token.Cutting

namespace SolidScript

theorem byteLength_toList (s : String) : byteLength s.toList = s.utf8ByteSize := by
  obtain ⟨cs, rfl⟩ : ∃ cs, s = String.ofList cs := ⟨s.toList, String.ofList_toList.symm⟩
  rw [String.toList_ofList]
  induction cs with
  | nil => rfl
  | cons c cs ih =>
    rw [byteLength_cons, ih, String.ofList_cons, String.utf8ByteSize_append,
      String.utf8ByteSize_singleton]

theorem Position.advance_offset (p : Position) (cs : List Char) :
    (p.advance cs).offset = p.offset + byteLength cs := by
  have hreturn : '\r'.utf8Size = 1 := by decide
  have hfeed : '\n'.utf8Size = 1 := by decide
  have hnewline (p : Position) (width : Nat) : (p.newline width).offset = p.offset + width := rfl
  fun_induction advance p cs with
  | case1 p => rfl
  | case2 p cs ih =>
    rw [ih, hnewline, byteLength_cons, byteLength_cons, hreturn, hfeed]
    omega
  | case3 p cs _ ih =>
    rw [ih, hnewline, byteLength_cons, hreturn]
    omega
  | case4 p cs ih =>
    rw [ih, hnewline, byteLength_cons, hfeed]
    omega
  | case5 p c cs _ _ _ ih => rw [ih, byteLength_cons, Nat.add_assoc]

/-- A lexeme as a piece of a text. -/
def Lexeme.piece (l : Lexeme) : Except Fault TokenKind × List Char := (.ok l.kind, l.text.toList)

namespace Lexical

section Pieces

variable {c : Char} {cs rest : List Char} {ls : List Lexeme}

/-- How many of the characters belong to a fault: what never ends goes on to the end of the text. -/
def extent (cs : List Char) : Fault → Nat
  | .unexpectedCharacter _ => 1
  | _ => cs.length

/-- The first piece of a text: what the first rule that applies takes, or a fault. -/
def piece (c : Char) (cs : List Char) : Except Fault TokenKind × Nat :=
  match scan (c :: cs) with
  | some (kind, n) => (.ok kind, n)
  | none => (.error (faultAt c cs), extent (c :: cs) (faultAt c cs))

theorem piece_of_scans {kind : TokenKind} {n : Nat} (h : Scans (c :: cs) kind n) :
    piece c cs = (.ok kind, n) := by
  rw [piece, scan_eq_some_iff.mpr h]

theorem piece_of_fault (h : scan (c :: cs) = none) :
    piece c cs = (.error (faultAt c cs), extent (c :: cs) (faultAt c cs)) := by
  rw [piece, h]

/-- No piece is empty, and none goes beyond the text. -/
theorem piece_bounds (c : Char) (cs : List Char) :
    0 < (piece c cs).2 ∧ (piece c cs).2 ≤ (c :: cs).length := by
  cases hscan : scan (c :: cs) with
  | some found =>
    have hfirst : Scans (c :: cs) found.1 found.2 := scan_eq_some_iff.mp hscan
    rw [piece_of_scans hfirst]
    exact ⟨scans_pos hfirst, scans_le hfirst⟩
  | none =>
    rw [piece_of_fault hscan]
    cases faultAt c cs <;> simp [extent]

/-- All pieces of a text with their characters, those behind a fault included. -/
def sweep : List Char → List (Except Fault TokenKind × List Char)
  | [] => []
  | c :: cs =>
    ((piece c cs).1, (c :: cs).take (piece c cs).2) :: sweep ((c :: cs).drop (piece c cs).2)
termination_by cs => cs.length
decreasing_by
  have hbounds := piece_bounds c cs
  simp only [List.length_drop, List.length_cons] at hbounds ⊢
  omega

theorem sweep_cons (c : Char) (cs : List Char) :
    sweep (c :: cs) =
      ((piece c cs).1, (c :: cs).take (piece c cs).2) :: sweep ((c :: cs).drop (piece c cs).2) := by
  rw [sweep]

theorem sweep_text (cs : List Char) : (sweep cs).flatMap Prod.snd = cs := by
  fun_induction sweep cs with
  | case1 => rfl
  | case2 c cs ih => rw [List.flatMap_cons, ih, List.take_append_drop]

theorem sweep_ne_nil (cs : List Char) : ∀ p ∈ sweep cs, p.2 ≠ [] := by
  fun_induction sweep cs with
  | case1 => nofun
  | case2 c cs ih =>
    intro p hp
    obtain rfl | hp := List.mem_cons.mp hp
    · have hbounds := piece_bounds c cs
      intro hnil
      have hlen := congrArg List.length hnil
      rw [List.length_take, List.length_nil] at hlen
      omega
    · exact ih p hp

/-- The lexemes that are cut off are the first pieces. -/
theorem Cuts.sweep (h : Cuts cs ls rest) :
    Lexical.sweep cs = ls.map Lexeme.piece ++ Lexical.sweep rest := by
  induction h with
  | done rest => rfl
  | @lexeme cs rest kind n ls hfirst _ ih =>
    have hpos := scans_pos hfirst
    have hle := scans_le hfirst
    obtain ⟨c, cs, rfl⟩ := List.exists_cons_of_length_pos (Nat.lt_of_lt_of_le hpos hle)
    rw [sweep_cons, piece_of_scans hfirst, ih]
    simp [Lexeme.piece]

end Pieces

section Places

variable {p : Position} {ls : List Lexeme}

theorem map_place {α : Type} (f : Lexeme → α) (p : Position) (ls : List Lexeme) :
    (place p ls).1.map (fun t => f t.toLexeme) = ls.map f := by
  rw [← Function.comp_def, ← List.map_map, place_toLexeme]

theorem place_offset (p : Position) (ls : List Lexeme) :
    (place p ls).2.offset = p.offset + (String.join (ls.map Lexeme.text)).utf8ByteSize := by
  induction ls generalizing p with
  | nil => rfl
  | cons l ls ih =>
    rw [List.map_cons, String.join_cons, String.utf8ByteSize_append]
    change (place (p.advance l.text.toList) ls).2.offset = _
    rw [ih, Position.advance_offset, byteLength_toList, Nat.add_assoc]

/-- In front of each token stand the bytes of the lexemes before it. -/
theorem place_split {t : Token} (ht : t ∈ (place p ls).1) :
    t.length = t.text.utf8ByteSize ∧ ∃ as bs, ls = as ++ t.toLexeme :: bs ∧
      t.offset = p.offset + (String.join (as.map Lexeme.text)).utf8ByteSize := by
  induction ls generalizing p with
  | nil => cases ht
  | cons l ls ih =>
    obtain rfl | ht := List.mem_cons.mp ht
    · exact ⟨byteLength_toList l.text, [], ls, rfl, rfl⟩
    · obtain ⟨hlength, as, bs, rfl, hoffset⟩ := ih ht
      refine ⟨hlength, l :: as, bs, rfl, ?_⟩
      rw [hoffset, Position.advance_offset, byteLength_toList, List.map_cons, String.join_cons,
        String.utf8ByteSize_append, Nat.add_assoc]

end Places

end Lexical

theorem extract_between (a b c : ByteArray) :
    (a ++ (b ++ c)).extract a.size (a.size + b.size) = b := by
  have hshift := ByteArray.extract_append_size_add (a := a) (b := b ++ c) (i := 0) (j := b.size)
  rw [Nat.add_zero, ByteArray.extract_append_eq_left rfl] at hshift
  exact hshift

/-- The tokens stand side by side from one offset to the other. -/
def Token.Adjacent : Nat → List Token → Nat → Prop
  | start, [], stop => start = stop
  | start, t :: ts, stop => t.offset = start ∧ Adjacent t.stop ts stop

/-- The tokens cover the text without gaps and without overlaps, and each holds its bytes. -/
structure Tiling (text : String) (tokens : List Token) : Prop where
  adjacent : Token.Adjacent 0 tokens text.utf8ByteSize
  nonempty : ∀ t ∈ tokens, t.text ≠ ""
  length : ∀ t ∈ tokens, t.length = t.text.utf8ByteSize
  slice : ∀ t ∈ tokens, text.toByteArray.extract t.offset t.stop = t.text.toByteArray
  whole : String.join (tokens.map (·.text)) = text

open Lexical

theorem place_adjacent (p : Position) (ls : List Lexeme) :
    Token.Adjacent p.offset (place p ls).1 (place p ls).2.offset := by
  induction ls generalizing p with
  | nil => rfl
  | cons l ls ih =>
    refine ⟨rfl, ?_⟩
    have hrest := ih (p.advance l.text.toList)
    rwa [Position.advance_offset] at hrest

/-- Lexemes that are not empty, placed from the start, tile their joined texts. -/
theorem Tiling.place {ls : List Lexeme} (h : ∀ l ∈ ls, l.text ≠ "") :
    Tiling (String.join (ls.map Lexeme.text)) (Lexical.place Position.start ls).1 where
  adjacent := by
    have hall := place_adjacent Position.start ls
    rw [place_offset] at hall
    rwa [← Nat.zero_add (String.utf8ByteSize _)]
  nonempty t ht := by
    obtain ⟨_, as, bs, rfl, _⟩ := place_split ht
    exact h t.toLexeme (by simp)
  length t ht := (place_split ht).1
  slice t ht := by
    obtain ⟨hlength, as, bs, rfl, hoffset⟩ := place_split ht
    have hstart : t.offset = (String.join (as.map Lexeme.text)).toByteArray.size := by
      rw [hoffset, String.size_toByteArray]
      exact Nat.zero_add _
    have hstop : t.stop = t.offset + t.text.toByteArray.size := by
      rw [Token.stop, hlength, String.size_toByteArray]
    rw [List.map_append, List.map_cons, String.join_append, String.join_cons,
      String.toByteArray_append, String.toByteArray_append, hstop, hstart]
    exact extract_between _ _ _
  whole := congrArg String.join (map_place Lexeme.text Position.start ls)

/-- A fault points at its character, or at the first byte of it. -/
theorem LexError.span_faultAt (c : Char) (cs : List Char) (p : Position) :
    (LexError.mk (faultAt c cs) p).span.start = p.offset ∧
      p.offset < (LexError.mk (faultAt c cs) p).span.stop ∧
      (LexError.mk (faultAt c cs) p).span.stop ≤ p.offset + c.utf8Size := by
  have hpos := c.utf8Size_pos
  unfold faultAt
  split
  · exact ⟨rfl, Nat.lt_succ_self _, Nat.add_le_add_left hpos _⟩
  · split
    · exact ⟨rfl, Nat.lt_succ_self _, Nat.add_le_add_left hpos _⟩
    · exact ⟨rfl, Nat.lt_add_of_pos_right hpos, Nat.le_refl _⟩

theorem Lexical.Cuts.source_eq {source : String} {ls : List Lexeme} {rest : List Char}
    (h : Cuts source.toList ls rest) :
    source = String.join (ls.map Lexeme.text) ++ String.ofList rest := by
  apply String.toList_injective
  rw [String.toList_append, String.toList_join, List.flatMap_map, String.toList_ofList]
  exact h.text.symm

theorem Tiling.of_tokenize {source : String} {tokens : List Token}
    (h : tokenize source = .ok tokens) : Tiling source tokens := by
  obtain ⟨ls, hcuts, rfl⟩ := tokenize_eq_ok_iff.mp h
  have hsource := hcuts.source_eq
  rw [String.ofList_nil, String.append_empty] at hsource
  rw [hsource]
  exact .place hcuts.text_ne_empty

/-- The tokens of a text tile it. The rules use up every text, taking something each time. If none
of the pieces is a fault, they are the tokens. Otherwise the pieces in front of the first fault are
tokens that tile what stands in front of it, and the error points into the text, at a boundary
between characters. -/
theorem tokenize_tiles (source : String) :
    ((sweep source.toList).flatMap Prod.snd = source.toList ∧
        ∀ p ∈ sweep source.toList, p.2 ≠ []) ∧
      (∀ tokens, tokenize source = .ok tokens →
        Tiling source tokens ∧ sweep source.toList = tokens.map fun t => t.piece) ∧
      ∀ e, tokenize source = .error e → ∃ before after tokens, source = before ++ after ∧
        Tiling before tokens ∧ e.place.offset = before.utf8ByteSize ∧
        (∃ cs later, sweep source.toList =
          tokens.map (fun t => t.piece) ++ (.error e.fault, cs) :: later) ∧
        e.place.offset < source.utf8ByteSize ∧
        (String.Pos.Raw.mk e.place.offset).IsValid source ∧
        e.span.start = e.place.offset ∧ e.span.start < e.span.stop ∧
        e.span.stop ≤ source.utf8ByteSize := by
  have hpieces (ls : List Lexeme) :
      (place Position.start ls).1.map (fun t => t.piece) = ls.map Lexeme.piece :=
    map_place Lexeme.piece Position.start ls
  refine ⟨⟨sweep_text _, sweep_ne_nil _⟩, fun tokens htokens => ?_, fun e he => ?_⟩
  · obtain ⟨ls, hcuts, rfl⟩ := tokenize_eq_ok_iff.mp htokens
    have hsource := hcuts.source_eq
    rw [String.ofList_nil, String.append_empty] at hsource
    refine ⟨?_, ?_⟩
    · rw [hsource]
      exact .place hcuts.text_ne_empty
    · rw [hcuts.sweep, hpieces, sweep, List.append_nil]
  · obtain ⟨ls, c, cs, hcuts, hscan, rfl⟩ := tokenize_eq_error he
    have hsource := hcuts.source_eq
    have hoffset : (place Position.start ls).2.offset =
        (String.join (ls.map Lexeme.text)).utf8ByteSize := by
      rw [place_offset]
      exact Nat.zero_add _
    have hsize : source.utf8ByteSize =
        (place Position.start ls).2.offset + (c.utf8Size + (String.ofList cs).utf8ByteSize) := by
      rw [hsource, String.utf8ByteSize_append, hoffset, String.ofList_cons,
        String.utf8ByteSize_append, String.utf8ByteSize_singleton]
    have hsweep := hcuts.sweep
    rw [← hpieces, sweep_cons, piece_of_fault hscan] at hsweep
    obtain ⟨hstart, hlt, hle⟩ := LexError.span_faultAt c cs (place Position.start ls).2
    refine ⟨_, _, _, hsource, .place hcuts.text_ne_empty, hoffset, ⟨_, _, hsweep⟩, ?_, ?_, hstart,
      ?_, ?_⟩
    · rw [hsize]
      exact Nat.lt_add_of_pos_right (Nat.add_pos_left c.utf8Size_pos _)
    · exact String.Pos.Raw.isValid_iff_exists_append.mpr
        ⟨_, _, hsource, congrArg String.Pos.Raw.mk hoffset⟩
    · rwa [hstart]
    · rw [hsize]
      omega

/-- A string with a character of two bytes is one tile; a comment that never ends is none. -/
theorem tokenize_tiles_two_bytes :
    (∃ tokens, tokenize "x=\"é\";" = .ok tokens ∧ tokens.length = 4 ∧ Tiling "x=\"é\";" tokens) ∧
      ∃ e before after tokens, tokenize "\"é\"/* x" = .error e ∧ "\"é\"/* x" = before ++ after ∧
        Tiling before tokens ∧ before.utf8ByteSize = 4 ∧ e.span = ⟨4, 5⟩ := by
  obtain ⟨_, hok, _⟩ := tokenize_tiles "x=\"é\";"
  obtain ⟨_, _, herror⟩ := tokenize_tiles "\"é\"/* x"
  refine ⟨⟨_, rfl, rfl, (hok _ rfl).1⟩, ?_⟩
  obtain ⟨before, after, tokens, hsplit, htiling, hoffset, _⟩ := herror _ rfl
  exact ⟨_, before, after, tokens, rfl, hsplit, htiling, hoffset.symm, rfl⟩

end SolidScript
