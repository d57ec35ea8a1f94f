import Mathlib.Data.List.Pairwise
import SolidScript.Proofs.Token.Order
import SolidScript.Proofs.Token.Places

namespace SolidScript

open Lexical

/-- The tokens of a source text in front of the first fault, all of them if there is none. -/
def emitted (source : String) : List Token :=
  (place Position.start (cut source.toList.length source.toList).1).1

/-- The rules come to the end of `before` in the source text: the first tokens spell it. -/
def Reaches (source before : String) : Prop :=
  ∃ ts, ts <+: emitted source ∧ String.join (ts.map (·.text)) = before

/-- The token is the given text, and stands directly behind `before`. -/
def Token.Covers (t : Token) (before text : String) : Prop :=
  t.text = text ∧ t.span = ⟨before.utf8ByteSize, (before ++ text).utf8ByteSize⟩

/-- Behind `before` the given text is cut off as one token of the kind. -/
def Emits (source before : String) (kind : TokenKind) (text : String) : Prop :=
  ∃ t ∈ emitted source, t.kind = kind ∧ t.Covers before text

/-- Cutting ends behind `before` with the fault. -/
def Faults (source before : String) (fault : Fault) : Prop :=
  ∃ e, tokenize source = .error e ∧ e.fault = fault ∧ e.place.offset = before.utf8ByteSize

variable {source before after : String}

theorem emitted_of_ok {tokens : List Token} (h : tokenize source = .ok tokens) :
    emitted source = tokens := by
  obtain ⟨ls, hcuts, rfl⟩ := tokenize_eq_ok_iff.mp h
  rw [emitted, cut_eq (Nat.le_refl _) hcuts .ended]

/-- Every text is cut from its start. -/
theorem Reaches.start (source : String) : Reaches source "" :=
  ⟨[], List.nil_prefix, by simp⟩

namespace Lexical

variable {cs mid rest : List Char} {ls ms : List Lexeme}

theorem Cuts.append (h : Cuts cs ls mid) (hmore : Cuts mid ms rest) : Cuts cs (ls ++ ms) rest := by
  induction h with
  | done => exact hmore
  | lexeme hfirst _ ih => exact .lexeme hfirst (ih hmore)

theorem Cuts.head {l : Lexeme} (h : Cuts cs (l :: ls) rest) :
    ∃ n, l.text = String.ofList (cs.take n) ∧ Scans cs l.kind n := by
  cases h with
  | lexeme hfirst _ => exact ⟨_, rfl, hfirst⟩

theorem place_append (p : Position) (ls ms : List Lexeme) :
    (place p (ls ++ ms)).1 = (place p ls).1 ++ (place (place p ls).2 ms).1 := by
  induction ls generalizing p with
  | nil => rfl
  | cons l ls ih => simp [place, ih]

end Lexical

/-- The lexemes of the first tokens are cut off, and the text behind them is left. -/
theorem Reaches.cuts (h : Reaches (before ++ after) before) :
    ∃ ls, Cuts (before ++ after).toList ls after.toList ∧
      (place Position.start ls).2.offset = before.utf8ByteSize := by
  obtain ⟨ts, ⟨us, hts⟩, hbefore⟩ := h
  obtain ⟨rest, hcuts, _⟩ := cut_cuts (Nat.le_refl (before ++ after).toList.length)
  have hlexemes := congrArg (List.map Token.toLexeme) hts
  rw [emitted, place_toLexeme, List.map_append] at hlexemes
  rw [← hlexemes] at hcuts
  obtain ⟨mid, hfirst, _⟩ := hcuts.split
  have hjoin : String.join ((ts.map Token.toLexeme).map Lexeme.text) = before := by
    rw [List.map_map]
    exact hbefore
  have hmid : mid = after.toList := by
    have hsource := hfirst.source_eq
    rw [hjoin] at hsource
    have hsame := String.append_right_inj before |>.mp hsource
    rw [hsame, String.toList_ofList]
  refine ⟨ts.map Token.toLexeme, hmid ▸ hfirst, ?_⟩
  rw [place_offset, hjoin]
  exact Nat.zero_add _

/-- The next token is what the rules scan behind the first ones. -/
theorem Reaches.emits {kind : TokenKind} {text : String}
    (h : Reaches (before ++ (text ++ after)) before)
    (hscan : Scans (text ++ after).toList kind text.toList.length) :
    Emits (before ++ (text ++ after)) before kind text := by
  obtain ⟨ls, hcuts, hoffset⟩ := h.cuts
  have htake : (text ++ after).toList.take text.toList.length = text.toList := by
    rw [String.toList_append, List.take_left]
  obtain ⟨rest, hothers, hhalts⟩ :=
    cut_cuts (Nat.le_refl ((text ++ after).toList.drop text.toList.length).length)
  have hnext := Cuts.lexeme hscan hothers
  rw [htake, String.ofList_toList] at hnext
  rw [Emits, emitted, cut_eq (Nat.le_refl _) (hcuts.append hnext) hhalts, place_append]
  refine ⟨_, List.mem_append_right _ List.mem_cons_self, rfl, rfl, ?_⟩
  simp only [Token.span, Token.stop, hoffset, String.utf8ByteSize_append, byteLength_toList]

/-- Where the rules scan nothing, the fault is reported. -/
theorem Reaches.faults {c : Char} {cs : List Char} (h : Reaches (before ++ after) before)
    (hafter : after.toList = c :: cs) (hscan : scan (c :: cs) = none) :
    Faults (before ++ after) before (faultAt c cs) := by
  obtain ⟨ls, hcuts, hoffset⟩ := h.cuts
  rw [hafter] at hcuts
  exact ⟨_, tokenize_of_cuts hcuts (.faulty hscan), rfl, hoffset⟩

/-- Tokens that have a byte in common are the same. -/
theorem emitted_overlap {t u : Token} (ht : t ∈ emitted source) (hu : u ∈ emitted source)
    (htu : t.offset < u.stop) (hut : u.offset < t.stop) : t = u := by
  obtain ⟨rest, hcuts, _⟩ := cut_cuts (Nat.le_refl source.toList.length)
  have hbetween := (Tiling.place hcuts.text_ne_empty).between
  have hpairs := List.pairwise_map.mp hbetween.pairwise
  have hapart : (emitted source).Pairwise fun a b => a.stop ≤ b.offset ∨ b.stop ≤ a.offset :=
    hpairs.imp Or.inl
  have hsymm : Std.Symm fun a b : Token => a.stop ≤ b.offset ∨ b.stop ≤ a.offset :=
    ⟨fun _ _ => Or.symm⟩
  by_contra hne
  obtain hbefore | hbehind := hapart.forall ht hu hne
  · omega
  · omega

/-- No token stands behind a fault. -/
theorem emitted_before_fault {e : LexError} {t : Token} (h : tokenize source = .error e)
    (ht : t ∈ emitted source) : t.stop ≤ e.place.offset := by
  obtain ⟨ls, c, cs, hcuts, hscan, rfl⟩ := tokenize_eq_error h
  rw [emitted, cut_eq (Nat.le_refl _) hcuts (.faulty hscan)] at ht
  have hbetween := (Tiling.place hcuts.text_ne_empty).between
  have hstop := (Span.InOrder.mem hbetween (List.mem_map_of_mem ht)).stop
  rw [place_offset]
  exact Nat.le_trans hstop (Nat.le_add_left _ _)

/-- A token is what the rules scan where it stands. -/
theorem scans_of_token {tokens : List Token} {t : Token} (h : tokenize source = .ok tokens)
    (ht : t ∈ tokens) :
    ∃ before after, source = before ++ (t.text ++ after) ∧ t.Covers before t.text ∧
      Scans (t.text ++ after).toList t.kind t.text.toList.length := by
  obtain ⟨ls, hcuts, rfl⟩ := tokenize_eq_ok_iff.mp h
  obtain ⟨hlength, as, bs, rfl, hoffset⟩ := place_split ht
  obtain ⟨mid, hfirst, hmore⟩ := hcuts.split
  have hsource := hfirst.source_eq
  rw [Position.start, Nat.zero_add] at hoffset
  generalize String.join (as.map Lexeme.text) = before at hsource hoffset
  obtain ⟨n, htext, hscan⟩ := hmore.head
  have hmid : mid = (t.text ++ String.ofList (mid.drop n)).toList := by
    simp [htext]
  have hcount : t.text.toList.length = n := by
    rw [htext, String.toList_ofList, List.length_take_of_le (scans_le hscan)]
  refine ⟨before, String.ofList (mid.drop n), ?_, ⟨rfl, ?_⟩, ?_⟩
  · rw [hsource, ← String.ofList_toList (s := t.text ++ _), ← hmid]
  · rw [Token.span, Token.stop, hoffset, hlength, String.utf8ByteSize_append]
  · rwa [← hmid, hcount]

end SolidScript
