import Mathlib.Data.List.Infix
import SolidScript.Value

namespace SolidScript.Value

/-- A value made of strings with the property, booleans and the undefined value. -/
inductive Plain (P : String → Prop) : Value → Prop
  | string {s : String} (hs : P s) : Plain P (.string s)
  | boolean (b : Bool) : Plain P (.boolean b)
  | undefined : Plain P .undefined
  | vector {elements : List Value} (helements : ∀ v ∈ elements, Plain P v) :
    Plain P (.vector elements)

/-- No quote in the string looks like the end of an element: behind it, and behind the closing
brackets that may follow, stand no comma and blank. -/
def Clear (s : String) : Prop :=
  ∀ cs ∈ s.toList.tails, cs.head? = some '"' → ¬[',', ' '] <+: cs.tail.dropWhile (· == ']')

instance (s : String) : Decidable (Clear s) :=
  inferInstanceAs (Decidable (∀ cs ∈ s.toList.tails, _))

/-- What stands behind a value: the ends of the vectors it is in, up to the next element of one. -/
inductive Ends : List Char → Prop
  | nil : Ends []
  | comma (cs : List Char) : Ends (',' :: ' ' :: cs)
  | bracket {cs : List Char} (hcs : Ends cs) : Ends (']' :: cs)

/-- The characters of a vector's text behind its opening bracket. -/
def charsInside : List Value → List Char
  | [] => [']']
  | [v] => v.text.toList ++ [']']
  | v :: vs => v.text.toList ++ ',' :: ' ' :: charsInside vs

/-- The characters of a vector's text behind an element. -/
def charsBehind : List Value → List Char
  | [] => [']']
  | v :: vs => ',' :: ' ' :: charsInside (v :: vs)

theorem charsInside_cons (v : Value) (vs : List Value) :
    charsInside (v :: vs) = v.text.toList ++ charsBehind vs := by
  cases vs <;> rfl

theorem ends_charsBehind (vs : List Value) {cs : List Char} (hcs : Ends cs) :
    Ends (charsBehind vs ++ cs) := by
  cases vs with
  | nil => exact .bracket hcs
  | cons v vs => exact .comma _

theorem toList_text_string (s : String) :
    (Value.string s).text.toList = '"' :: (s.toList ++ ['"']) := by
  simp [text]

theorem toList_text_vector (vs : List Value) :
    (Value.vector vs).text.toList = '[' :: charsInside vs := by
  have hinside : (String.intercalate ", " (texts vs)).toList ++ [']'] = charsInside vs := by
    induction vs with
    | nil => rfl
    | cons v vs ih =>
      cases vs with
      | nil => simp [texts, charsInside]
      | cons w ws =>
        rw [charsInside_cons, charsBehind, ← ih, texts, texts, String.intercalate_cons_cons]
        simp
  simp [text, ← hinside]

/-- The first character of the text of a value that is no number. -/
def opening : Value → Char
  | .string _ => '"'
  | .boolean true => 't'
  | .boolean false => 'f'
  | .undefined => 'u'
  | _ => '['

theorem Plain.exists_text_eq_cons {P : String → Prop} {v : Value} (h : v.Plain P) :
    ∃ cs, v.text.toList = opening v :: cs := by
  cases h with
  | string => exact ⟨_, toList_text_string _⟩
  | boolean b => cases b <;> exact ⟨_, rfl⟩
  | undefined => exact ⟨_, rfl⟩
  | vector => exact ⟨_, toList_text_vector _⟩

/-- Texts that begin alike are of values of the same form. -/
theorem Plain.opening_eq {P : String → Prop} {v w : Value} (hv : v.Plain P) (hw : w.Plain P)
    {xs ys : List Char} (h : v.text.toList ++ xs = w.text.toList ++ ys) :
    opening v = opening w := by
  obtain ⟨cs, hcs⟩ := hv.exists_text_eq_cons
  obtain ⟨ds, hds⟩ := hw.exists_text_eq_cons
  rw [hcs, hds] at h
  exact (List.cons.inj h).1

theorem Plain.opening_ne_bracket {P : String → Prop} {v : Value} (h : v.Plain P) :
    opening v ≠ ']' := by
  cases h with
  | boolean b => cases b <;> decide
  | _ => simp [opening]

/-- Vectors of which the one has elements and the other one does not are told apart by what comes
first inside of them. -/
theorem charsBehind_of_charsInside {P : String → Prop} {vs ws : List Value}
    (hvs : ∀ v ∈ vs, v.Plain P) (hws : ∀ w ∈ ws, w.Plain P) {xs ys : List Char}
    (h : charsInside vs ++ xs = charsInside ws ++ ys) :
    charsBehind vs ++ xs = charsBehind ws ++ ys := by
  cases vs with
  | nil =>
    cases ws with
    | nil => exact h
    | cons w ws =>
      have hw := hws w List.mem_cons_self
      obtain ⟨cs, hcs⟩ := hw.exists_text_eq_cons
      rw [charsInside_cons, hcs] at h
      exact absurd (List.cons.inj h).1.symm hw.opening_ne_bracket
  | cons v vs =>
    cases ws with
    | nil =>
      have hv := hvs v List.mem_cons_self
      obtain ⟨cs, hcs⟩ := hv.exists_text_eq_cons
      rw [charsInside_cons, hcs] at h
      exact absurd (List.cons.inj h).1 hv.opening_ne_bracket
    | cons w ws => exact congrArg (',' :: ' ' :: ·) h

/-- What stands behind a value gets to a comma and a blank before it gets to a quote. -/
theorem Ends.isPrefix_of_quote {xs : List Char} (h : Ends xs) :
    ∀ {before ys : List Char}, xs = before ++ '"' :: ys →
      [',', ' '] <+: before.dropWhile (· == ']') := by
  induction h with
  | nil => simp
  | comma cs =>
    intro before ys hxs
    obtain _ | ⟨c, _ | ⟨d, before⟩⟩ := before
    · simp at hxs
    · simp at hxs
    · obtain ⟨rfl, rfl, _⟩ : ',' = c ∧ ' ' = d ∧ cs = before ++ '"' :: ys := by simpa using hxs
      simp
  | bracket _ ih =>
    intro before ys hxs
    obtain _ | ⟨c, before⟩ := before
    · simp at hxs
    · obtain ⟨rfl, hcs⟩ := List.cons.inj hxs
      simpa using ih hcs

/-- A string does not go on behind the quote that another reading takes for its end. -/
theorem eq_nil_of_quote {s : String} {before behind xs ys : List Char} (hs : Clear s)
    (heq : s.toList = before ++ behind) (hxs : Ends xs) (h : '"' :: xs = behind ++ '"' :: ys) :
    behind = [] := by
  obtain _ | ⟨c, more⟩ := behind
  · rfl
  · obtain ⟨rfl, hmore⟩ := List.cons.inj h
    have hmem : '"' :: more ∈ s.toList.tails := (List.mem_tails _ _).mpr ⟨before, heq.symm⟩
    exact absurd (hxs.isPrefix_of_quote hmore) (hs _ hmem rfl)

/-- A quoted string ends in one place only. -/
theorem quoted_append_inj {s t : String} {xs ys : List Char} (hs : Clear s) (ht : Clear t)
    (hxs : Ends xs) (hys : Ends ys) (h : s.toList ++ '"' :: xs = t.toList ++ '"' :: ys) :
    s = t ∧ xs = ys := by
  obtain ⟨behind, hts, hrest⟩ | ⟨behind, hst, hrest⟩ := List.append_eq_append_iff.mp h
  · obtain rfl := eq_nil_of_quote ht hts hxs hrest
    exact ⟨String.toList_inj.mp (by simpa using hts.symm), (List.cons.inj hrest).2⟩
  · obtain rfl := eq_nil_of_quote hs hst hys hrest
    exact ⟨String.toList_inj.mp (by simpa using hst), (List.cons.inj hrest).2.symm⟩

mutual

/-- A text of a value with more behind it is read in one way only. -/
theorem text_append_inj : (v : Value) → ∀ (w : Value) (xs ys : List Char), v.Plain Clear →
    w.Plain Clear → Ends xs → Ends ys → v.text.toList ++ xs = w.text.toList ++ ys →
    v = w ∧ xs = ys
  | .string s => by
    intro w xs ys hv hw hxs hys h
    have hopening := hv.opening_eq hw h
    cases hv with | string hs =>
    cases hw with
    | @string t ht =>
      rw [toList_text_string, toList_text_string] at h
      simp only [List.cons_append, List.append_assoc, List.nil_append, List.cons.injEq,
        true_and] at h
      obtain ⟨rfl, rfl⟩ := quoted_append_inj hs ht hxs hys h
      exact ⟨rfl, rfl⟩
    | boolean b => cases b <;> cases hopening
    | _ => cases hopening
  | .boolean a => by
    intro w xs ys hv hw _ _ h
    have hopening := hv.opening_eq hw h
    cases hw with
    | boolean b =>
      obtain rfl : a = b := by cases a <;> cases b <;> first | rfl | cases hopening
      exact ⟨rfl, List.append_cancel_left h⟩
    | _ => cases a <;> cases hopening
  | .undefined => by
    intro w xs ys hv hw _ _ h
    have hopening := hv.opening_eq hw h
    cases hw with
    | undefined => exact ⟨rfl, List.append_cancel_left h⟩
    | boolean b => cases b <;> cases hopening
    | _ => cases hopening
  | .vector vs => by
    intro w xs ys hv hw hxs hys h
    have hopening := hv.opening_eq hw h
    cases hv with | vector hvs =>
    cases hw with
    | @vector ws hws =>
      rw [toList_text_vector, toList_text_vector] at h
      have hbehind := charsBehind_of_charsInside hvs hws (List.cons.inj h).2
      obtain ⟨rfl, rfl⟩ := charsBehind_append_inj vs ws _ _ hvs hws hxs hys hbehind
      exact ⟨rfl, rfl⟩
    | boolean b => cases b <;> cases hopening
    | _ => cases hopening
  | .number _ => by
    intro _ _ _ hv
    cases hv
  | .range _ => by
    intro _ _ _ hv
    cases hv

theorem charsBehind_append_inj : (vs : List Value) → ∀ (ws : List Value) (xs ys : List Char),
    (∀ v ∈ vs, v.Plain Clear) → (∀ w ∈ ws, w.Plain Clear) → Ends xs → Ends ys →
    charsBehind vs ++ xs = charsBehind ws ++ ys → vs = ws ∧ xs = ys
  | [] => by
    intro ws xs ys _ _ _ _ h
    cases ws with
    | nil => exact ⟨rfl, (List.cons.inj h).2⟩
    | cons w ws => simp [charsBehind] at h
  | v :: vs => by
    intro ws xs ys hvs hws hxs hys h
    cases ws with
    | nil => simp [charsBehind] at h
    | cons w ws =>
      obtain ⟨hv, hothers⟩ := List.forall_mem_cons.mp hvs
      obtain ⟨hw, hothers'⟩ := List.forall_mem_cons.mp hws
      have hinside : charsInside (v :: vs) ++ xs = charsInside (w :: ws) ++ ys :=
        (List.cons.inj (List.cons.inj h).2).2
      rw [charsInside_cons, charsInside_cons, List.append_assoc, List.append_assoc] at hinside
      obtain ⟨rfl, hrest⟩ := text_append_inj v w _ _ hv hw (ends_charsBehind vs hxs)
        (ends_charsBehind ws hys) hinside
      obtain ⟨rfl, rfl⟩ := charsBehind_append_inj vs ws _ _ hothers hothers' hxs hys hrest
      exact ⟨rfl, rfl⟩

end

/-- The text of a value tells which value it is. -/
theorem text_injective {v w : Value} (hv : v.Plain Clear) (hw : w.Plain Clear)
    (h : v.text = w.text) : v = w :=
  (text_append_inj v w [] [] hv hw .nil .nil (by rw [h])).1

end SolidScript.Value
