import SolidScript.Token

namespace SolidScript

namespace Lexeme

/-- Punctuation as a lexeme. -/
def ofPunct (symbol : String) : Lexeme := ⟨.punct, symbol⟩

/-- A name as a lexeme: a special one if a dollar sign stands in front. -/
def ofName (name : String) : Lexeme :=
  ⟨if name.toList.head? = some '$' then .specialIdentifier else .identifier, name⟩

/-- A lexeme as a token at the start of a text. -/
def token (l : Lexeme) : Token := ⟨l, 0, l.text.utf8ByteSize, 1, 1, false⟩

end Lexeme

namespace Token

/-- The token without its place. -/
def placeless (t : Token) : Token := { t with offset := 0, line := 1, column := 1 }

/-- Of the token only what it spells. -/
def unplaced (t : Token) : Token := t.toLexeme.token

/-- Punctuation as a token. -/
def ofPunct (symbol : String) : Token := (Lexeme.ofPunct symbol).token

/-- A keyword as a token. -/
def ofKeyword (word : String) : Token := Lexeme.token ⟨.keyword, word⟩

/-- Some name as a token. -/
def someName : Token := Lexeme.token ⟨.identifier, "x"⟩

@[simp] theorem ofPunct_isPunct (a b : String) : (ofPunct a).isPunct b = decide (a = b) := rfl

@[simp] theorem ofPunct_isKeyword (a b : String) : (ofPunct a).isKeyword b = false := rfl

@[simp] theorem ofKeyword_isKeyword (a b : String) :
    (ofKeyword a).isKeyword b = decide (a = b) := rfl

@[simp] theorem someName_isPunct (symbol : String) : someName.isPunct symbol = false := rfl

@[simp] theorem someName_isKeyword (word : String) : someName.isKeyword word = false := rfl

@[simp] theorem someName_isName : someName.isName = true := rfl

/-- A token spells at most one symbol. -/
theorem isPunct_unique {t : Token} {a b : String} (ha : t.isPunct a) (hb : t.isPunct b) :
    a = b := by
  simp only [isPunct, Bool.and_eq_true, decide_eq_true_eq] at ha hb
  rw [← ha.2, hb.2]

theorem not_isPunct_of_isPunct {t : Token} {a b : String} (h : t.isPunct a) (hne : a ≠ b) :
    t.isPunct b = false :=
  Bool.eq_false_iff.mpr fun hb => hne (isPunct_unique h hb)

theorem not_isName_of_isPunct {t : Token} {symbol : String} (h : t.isPunct symbol) :
    t.isName = false := by
  simp only [isPunct, Bool.and_eq_true, decide_eq_true_eq] at h
  simp [isName, h.1]

theorem isPunct_of_toLexeme {t : Token} {symbol : String} (h : t.toLexeme = .ofPunct symbol) :
    t.isPunct symbol := by
  have hkind : t.kind = .punct := congrArg Lexeme.kind h
  have htext : t.text = symbol := congrArg Lexeme.text h
  simp [isPunct, hkind, htext]

theorem isName_of_toLexeme {t : Token} {name : String} (h : t.toLexeme = .ofName name) :
    t.isName ∧ t.text = name := by
  have hkind : t.kind = (Lexeme.ofName name).kind := congrArg Lexeme.kind h
  refine ⟨?_, congrArg Lexeme.text h⟩
  rw [isName, hkind, Lexeme.ofName]
  split <;> rfl

theorem spanOf_eq {us : List Token} (hus : us ≠ []) : ∃ first last, us.head? = some first ∧
    us.getLast? = some last ∧ spanOf us = ⟨first.offset, last.stop⟩ := by
  obtain ⟨first, hfirst⟩ := Option.isSome_iff_exists.mp (List.isSome_head?.mpr hus)
  obtain ⟨last, hlast⟩ := Option.isSome_iff_exists.mp (List.getLast?_isSome.mpr hus)
  exact ⟨first, last, hfirst, hlast, by rw [spanOf, hfirst, hlast]⟩

theorem spanOf_append {us vs : List Token} (hus : us ≠ []) (hvs : vs ≠ []) :
    spanOf (us ++ vs) = ⟨(spanOf us).start, (spanOf vs).stop⟩ := by
  obtain ⟨first, last, hfirst, hlast, heq⟩ := spanOf_eq hus
  obtain ⟨first', last', hfirst', hlast', heq'⟩ := spanOf_eq hvs
  rw [heq, heq', spanOf, List.head?_append, List.getLast?_append, hfirst, hlast']
  rfl

theorem spanOf_between {us : List Token} {first last : Token} (hfirst : us.head? = some first)
    (hlast : us.getLast? = some last) : spanOf us = ⟨first.offset, last.stop⟩ := by
  rw [spanOf, hfirst, hlast]

/-- What stands between two parts does not matter. -/
theorem spanOf_ends {us mid vs : List Token} (hus : us ≠ []) (hvs : vs ≠ []) :
    spanOf (us ++ (mid ++ vs)) = ⟨(spanOf us).start, (spanOf vs).stop⟩ := by
  rw [spanOf_append hus (List.append_ne_nil_of_right_ne_nil mid hvs)]
  obtain ⟨_, last, _, hlast, heq⟩ := spanOf_eq hvs
  obtain ⟨_, last', _, hlast', heq'⟩ := spanOf_eq (List.append_ne_nil_of_right_ne_nil mid hvs)
  rw [List.getLast?_append, hlast] at hlast'
  rw [heq, heq', Option.some.inj hlast']

theorem isName_congr {t u : Token} (h : t.toLexeme = u.toLexeme) : t.isName = u.isName := by
  rw [isName, isName, h]

end Token

/-- The tokens spell the lexemes, at whatever places. -/
def Spells (ts : List Token) (ls : List Lexeme) : Prop := ts.map Token.toLexeme = ls

namespace Spells

variable {ts : List Token} {l : Lexeme} {ls ms : List Lexeme}

theorem cons (h : Spells ts (l :: ls)) : ∃ t us, ts = t :: us ∧ t.toLexeme = l ∧ Spells us ls :=
  List.map_eq_cons_iff.mp h

theorem append (h : Spells ts (ls ++ ms)) :
    ∃ us vs, ts = us ++ vs ∧ Spells us ls ∧ Spells vs ms :=
  List.map_eq_append_iff.mp h

theorem single (h : Spells ts [l]) : ∃ t, ts = [t] ∧ t.toLexeme = l := by
  obtain ⟨t, us, rfl, ht, hus⟩ := h.cons
  obtain rfl := List.map_eq_nil_iff.mp hus
  exact ⟨t, rfl, ht⟩

theorem punct {symbol : String} (h : Spells ts (.ofPunct symbol :: ls)) :
    ∃ t us, ts = t :: us ∧ t.isPunct symbol ∧ Spells us ls := by
  obtain ⟨t, us, rfl, ht, hus⟩ := h.cons
  exact ⟨t, us, rfl, Token.isPunct_of_toLexeme ht, hus⟩

/-- Behind the tokens for the first lexemes comes one for the punctuation. -/
theorem append_punct {symbol : String} (h : Spells ts (ls ++ .ofPunct symbol :: ms)) :
    ∃ us t vs, ts = us ++ t :: vs ∧ Spells us ls ∧ t.isPunct symbol ∧ Spells vs ms := by
  obtain ⟨us, vs, rfl, hus, hvs⟩ := h.append
  obtain ⟨t, vs, rfl, ht, hvs⟩ := hvs.punct
  exact ⟨us, t, vs, rfl, hus, ht, hvs⟩

theorem append_last {symbol : String} (h : Spells ts (ls ++ [.ofPunct symbol])) :
    ∃ us t, ts = us ++ [t] ∧ Spells us ls ∧ t.isPunct symbol := by
  obtain ⟨us, t, vs, rfl, hus, ht, hvs⟩ := h.append_punct
  obtain rfl := List.map_eq_nil_iff.mp hvs
  exact ⟨us, t, rfl, hus, ht⟩

end Spells

end SolidScript
