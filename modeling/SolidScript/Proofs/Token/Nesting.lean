import SolidScript.Proofs.Token

namespace SolidScript.Token

/-- The closing marks that are due behind the token, the next one first. A closing mark has to be
the one that is due. -/
def due (stack : List String) (t : Token) : Option (List String) :=
  if t.isPunct "(" then some (")" :: stack)
  else if t.isPunct "[" then some ("]" :: stack)
  else if t.isPunct ")" || t.isPunct "]" then
    match stack with
    | [] => none
    | close :: stack => if t.isPunct close then some stack else none
  else some stack

/-- The closing marks that are due behind the tokens. -/
def dueAll (stack : List String) (ts : List Token) : Option (List String) := ts.foldlM due stack

/-- Every parenthesis and every bracket is closed, and none is closed that is not open. -/
def Balanced (ts : List Token) : Prop := dueAll [] ts = some []

instance (ts : List Token) : Decidable (Balanced ts) :=
  inferInstanceAs (Decidable (dueAll [] ts = some []))

variable {t : Token} {ts us vs : List Token} {stack stack' : List String}

theorem dueAll_cons : dueAll stack (t :: ts) = (due stack t).bind (dueAll · ts) := rfl

theorem dueAll_append : dueAll stack (us ++ vs) = (dueAll stack us).bind (dueAll · vs) :=
  List.foldlM_append

theorem due_of_open (h : t.isPunct "(") : due stack t = some (")" :: stack) := by
  simp [due, h]

theorem due_of_square (h : t.isPunct "[") : due stack t = some ("]" :: stack) := by
  simp [due, h, not_isPunct_of_isPunct h]

/-- The mark that is due is taken off. -/
theorem due_of_close {close : String} (hclose : close = ")" ∨ close = "]") (h : t.isPunct close) :
    due (close :: stack) t = some stack := by
  obtain rfl | rfl := hclose <;> simp [due, h, not_isPunct_of_isPunct h]

/-- What is due below stays there. -/
theorem due_extra (h : due stack t = some stack') (below : List String) :
    due (stack ++ below) t = some (stack' ++ below) := by
  cases hopen : t.isPunct "(" with
  | true =>
    rw [due_of_open hopen] at h ⊢
    rw [← Option.some.inj h, List.cons_append]
  | false =>
    cases hsquare : t.isPunct "[" with
    | true =>
      rw [due_of_square hsquare] at h ⊢
      rw [← Option.some.inj h, List.cons_append]
    | false =>
      simp only [due, hopen, hsquare, Bool.false_eq_true, if_false] at h ⊢
      split at h
      · next hclose =>
        rw [if_pos hclose]
        cases stack with
        | nil => cases h
        | cons close stack =>
          simp only [List.cons_append] at h ⊢
          split at h
          · next hdue => rw [if_pos hdue, Option.some.inj h]
          · cases h
      · next hplain => rw [if_neg hplain, Option.some.inj h]

theorem dueAll_extra (h : dueAll stack ts = some stack') (below : List String) :
    dueAll (stack ++ below) ts = some (stack' ++ below) := by
  induction ts generalizing stack with
  | nil =>
    obtain rfl := Option.some.inj h
    rfl
  | cons t ts ih =>
    rw [dueAll_cons] at h
    obtain ⟨mid, hmid, hrest⟩ := Option.bind_eq_some_iff.mp h
    rw [dueAll_cons, due_extra hmid below]
    exact ih hrest

/-- Tokens that are balanced leave what is due as it is. -/
theorem Balanced.dueAll (h : Balanced ts) (stack : List String) :
    Token.dueAll stack ts = some stack :=
  dueAll_extra h stack

theorem Balanced.append (hus : Balanced us) (hvs : Balanced vs) : Balanced (us ++ vs) := by
  rw [Balanced, dueAll_append, hus]
  exact hvs

/-- A token that is none of the marks. -/
theorem Balanced.plain (h : ∀ mark ∈ ["(", "[", ")", "]"], t.isPunct mark = false) :
    Balanced [t] := by
  simp only [List.forall_mem_cons] at h
  simp [Balanced, Token.dueAll, due, h]

theorem Balanced.punct {symbol : String} (h : t.isPunct symbol)
    (hsymbol : symbol ∉ ["(", "[", ")", "]"]) : Balanced [t] := by
  refine .plain fun mark hmark => not_isPunct_of_isPunct h ?_
  rintro rfl
  exact hsymbol hmark

theorem Balanced.name (h : t.isName) : Balanced [t] :=
  .plain fun mark _ => Bool.eq_false_iff.mpr fun hmark => by
    rw [not_isName_of_isPunct hmark] at h
    cases h

theorem Balanced.cons (ht : Balanced [t]) (hts : Balanced ts) : Balanced (t :: ts) :=
  ht.append hts

private theorem dueAll_enclosed {u : Token} {close : String} (ht : due [] t = some [close])
    (hts : Balanced ts) (hu : due [close] u = some []) : Balanced (t :: (ts ++ [u])) := by
  rw [Balanced, dueAll_cons, ht, Option.bind_some, dueAll_append, hts.dueAll, Option.bind_some,
    dueAll_cons, hu]
  rfl

theorem Balanced.parentheses {u : Token} (ht : t.isPunct "(") (hts : Balanced ts)
    (hu : u.isPunct ")") : Balanced (t :: (ts ++ [u])) :=
  dueAll_enclosed (due_of_open ht) hts (due_of_close (.inl rfl) hu)

theorem Balanced.brackets {u : Token} (ht : t.isPunct "[") (hts : Balanced ts)
    (hu : u.isPunct "]") : Balanced (t :: (ts ++ [u])) :=
  dueAll_enclosed (due_of_square ht) hts (due_of_close (.inr rfl) hu)

theorem Balanced.of_append (hus : Balanced us) (h : Balanced (us ++ vs)) : Balanced vs := by
  rw [Balanced, dueAll_append, hus] at h
  exact h

theorem dueAll_opens (h : ∀ t ∈ us, t.isPunct "(") :
    dueAll stack us = some (List.replicate us.length ")" ++ stack) := by
  induction us generalizing stack with
  | nil => rfl
  | cons u us ih =>
    obtain ⟨hfirst, hothers⟩ := List.forall_mem_cons.mp h
    rw [dueAll_cons, due_of_open hfirst]
    refine (ih hothers).trans ?_
    rw [List.length_cons, List.replicate_succ', List.append_assoc]
    rfl

/-- Opening parentheses are not closed by tokens that can be balanced without them. -/
theorem Balanced.opens_eq_nil (h : Balanced (us ++ vs)) (hus : ∀ t ∈ us, t.isPunct "(")
    (hvs : Balanced (vs ++ ts)) : us = [] := by
  rw [Balanced, dueAll_append] at hvs
  obtain ⟨rest, hrest, _⟩ := Option.bind_eq_some_iff.mp hvs
  -- What the parentheses make due lies below all that is due behind the others.
  have hbelow := dueAll_extra hrest (List.replicate us.length ")")
  rw [Balanced, dueAll_append, dueAll_opens hus, List.append_nil, Option.bind_some] at h
  rw [List.nil_append, h] at hbelow
  have hnil := List.append_eq_nil_iff.mp (Option.some.inj hbelow).symm
  simpa using hnil.2

/-- Closing parentheses close nothing behind tokens that are balanced without them. -/
theorem Balanced.closes_eq_nil (hus : Balanced us) (h : Balanced (us ++ vs))
    (hvs : ∀ t ∈ vs, t.isPunct ")") : vs = [] := by
  cases vs with
  | nil => rfl
  | cons v vs =>
    have hv := hvs v List.mem_cons_self
    have hnone : due [] v = none := by simp [due, hv, not_isPunct_of_isPunct hv]
    have hmore := hus.of_append h
    rw [Balanced, dueAll_cons, hnone] at hmore
    cases hmore

/-- Only what the tokens spell counts. -/
theorem dueAll_congr (h : us.map Token.toLexeme = vs.map Token.toLexeme) :
    dueAll stack us = dueAll stack vs := by
  induction us generalizing stack vs with
  | nil => rw [List.map_eq_nil_iff.mp h.symm]
  | cons u us ih =>
    obtain ⟨v, vs, rfl, hlexeme, hothers⟩ := List.map_eq_cons_iff.mp h.symm
    have hspell : ∀ symbol, u.isPunct symbol = v.isPunct symbol := fun symbol => by
      rw [isPunct, isPunct, hlexeme]
    have hfirst : due stack u = due stack v := by
      simp only [due, hspell]
    rw [dueAll_cons, dueAll_cons, hfirst]
    exact congrArg _ (funext fun stack' => ih hothers.symm)

theorem balanced_congr (h : us.map Token.toLexeme = vs.map Token.toLexeme) :
    Balanced us ↔ Balanced vs := by
  rw [Balanced, Balanced, dueAll_congr h]

end SolidScript.Token
