import SolidScript.Proofs.Grammar.Progress

namespace SolidScript

/-- What may come next: a token, or the end of the tokens. -/
abbrev Follow := Option Token → Prop

namespace Follow

/-- Nothing is asked of what comes next. -/
def any : Follow := fun _ => True

/-- Only the given punctuation may come next, or the end. -/
def symbols (symbols : List String) : Follow := fun o => ∀ t ∈ o, ∃ s ∈ symbols, t.isPunct s

theorem symbols_none (l : List String) : symbols l none := nofun

theorem symbols_mono {l m : List String} (h : l ⊆ m) {o : Option Token} (ho : symbols l o) :
    symbols m o := by
  intro t ht
  obtain ⟨s, hs, hpunct⟩ := ho t ht
  exact ⟨s, h hs, hpunct⟩

theorem symbols_some {l : List String} {s : String} {t : Token} (hs : s ∈ l) (ht : t.isPunct s) :
    symbols l (some t) := by
  rintro _ ⟨⟩
  exact ⟨s, hs, ht⟩

theorem symbols_ofPunct {l : List String} {s : String} (h : s ∈ l) :
    symbols l (some (Token.ofPunct s)) := symbols_some h (by simp)

theorem not_isPunct_of_symbols {l : List String} {s : String} (h : s ∉ l) {o : Option Token}
    (ho : symbols l o) : ∀ t ∈ o, t.isPunct s = false := by
  intro t ht
  obtain ⟨symbol, hsymbol, hpunct⟩ := ho t ht
  refine Bool.eq_false_iff.mpr fun hother => h ?_
  rwa [Token.isPunct_unique hother hpunct]

end Follow

/-- The rule reads `v` from exactly `us` if what comes next is as `follow` has it. -/
def Rule.Reads {α : Type} (r : Rule α) (us : List Token) (v : α) (follow : Follow) : Prop :=
  ∀ rest : List Token, follow rest.head? → r (us ++ rest) = .done v rest

theorem Rule.Reads.bind {α β : Type} {r : Rule α} {f : α → Rule β} {us vs : List Token} {v : α}
    {b : β} {between follow : Follow} (hr : Reads r us v between) (hf : Reads (f v) vs b follow)
    (hnext : ∀ rest : List Token, follow rest.head? → between (vs ++ rest).head?) :
    Reads (r >>= f) (us ++ vs) b follow := by
  intro rest hrest
  rw [bind_apply, List.append_assoc, hr (vs ++ rest) (hnext rest hrest)]
  exact hf rest hrest

/-- A repetition stops where its next round is the last one. -/
theorem Rule.loop_of_finished {σ α : Type} {step : σ → Rule (Round σ α)} {state : σ} {v : α}
    {ts rest : List Token} (h : step state ts = .done (.finished v) rest) :
    Rule.loop step state ts = .done v rest := by
  change (step state ts).andThen _ = _
  rw [h]
  rfl

namespace Grammar

open Rule

variable {sub operand : Rule Expr} {us : List Token} {e : Expr} {wide narrow : Follow}

theorem ofToken?_of_isName {t : Token} (ht : t.isName) : Literal.ofToken? t = none := by
  simp only [Token.isName, Bool.or_eq_true, decide_eq_true_eq] at ht
  rcases ht with ht | ht <;> simp [Literal.ofToken?, ht]

theorem ofToken?_of_isPunct {t : Token} {symbol : String} (ht : t.isPunct symbol) :
    Literal.ofToken? t = none := by
  simp only [Token.isPunct, Bool.and_eq_true, decide_eq_true_eq] at ht
  simp [Literal.ofToken?, ht.1]

theorem primary_of_literal {t : Token} {value : Literal} (ht : Literal.ofToken? t = some value)
    (ts : List Token) : primary sub (t :: ts) = .done (.literal value t) ts := by
  simp only [primary, ht]

theorem primary_of_isName {t : Token} (ht : t.isName) (ts : List Token) :
    primary sub (t :: ts) = nameOrCall sub (t :: ts) := by
  simp only [primary, ofToken?_of_isName ht, ht, if_true]

theorem primary_of_square {t : Token} (ht : t.isPunct "[") (ts : List Token) :
    primary sub (t :: ts) = bracketed sub (t :: ts) := by
  simp [primary, ofToken?_of_isPunct ht, Token.not_isName_of_isPunct ht, ht]

theorem primary_of_round {t : Token} (ht : t.isPunct "(") (ts : List Token) :
    primary sub (t :: ts) = parenthesised sub (t :: ts) := by
  have hsquare : t.isPunct "[" = false := Token.not_isPunct_of_isPunct ht (by decide)
  simp [primary, ofToken?_of_isPunct ht, Token.not_isName_of_isPunct ht, ht, hsquare]

theorem nameOrCall_of_isName {t : Token} (ht : t.isName) (ts : List Token) :
    nameOrCall sub (t :: ts) =
      if ts.head?.any (·.isPunct "(") then
        (do
          let (args, close) ← arguments sub
          return .call t.text args ⟨t.offset, close.stop⟩ : Rule Expr) ts
      else .done (.identifier t.text t) ts := by
  change (Rule.token _ (t :: ts)).andThen _ = _
  rw [token_of_satisfies ht]
  change (if _ then _ else _ : Rule Expr) ts = _
  split <;> rfl

/-- Without an opening bracket there is no further index. -/
theorem indices_stop {rest : List Token} (h : ∀ t ∈ rest.head?, t.isPunct "[" = false) :
    loop (indexRound sub) e rest = .done e rest := by
  apply loop_of_finished
  simp [indexRound, took, accept_of_not h]

/-- Without an operator of the level there is no further operand. -/
theorem operations_stop {level : List BinaryOp} {rest : List Token}
    (h : ∀ t ∈ rest.head?, binaryOp? level t = none) :
    loop (operationRound level operand) e rest = .done e rest := by
  apply loop_of_finished
  simp [operationRound, optional_of_none h]

theorem indexed_reads (h : Reads (primary sub) us e wide)
    (hnext : ∀ o, narrow o → wide o ∧ ∀ t ∈ o, t.isPunct "[" = false) :
    Reads (indexed sub) us e narrow := by
  intro rest hrest
  obtain ⟨hwide, hstop⟩ := hnext _ hrest
  rw [indexed, bind_apply, h rest hwide]
  exact indices_stop hstop

theorem unary_reads (h : Reads operand us e wide) {t : Token} (ht : us.head? = some t)
    (hop : unaryOp? t = none) : Reads (unary operand) us e wide := by
  intro rest hrest
  cases us with
  | nil => cases ht
  | cons u us =>
    cases ht
    simpa [unary, hop] using h rest hrest

theorem levelled_reads {level : List BinaryOp} (h : Reads operand us e wide)
    (hnext : ∀ o, narrow o → wide o ∧ ∀ t ∈ o, binaryOp? level t = none) :
    Reads (levelled level operand) us e narrow := by
  intro rest hrest
  obtain ⟨hwide, hstop⟩ := hnext _ hrest
  rw [levelled, bind_apply, h rest hwide]
  exact operations_stop hstop

/-- The punctuation at which every expression stops. -/
def closers : List String := [")", "]", ";", ",", ":", "="]

theorem closers_ofPunct {symbol : String} (h : symbol ∈ closers) :
    Follow.symbols closers (some (Token.ofPunct symbol)) := Follow.symbols_ofPunct h

/-- The symbols of the operators of some levels. -/
def levelSymbols (levels : List (List BinaryOp)) : List String :=
  levels.flatten.map BinaryOp.symbol

/-- The punctuation that may follow an operand: an operator or a closer. -/
def operandFollow : List String := levelSymbols BinaryOp.levels ++ "?" :: closers

theorem binaryOp?_eq_none {level : List BinaryOp} {l : List String} {o : Option Token}
    (hlevel : ∀ op ∈ level, op.symbol ∉ l) (ho : Follow.symbols l o) :
    ∀ t ∈ o, binaryOp? level t = none := by
  intro t ht
  refine List.find?_eq_none.mpr fun op hop => ?_
  simp [Follow.not_isPunct_of_symbols (hlevel op hop) ho t ht]

/-- No operator of the first level has the symbol of a later one. -/
theorem levelSymbols_disjoint {level : List BinaryOp} {levels : List (List BinaryOp)}
    {l : List String} (h : (levelSymbols (level :: levels) ++ l).Nodup) :
    (∀ op ∈ level, op.symbol ∉ levelSymbols levels ++ l) ∧ (levelSymbols levels ++ l).Nodup := by
  rw [levelSymbols, List.flatten_cons, List.map_append, List.append_assoc, List.nodup_append] at h
  refine ⟨fun op hop hmem => ?_, h.2.1⟩
  exact h.2.2 op.symbol (List.mem_map_of_mem hop) op.symbol hmem rfl

/-- What an operand reads is read as an operation of any level, if no operator follows. -/
theorem levels_reads {levels : List (List BinaryOp)} {l : List String}
    (hsymbols : (levelSymbols levels ++ l).Nodup)
    (h : Reads operand us e (Follow.symbols (levelSymbols levels ++ l))) :
    Reads (levels.foldl (fun operand level => levelled level operand) operand) us e
      (Follow.symbols l) := by
  induction levels generalizing operand with
  | nil => exact h
  | cons level levels ih =>
    obtain ⟨hlevel, hsymbols⟩ := levelSymbols_disjoint hsymbols
    refine ih hsymbols (levelled_reads h fun o ho => ⟨?_, binaryOp?_eq_none hlevel ho⟩)
    refine Follow.symbols_mono ?_ ho
    simp [levelSymbols]

theorem operation_reads (h : Reads (unary (indexed sub)) us e (Follow.symbols operandFollow)) :
    Reads (operation sub) us e (Follow.symbols ("?" :: closers)) :=
  levels_reads (by decide) h

theorem conditional_reads (h : Reads (operation sub) us e wide)
    (hnext : ∀ o, narrow o → wide o ∧ ∀ t ∈ o, t.isPunct "?" = false) :
    Reads (conditional sub) us e narrow := by
  intro rest hrest
  obtain ⟨hwide, hstop⟩ := hnext _ hrest
  simp [conditional, h rest hwide, took, accept_of_not hstop]

/-- What binds tighter than all operators is an expression, if a closer follows. -/
theorem conditional_reads_primary {t : Token} (hop : unaryOp? t = none)
    (h : Reads (primary sub) (t :: us) e (Follow.symbols ("[" :: operandFollow))) :
    Reads (conditional sub) (t :: us) e (Follow.symbols closers) := by
  have hindexed : Reads (indexed sub) (t :: us) e (Follow.symbols operandFollow) :=
    indexed_reads h fun o ho =>
      ⟨Follow.symbols_mono (by simp) ho, Follow.not_isPunct_of_symbols (by decide) ho⟩
  refine conditional_reads (operation_reads (unary_reads hindexed rfl hop)) fun o ho => ?_
  exact ⟨Follow.symbols_mono (by simp) ho, Follow.not_isPunct_of_symbols (by decide) ho⟩

/-- A name is no operator. -/
theorem unaryOp?_of_isName {t : Token} (ht : t.isName) : unaryOp? t = none := by
  refine List.find?_eq_none.mpr fun op _ => ?_
  simp only [Token.isName, Bool.or_eq_true, decide_eq_true_eq] at ht
  rcases ht with ht | ht <;> simp [Token.isPunct, ht]

end Grammar

end SolidScript
