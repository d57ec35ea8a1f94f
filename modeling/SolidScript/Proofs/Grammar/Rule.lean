import SolidScript.Proofs.Grammar.Predictive.Statement
import SolidScript.Proofs.Token

namespace SolidScript

namespace Rule

@[simp] theorem pure_apply {α : Type} (value : α) (ts : List Token) :
    (pure value : Rule α) ts = .done value ts := rfl

@[simp] theorem bind_apply {α β : Type} (r : Rule α) (f : α → Rule β) (ts : List Token) :
    (r >>= f) ts = (r ts).andThen f := rfl

end Rule

@[simp] theorem Outcome.andThen_done {α β : Type} (value : α) (rest : List Token)
    (f : α → Rule β) : (Outcome.done value rest).andThen f = f value rest := rfl

@[simp] theorem Outcome.andThen_stuck {α β : Type} (rest : List Token) (f : α → Rule β) :
    (Outcome.stuck rest).andThen f = .stuck rest := rfl

/-- The tokens behind what was read, or those at which nothing can go on. -/
def Outcome.rest {α : Type} : Outcome α → List Token
  | .done _ rest => rest
  | .stuck rest => rest

theorem Rule.rest_map {α β : Type} (r : Rule α) (f : α → β) (ts : List Token) :
    ((do return f (← r) : Rule β) ts).rest = (r ts).rest := by
  rw [bind_apply]
  cases r ts <;> rfl

theorem Outcome.map_eq {α β : Type} (r : Rule α) (f : α → β) (ts : List Token) :
    (r ts).map f = (do return f (← r) : Rule β) ts := by
  rw [Rule.bind_apply]
  cases r ts <;> rfl

theorem Rule.token_of_satisfies {p : Token → Bool} {t : Token} (h : p t) (ts : List Token) :
    Rule.token p (t :: ts) = .done t ts := by
  simp [Rule.token, h]

theorem Rule.punct_of_isPunct {symbol : String} {t : Token} (h : t.isPunct symbol)
    (ts : List Token) : Rule.punct symbol (t :: ts) = .done t ts :=
  Rule.token_of_satisfies h ts

theorem Rule.accept_of_satisfies {p : Token → Bool} {t : Token} (h : p t) (ts : List Token) :
    Rule.accept p (t :: ts) = .done true ts := by
  simp [Rule.accept, h]

/-- Nothing is taken at the end or before a token that is not wanted. -/
theorem Rule.accept_of_not {p : Token → Bool} {ts : List Token}
    (h : ∀ t ∈ ts.head?, p t = false) : Rule.accept p ts = .done false ts := by
  cases ts with
  | nil => rfl
  | cons t ts => simp [Rule.accept, h t rfl]

theorem Rule.optional_of_some {α : Type} {g : Token → Option α} {t : Token} {v : α}
    (h : g t = some v) (ts : List Token) : Rule.optional g (t :: ts) = .done (some v) ts := by
  simp [Rule.optional, h]

theorem Rule.optional_of_none {α : Type} {g : Token → Option α} {ts : List Token}
    (h : ∀ t ∈ ts.head?, g t = none) : Rule.optional g ts = .done none ts := by
  cases ts with
  | nil => rfl
  | cons t ts => simp [Rule.optional, h t rfl]

theorem Rule.took_of_isPunct {symbol : String} {t : Token} (h : t.isPunct symbol)
    (ts : List Token) : Rule.took symbol (t :: ts) = .done true ts :=
  Rule.accept_of_satisfies h ts

theorem Rule.took_of_not {symbol : String} {ts : List Token}
    (h : ∀ t ∈ ts.head?, t.isPunct symbol = false) : Rule.took symbol ts = .done false ts :=
  Rule.accept_of_not h

theorem Rule.took_of_other {symbol other : String} {t : Token} (h : t.isPunct other)
    (hne : other ≠ symbol) (ts : List Token) :
    Rule.took symbol (t :: ts) = .done false (t :: ts) := by
  apply Rule.took_of_not
  rintro _ ⟨⟩
  exact Token.not_isPunct_of_isPunct h hne

theorem Rule.closing_of_isPunct {symbol : String} {t : Token} (h : t.isPunct symbol)
    (ts : List Token) : Rule.closing symbol (t :: ts) = .done (some t) ts :=
  Rule.optional_of_some (if_pos h) ts

theorem Rule.closing_of_not {symbol : String} {ts : List Token}
    (h : ∀ t ∈ ts.head?, t.isPunct symbol = false) : Rule.closing symbol ts = .done none ts :=
  Rule.optional_of_none fun t ht => by simp [h t ht]

theorem Rule.token_of_not {p : Token → Bool} {ts : List Token} (h : ∀ t ∈ ts.head?, p t = false) :
    Rule.token p ts = .stuck ts := by
  cases ts with
  | nil => rfl
  | cons t ts => simp [Rule.token, h t rfl]

theorem Rule.token_eq_done {p : Token → Bool} {t : Token} {ts rest : List Token}
    (h : Rule.token p ts = .done t rest) : p t ∧ ts = t :: rest := by
  cases ts with
  | nil => cases h
  | cons u us =>
    simp only [Rule.token] at h
    split at h <;> cases h
    exact ⟨‹_›, rfl⟩

theorem Rule.accept_eq_false {p : Token → Bool} {ts rest : List Token}
    (h : Rule.accept p ts = .done false rest) : rest = ts ∧ ∀ t ∈ ts.head?, p t = false := by
  cases ts with
  | nil =>
    cases h
    exact ⟨rfl, fun _ => nofun⟩
  | cons t ts =>
    simp only [Rule.accept] at h
    split at h <;> cases h
    exact ⟨rfl, by simp_all⟩

theorem Rule.optional_eq_none {α : Type} {g : Token → Option α} {ts rest : List Token}
    (h : Rule.optional g ts = .done none rest) : rest = ts := by
  cases ts with
  | nil =>
    cases h
    rfl
  | cons t ts =>
    simp only [Rule.optional] at h
    split at h <;> cases h
    rfl

theorem Rule.bind_of_done {α β : Type} {r : Rule α} {ts rest : List Token} {v : α}
    (h : r ts = .done v rest) (next : α → Rule β) : (r >>= next) ts = next v rest := by
  rw [bind_apply, h, Outcome.andThen_done]

theorem Rule.bind_of_stuck {α β : Type} {r : Rule α} {ts rest : List Token}
    (h : r ts = .stuck rest) (next : α → Rule β) : (r >>= next) ts = .stuck rest := by
  rw [bind_apply, h, Outcome.andThen_stuck]

/-- Reading one thing behind another is done where both are. -/
theorem Rule.bind_eq_done_iff {α β : Type} {r : Rule α} {f : α → Rule β} {ts rest : List Token}
    {b : β} :
    (r >>= f) ts = .done b rest ↔ ∃ a mid, r ts = .done a mid ∧ f a mid = .done b rest := by
  rw [Rule.bind_apply]
  cases r ts with
  | stuck rest => simp
  | done a mid => simp [and_assoc]

@[simp] theorem consumed_append (us rest : List Token) : consumed (us ++ rest) rest = us := by
  simp [consumed]

theorem Rule.sliced_of_done {α : Type} {r : Rule α} {ts rest : List Token} {v : α}
    (h : r ts = .done v rest) : Rule.sliced r ts = .done (v, consumed ts rest) rest := by
  simp only [Rule.sliced, h]

theorem Rule.spanned_of_done {α : Type} {r : Rule α} {ts rest : List Token} {v : α}
    (h : r ts = .done v rest) :
    Rule.spanned r ts = .done (v, Token.spanOf (consumed ts rest)) rest := by
  simp [Rule.spanned, Rule.sliced_of_done h]

theorem Rule.sliced_of_stuck {α : Type} {r : Rule α} {ts rest : List Token}
    (h : r ts = .stuck rest) : Rule.sliced r ts = .stuck rest := by
  simp only [Rule.sliced, h]

theorem Rule.spanned_of_stuck {α : Type} {r : Rule α} {ts rest : List Token}
    (h : r ts = .stuck rest) : Rule.spanned r ts = .stuck rest := by
  simp [Rule.spanned, Rule.sliced_of_stuck h]

theorem Rule.sliced_eq_done {α : Type} {r : Rule α} {ts us rest : List Token} {v : α}
    (h : Rule.sliced r ts = .done (v, us) rest) : r ts = .done v rest ∧ us = consumed ts rest := by
  simp only [Rule.sliced] at h
  split at h
  · next hread =>
    cases h
    exact ⟨hread, rfl⟩
  · cases h

theorem Rule.spanned_eq_done {α : Type} {r : Rule α} {ts rest : List Token} {v : α} {span : Span}
    (h : Rule.spanned r ts = .done (v, span) rest) :
    r ts = .done v rest ∧ span = Token.spanOf (consumed ts rest) := by
  obtain ⟨⟨w, us⟩, mid, hsliced, hpure⟩ := Rule.bind_eq_done_iff.mp h
  obtain ⟨hread, rfl⟩ := Rule.sliced_eq_done hsliced
  cases hpure
  exact ⟨hread, rfl⟩

end SolidScript
