import SolidScript.Proofs.Grammar.Progress

namespace SolidScript

/-- Whenever the rule reads a value, it has taken tokens that stand in the relation to it. -/
def Rule.Yields {α : Type} (r : Rule α) (P : List Token → α → Prop) : Prop :=
  ∀ ts v rest, r ts = .done v rest → ∃ us, ts = us ++ rest ∧ P us v

/-- Items with commas between them; one more comma may follow the last item. -/
inductive Separated {α : Type} (P : List Token → α → Prop) : List Token → List α → Prop
  | nil : Separated P [] []
  | one {us : List Token} {v : α} (item : P us v) : Separated P us [v]
  | more {us ws : List Token} {v : α} {vs : List α} {comma : Token} (item : P us v)
    (hcomma : comma.isPunct ",") (others : Separated P ws vs) :
    Separated P (us ++ comma :: ws) (v :: vs)

/-- Items one directly behind the other. -/
inductive InTurn {α : Type} (P : List Token → α → Prop) : List Token → List α → Prop
  | nil : InTurn P [] []
  | cons {us ws : List Token} {v : α} {vs : List α} (item : P us v) (others : InTurn P ws vs) :
    InTurn P (us ++ ws) (v :: vs)

/-- Items in their order, with any tokens in front of them, between them and behind them. -/
inductive Scattered {α : Type} (P : List Token → α → Prop) : List Token → List α → Prop
  | nil {us : List Token} : Scattered P us []
  | cons {us ws : List Token} {v : α} {vs : List α} (before : List Token) (item : P us v)
    (others : Scattered P ws vs) : Scattered P (before ++ (us ++ ws)) (v :: vs)

namespace Scattered

variable {α β : Type} {P : List Token → α → Prop} {Q : List Token → β → Prop} {us ws : List Token}
  {v : α} {vs vs' : List α} {t : Token}

theorem prepend (before : List Token) (h : Scattered P us vs) : Scattered P (before ++ us) vs := by
  cases h with
  | nil => exact .nil
  | cons before' item others =>
    rw [← List.append_assoc]
    exact .cons _ item others

theorem token (h : Scattered P us vs) : Scattered P (t :: us) vs := h.prepend [t]

theorem one (item : P us v) : Scattered P us [v] := by
  have hone : Scattered P ([] ++ (us ++ [])) [v] := .cons [] item .nil
  simpa using hone

theorem append (h : Scattered P us vs) (h' : Scattered P ws vs') :
    Scattered P (us ++ ws) (vs ++ vs') := by
  induction h with
  | nil => exact h'.prepend _
  | cons before item _ ih =>
    rw [List.append_assoc, List.append_assoc]
    exact .cons before item ih

theorem then_token (h : Scattered P us vs) : Scattered P (us ++ [t]) vs := by
  have hlast : Scattered P [t] [] := .nil
  simpa using h.append hlast

theorem mem (h : Scattered P us vs) (hv : v ∈ vs) : ∃ ws, ws <:+: us ∧ P ws v := by
  induction h with
  | nil => cases hv
  | @cons us ws _ _ before item _ ih =>
    obtain rfl | hv := List.mem_cons.mp hv
    · exact ⟨us, ⟨before, ws, List.append_assoc _ _ _⟩, item⟩
    · obtain ⟨xs, hxs, hwritten⟩ := ih hv
      have hlater : ws <:+ before ++ (us ++ ws) :=
        (List.suffix_append us ws).trans (List.suffix_append before _)
      exact ⟨xs, hxs.trans hlater.isInfix, hwritten⟩

/-- What stands in each of the items stands among all their tokens. -/
theorem within {Q : List Token → α → Prop} (hitem : ∀ us v, P us v → Scattered Q us [v])
    (h : Scattered P us vs) : Scattered Q us vs := by
  induction h with
  | nil => exact .nil
  | cons before item _ ih => exact ((hitem _ _ item).append ih).prepend before

/-- What stands in the items of a list with commas. -/
theorem separated {f : β → List α} {items : List β}
    (hitem : ∀ {us item}, Q us item → Scattered P us (f item)) (h : Separated Q us items) :
    Scattered P us (items.flatMap f) := by
  induction h with
  | nil => exact .nil
  | one item => simpa using hitem item
  | more item _ _ ih => exact (hitem item).append ih.token

end Scattered

namespace Rule.Yields

variable {α β σ : Type} {r : Rule α} {P : List Token → α → Prop} {Q : List Token → β → Prop}
  {f : α → Rule β}

theorem bind (hr : Yields r P) (hf : ∀ us a, P us a → Yields (f a) fun vs b => Q (us ++ vs) b) :
    Yields (r >>= f) Q := by
  intro ts b rest hread
  obtain ⟨a, mid, hfirst, hsecond⟩ := bind_eq_done_iff.mp hread
  obtain ⟨us, rfl, ha⟩ := hr ts a mid hfirst
  obtain ⟨vs, rfl, hb⟩ := hf us a ha mid b rest hsecond
  exact ⟨us ++ vs, (List.append_assoc us vs rest).symm, hb⟩

theorem pure {v : α} (h : P [] v) : Yields (Pure.pure v) P := by
  intro ts w rest hread
  cases hread
  exact ⟨[], rfl, h⟩

theorem refuse : Yields Rule.refuse P := by
  intro ts v rest hread
  cases hread

theorem look_bind {g : List Token → α} (hf : ∀ a, Yields (f a) Q) :
    Yields (Rule.look g >>= f) Q := by
  intro ts b rest hread
  obtain ⟨a, mid, hfirst, hsecond⟩ := bind_eq_done_iff.mp hread
  cases hfirst
  exact hf _ ts b rest hsecond

theorem token_bind {p : Token → Bool} {f : Token → Rule β}
    (hf : ∀ t, p t → Yields (f t) fun vs b => Q (t :: vs) b) :
    Yields (Rule.token p >>= f) Q := by
  intro ts b rest hread
  obtain ⟨t, mid, hfirst, hsecond⟩ := bind_eq_done_iff.mp hread
  obtain ⟨ht, rfl⟩ := token_eq_done hfirst
  obtain ⟨vs, rfl, hb⟩ := hf t ht mid b rest hsecond
  exact ⟨t :: vs, rfl, hb⟩

theorem optional_bind {g : Token → Option α} {f : Option α → Rule β}
    (hsome : ∀ t a, g t = some a → Yields (f (some a)) fun vs b => Q (t :: vs) b)
    (hnone : Yields (f none) Q) : Yields (Rule.optional g >>= f) Q := by
  intro ts b rest hread
  obtain ⟨found, mid, hfirst, hsecond⟩ := bind_eq_done_iff.mp hread
  cases found with
  | none =>
    obtain rfl := optional_eq_none hfirst
    exact hnone _ b rest hsecond
  | some a =>
    cases ts with
    | nil => cases hfirst
    | cons t ts =>
      cases ht : g t with
      | none =>
        rw [optional_of_none (by simpa using ht)] at hfirst
        cases hfirst
      | some a' =>
        rw [optional_of_some ht] at hfirst
        cases hfirst
        obtain ⟨vs, rfl, hb⟩ := hsome t a ht mid b rest hsecond
        exact ⟨t :: vs, rfl, hb⟩

theorem closing_bind {symbol : String} {f : Option Token → Rule β}
    (hsome : ∀ t, t.isPunct symbol → Yields (f (some t)) fun vs b => Q (t :: vs) b)
    (hnone : Yields (f none) Q) : Yields (Rule.closing symbol >>= f) Q := by
  refine optional_bind (fun t a hta => ?_) hnone
  by_cases ht : t.isPunct symbol
  · rw [if_pos ht] at hta
    cases hta
    exact hsome t ht
  · rw [if_neg ht] at hta
    cases hta

theorem accept_bind {p : Token → Bool} {f : Bool → Rule β}
    (htrue : ∀ t, p t → Yields (f true) fun vs b => Q (t :: vs) b) (hfalse : Yields (f false) Q) :
    Yields (Rule.accept p >>= f) Q := by
  intro ts b rest hread
  obtain ⟨taken, mid, hfirst, hsecond⟩ := bind_eq_done_iff.mp hread
  cases taken with
  | false =>
    obtain ⟨rfl, _⟩ := accept_eq_false hfirst
    exact hfalse _ b rest hsecond
  | true =>
    cases ts with
    | nil => cases hfirst
    | cons t ts =>
      by_cases ht : p t
      · rw [accept_of_satisfies ht] at hfirst
        cases hfirst
        obtain ⟨vs, rfl, hb⟩ := htrue t ht mid b rest hsecond
        exact ⟨t :: vs, rfl, hb⟩
      · rw [accept_of_not (by simpa using ht)] at hfirst
        cases hfirst

theorem sliced (h : Yields r P) : Yields (Rule.sliced r) fun us v => P us v.1 ∧ v.2 = us := by
  intro ts v rest hread
  obtain ⟨v, us⟩ := v
  obtain ⟨hvalue, rfl⟩ := sliced_eq_done hread
  obtain ⟨us, rfl, hv⟩ := h ts v rest hvalue
  exact ⟨us, rfl, hv, consumed_append us rest⟩

theorem spanned_bind {f : α × Span → Rule β} (hr : Yields r P)
    (hf : ∀ us a, P us a → Yields (f (a, Token.spanOf us)) fun vs b => Q (us ++ vs) b) :
    Yields (Rule.spanned r >>= f) Q := by
  have hspanned : Yields (Rule.spanned r) fun us v => P us v.1 ∧ v.2 = Token.spanOf us := by
    intro ts v rest hread
    obtain ⟨v, span⟩ := v
    obtain ⟨hvalue, rfl⟩ := spanned_eq_done hread
    obtain ⟨us, rfl, hv⟩ := hr ts v rest hvalue
    exact ⟨us, rfl, hv, by rw [consumed_append]⟩
  refine hspanned.bind ?_
  rintro us ⟨a, _⟩ ⟨ha, rfl⟩
  exact hf us a ha

/-- What a repetition has taken stands in a relation to its state, which every round keeps. -/
theorem loop {step : σ → Rule (Round σ α)} {I : List Token → σ → Prop} {state : σ}
    (hstep : ∀ us state, I us state → Yields (step state) fun vs round =>
      match round with
      | .again next => I (us ++ vs) next
      | .finished v => P (us ++ vs) v)
    (hstart : I [] state) : Yields (Rule.loop step state) P := by
  intro ts v rest hread
  refine Rule.loop_invariant (P := fun state mid => ∃ us, ts = us ++ mid ∧ I us state)
    (Q := fun v rest => ∃ us, ts = us ++ rest ∧ P us v) ?_ ?_ ⟨[], rfl, hstart⟩ hread
  · rintro state next mid rest ⟨us, rfl, hus⟩ hround
    obtain ⟨vs, rfl, hvs⟩ := hstep us state hus mid _ rest hround
    exact ⟨us ++ vs, (List.append_assoc us vs rest).symm, hvs⟩
  · rintro state v mid rest ⟨us, rfl, hus⟩ hround
    obtain ⟨vs, rfl, hvs⟩ := hstep us state hus mid _ rest hround
    exact ⟨us ++ vs, (List.append_assoc us vs rest).symm, hvs⟩

/-- What a rule that uses itself yields may be used for what stands inside. -/
theorem knot {g : Rule α → Rule α} (hg : ∀ r, Yields r P → Yields (g r) P) :
    Yields (Rule.knot g) P := by
  have hnested (depth : Nat) : Yields (Rule.nested g depth) P := by
    induction depth with
    | zero => exact refuse
    | succ depth ih => exact hg _ ih
  exact fun ts => hnested _ ts

/-- The items up to a closing mark. While the list is read, whatever items may still come complete
those that are there. -/
theorem listUntil {close : String} {item : Rule α} (h : Yields item P) :
    Yields (Rule.listUntil close item) fun us v =>
      ∃ ws, us = ws ++ [v.2] ∧ v.2.isPunct close ∧ Separated P ws v.1 := by
  refine loop (I := fun us items => ∀ ws vs, Separated P ws vs →
    Separated P (us ++ ws) (items ++ vs)) (fun us items hitems => ?_) fun ws vs hvs => hvs
  refine closing_bind (fun last hlast => .pure ?_) ?_
  · have hall := hitems [] [] .nil
    rw [List.append_nil, List.append_nil] at hall
    exact ⟨us, rfl, hlast, hall⟩
  · refine h.bind fun ws next hnext => accept_bind (fun comma hcomma => .pure ?_) ?_
    · intro xs vs hvs
      have hall := hitems _ _ (.more hnext hcomma hvs)
      simpa using hall
    · refine token_bind fun last hlast => .pure ⟨us ++ ws, ?_, hlast, hitems _ _ (.one hnext)⟩
      rw [List.append_assoc]

end Rule.Yields

end SolidScript
