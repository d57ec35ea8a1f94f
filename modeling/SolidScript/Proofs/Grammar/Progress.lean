import SolidScript.Proofs.Grammar.Rule

/-!
What rules take from the front, and why the bounds on rounds and depth never matter. Two rules agree
below `n` if they do the same on every list of fewer than `n` tokens; what a rule takes is counted
along, since it decides how long the lists are that the next rule gets. At the end stand the
equations for repetitions and for rules that use themselves, which know nothing of bounds.
-/

namespace SolidScript

open Grammar

/-- The rules do the same on all lists of fewer than `n` tokens, and whenever they read `v` there,
they take at least `c v` tokens. -/
structure Rule.Agree {α : Type} (n : Nat) (c : α → Nat) (r s : Rule α) : Prop where
  eq : ∀ ts, ts.length < n → r ts = s ts
  takes : ∀ ts v rest, ts.length < n → r ts = .done v rest → rest.length + c v ≤ ts.length

/-- What a rule takes at least, on lists of any length. -/
def Rule.Takes {α : Type} (c : α → Nat) (r : Rule α) : Prop :=
  ∀ ts v rest, r ts = .done v rest → rest.length + c v ≤ ts.length

/-- A round that asks for another one has to pay for it. -/
def Round.cost {σ α : Type} : Round σ α → Nat
  | .again _ => 1
  | .finished _ => 0

namespace Rule.Agree

variable {α β σ : Type} {n m : Nat} {c : α → Nat}

theorem takes_of_forall {r : Rule α} (h : ∀ n, Agree n c r r) : Takes c r := by
  intro ts v rest hread
  exact (h (ts.length + 1)).takes ts v rest (by omega) hread

theorem of_takes {r : Rule α} (h : Takes c r) : Agree n c r r :=
  ⟨fun _ _ => rfl, fun ts v rest _ => h ts v rest⟩

theorem mono {r s : Rule α} (h : Agree n c r s) (hle : m ≤ n) {less : α → Nat}
    (hless : ∀ v, less v ≤ c v) : Agree m less r s where
  eq ts hlen := h.eq ts (by omega)
  takes ts v rest hlen hread := by
    have htakes := h.takes ts v rest (by omega) hread
    have := hless v
    omega

theorem limit {r s : Rule α} (h : Agree n c r s) (hle : m ≤ n) : Agree m c r s :=
  h.mono hle fun _ => Nat.le_refl _

/-- The first rule leaves shorter lists to the second one, which has to take only the rest of what
both take together. -/
theorem bind {r s : Rule α} {f g : α → Rule β} {total : β → Nat} (hr : Agree n c r s)
    (hf : ∀ v, Agree (n - c v) (fun b => total b - c v) (f v) (g v)) :
    Agree n total (r >>= f) (s >>= g) where
  eq ts hlen := by
    rw [bind_apply, bind_apply, ← hr.eq ts hlen]
    cases hread : r ts with
    | stuck rest => rfl
    | done v mid =>
      have htakes := hr.takes ts v mid hlen hread
      exact (hf v).eq mid (by omega)
  takes ts b rest hlen hread := by
    obtain ⟨v, mid, hfirst, hsecond⟩ := bind_eq_done_iff.mp hread
    have htakes := hr.takes ts v mid hlen hfirst
    have hmore := (hf v).takes mid b rest (by omega) hsecond
    omega

theorem pure {v : α} (h : c v = 0) : Agree n c (Pure.pure v) (Pure.pure v) := by
  apply of_takes
  intro ts w rest hread
  cases hread
  omega

theorem refuse : Agree n c Rule.refuse Rule.refuse :=
  of_takes fun _ _ _ hread => by cases hread

theorem look (f : List Token → α) : Agree n (fun _ => 0) (Rule.look f) (Rule.look f) := by
  apply of_takes
  intro ts v rest hread
  cases hread
  simp

theorem token (p : Token → Bool) : Agree n (fun _ => 1) (Rule.token p) (Rule.token p) := by
  apply of_takes
  intro ts v rest hread
  cases ts with
  | nil => cases hread
  | cons t ts =>
    simp only [Rule.token] at hread
    split at hread <;> cases hread
    simp

theorem optional (f : Token → Option α) :
    Agree n (fun found => found.elim 0 fun _ => 1) (Rule.optional f) (Rule.optional f) := by
  apply of_takes
  intro ts v rest hread
  cases ts with
  | nil => cases hread; simp
  | cons t ts =>
    simp only [Rule.optional] at hread
    split at hread <;> cases hread <;> simp

theorem accept (p : Token → Bool) :
    Agree n (fun taken => if taken then 1 else 0) (Rule.accept p) (Rule.accept p) := by
  apply of_takes
  intro ts v rest hread
  cases ts with
  | nil => cases hread; simp
  | cons t ts =>
    simp only [Rule.accept] at hread
    split at hread <;> cases hread <;> simp

theorem sliced {r s : Rule α} (h : Agree n c r s) :
    Agree n (fun v => c v.1) (Rule.sliced r) (Rule.sliced s) where
  eq ts hlen := by simp only [Rule.sliced, h.eq ts hlen]
  takes ts v rest hlen hread := by
    simp only [Rule.sliced] at hread
    split at hread
    · next hvalue =>
      cases hread
      exact h.takes ts _ _ hlen hvalue
    · cases hread

theorem spanned {r s : Rule α} (h : Agree n c r s) :
    Agree n (fun v => c v.1) (Rule.spanned r) (Rule.spanned s) :=
  h.sliced.bind fun _ => .pure (by simp)

private theorem nothing {r s : Rule α} : Agree 0 c r s :=
  ⟨fun _ hlen => absurd hlen (Nat.not_lt_zero _), fun _ _ _ hlen => absurd hlen (Nat.not_lt_zero _)⟩

/-- As many rounds as there are tokens, and one more, are enough. -/
theorem rounds {step other : σ → Rule (Round σ α)} {k l : Nat} {state : σ}
    (hstep : ∀ state, Agree n Round.cost (step state) (other state)) (hk : n ≤ k) (hl : n ≤ l) :
    Agree n (fun _ => 0) (Rule.rounds step k state) (Rule.rounds other l state) := by
  induction k generalizing n l state with
  | zero =>
    obtain rfl : n = 0 := by omega
    exact nothing
  | succ k ih =>
    cases l with
    | zero =>
      obtain rfl : n = 0 := by omega
      exact nothing
    | succ l =>
      refine (hstep state).bind fun round => ?_
      cases round with
      | finished value => exact .pure rfl
      | again next =>
        exact (ih (fun state => (hstep state).limit (Nat.sub_le ..)) (by simp [Round.cost]; omega)
          (by simp [Round.cost]; omega)).mono (Nat.le_refl _) (by simp)

theorem loop {step other : σ → Rule (Round σ α)} {state : σ}
    (hstep : ∀ state, Agree n Round.cost (step state) (other state)) :
    Agree n (fun _ => 0) (Rule.loop step state) (Rule.loop other state) where
  eq ts hlen := (rounds (fun state => (hstep state).limit (m := ts.length + 1) (by omega))
    (Nat.le_refl _) (Nat.le_refl _)).eq ts (by omega)
  takes ts v rest hlen hread :=
    (rounds (fun state => (hstep state).limit (m := ts.length + 1) (by omega))
      (Nat.le_refl _) (Nat.le_refl _)).takes ts v rest (by omega) hread

theorem nested {f : Rule α → Rule α} {k l : Nat}
    (hf : ∀ {n r s}, Agree n c r s → Agree (n + 1) c (f r) (f s)) (hk : n ≤ k) (hl : n ≤ l) :
    Agree n c (Rule.nested f k) (Rule.nested f l) := by
  induction k generalizing n l with
  | zero =>
    obtain rfl : n = 0 := by omega
    exact nothing
  | succ k ih =>
    cases l with
    | zero =>
      obtain rfl : n = 0 := by omega
      exact nothing
    | succ l => exact (hf (ih (n := n - 1) (by omega) (by omega))).limit (by omega)

end Rule.Agree

/-- A repetition is its first round followed by the repetition from the next state. -/
theorem Rule.loop_eq {σ α : Type} {step : σ → Rule (Round σ α)} (state : σ)
    (hstep : ∀ state, Rule.Takes Round.cost (step state)) :
    Rule.loop step state = step state >>= fun round =>
      match round with
      | .again next => Rule.loop step next
      | .finished value => pure value := by
  funext ts
  change (step state ts).andThen _ = (step state ts).andThen _
  cases hread : step state ts with
  | stuck rest => rfl
  | done round rest =>
    cases round with
    | finished value => rfl
    | again next =>
      have htakes : rest.length + 1 ≤ ts.length := hstep state ts _ rest hread
      exact (Rule.Agree.rounds (n := rest.length + 1) (fun state => .of_takes (hstep state))
        (by omega) (Nat.le_refl _)).eq rest (by omega)

/-- What every round preserves holds at the end of a repetition. -/
theorem Rule.loop_invariant {σ α : Type} {step : σ → Rule (Round σ α)}
    {P : σ → List Token → Prop} {Q : α → List Token → Prop}
    (hagain : ∀ {state next ts rest}, P state ts →
      step state ts = .done (.again next) rest → P next rest)
    (hfinished : ∀ {state v ts rest}, P state ts →
      step state ts = .done (.finished v) rest → Q v rest)
    {state : σ} {v : α} {ts rest : List Token} (hstart : P state ts)
    (hread : Rule.loop step state ts = .done v rest) : Q v rest := by
  unfold Rule.loop at hread
  generalize ts.length + 1 = n at hread
  induction n generalizing state ts with
  | zero => cases hread
  | succ n ih =>
    obtain ⟨round, mid, hround, hmore⟩ := Rule.bind_eq_done_iff.mp hread
    cases round with
    | again next => exact ih (hagain hstart hround) hmore
    | finished value =>
      cases hmore
      exact hfinished hstart hround

/-- If no round leads to a state of a certain kind and the last one leaves the state alone, then a
repetition that ends in a state of this kind has taken nothing. -/
theorem Rule.loop_unchanged {σ : Type} {step : σ → Rule (Round σ σ)} {P : σ → Prop}
    (hagain : ∀ {state next ts rest}, step state ts = .done (.again next) rest → ¬P next)
    (hfinished : ∀ {state v ts rest}, step state ts = .done (.finished v) rest →
      v = state ∧ rest = ts)
    {state v : σ} {ts rest : List Token} (hread : Rule.loop step state ts = .done v rest)
    (hv : P v) : v = state ∧ rest = ts := by
  have hend : (v = state ∧ rest = ts) ∨ ¬P v := by
    refine Rule.loop_invariant (P := fun next mid => (next = state ∧ mid = ts) ∨ ¬P next)
      (Q := fun v rest => (v = state ∧ rest = ts) ∨ ¬P v) ?_ ?_ (.inl ⟨rfl, rfl⟩) hread
    · exact fun _ hround => .inr (hagain hround)
    · intro state v ts rest hbefore hround
      obtain ⟨rfl, rfl⟩ := hfinished hround
      exact hbefore
  exact hend.resolve_right (not_not_intro hv)

/-- If every round takes a token, so does the repetition. -/
theorem Rule.loop_takes {σ α : Type} {step : σ → Rule (Round σ α)} {state : σ}
    (hstep : ∀ state, Rule.Takes (fun _ => 1) (step state)) :
    Rule.Takes (fun _ => 1) (Rule.loop step state) := by
  have hcost (state : σ) : Rule.Takes Round.cost (step state) :=
    Rule.Agree.takes_of_forall fun n => (Rule.Agree.of_takes (hstep state)).mono (Nat.le_refl n)
      fun round => by cases round <;> simp [Round.cost]
  intro ts v rest hread
  rw [Rule.loop_eq state hcost] at hread
  obtain ⟨round, mid, hround, hmore⟩ := Rule.bind_eq_done_iff.mp hread
  have hone : mid.length + 1 ≤ ts.length := hstep state ts round mid hround
  have hnone : rest.length + 0 ≤ mid.length := by
    cases round with
    | finished value =>
      cases hmore
      simp
    | again next =>
      exact (Rule.Agree.loop (n := mid.length + 1) fun state => .of_takes (hcost state)).takes mid v
        rest (by omega) hmore
  change rest.length + 1 ≤ ts.length
  omega

section Knots

variable {α : Type} {c : α → Nat} {f : Rule α → Rule α}
  (hf : ∀ {n r s}, Rule.Agree n c r s → Rule.Agree (n + 1) c (f r) (f s))

include hf

theorem Rule.knot_takes : Rule.Takes c (Rule.knot f) := by
  intro ts v rest hread
  exact (Rule.Agree.nested hf (Nat.le_refl _) (Nat.le_refl _)).takes ts v rest (by omega) hread

/-- A rule that uses itself is what it is said to be, with no bound on the depth. -/
theorem Rule.knot_eq : Rule.knot f = f (Rule.knot f) := by
  funext ts
  have hinner : Rule.Agree ts.length c (Rule.nested f ts.length) (Rule.knot f) := by
    constructor
    · intro us hlen
      exact (Rule.Agree.nested hf (n := us.length + 1) (by omega) (Nat.le_refl _)).eq us (by omega)
    · exact (Rule.Agree.nested hf (Nat.le_refl _) (Nat.le_refl _)).takes
  exact (hf hinner).eq ts (by omega)

end Knots

end SolidScript
