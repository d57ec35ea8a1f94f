import SolidScript.Proofs.Grammar.Prediction

namespace SolidScript

/-- A round may be followed by what the whole may begin with if there is another round, and by what
may follow the whole if there is none. -/
def Round.follow {σ α : Type} (first : Follow) (follow : α → Follow) : Round σ α → Follow
  | .again _ => first
  | .finished v => follow v

namespace Rule

variable {α β σ : Type}

/-- The rule predicts on all lists of fewer than `n` tokens, takes at least `c v` tokens where it
reads `v`, and can be opened by tokens that begin as `first` has it. -/
structure Predicts (n : Nat) (c : α → Nat) (first : Follow) (follow : α → Follow) (r : Rule α) :
    Prop where
  takes : Takes c r
  below : ∀ ts, ts.length < n → PredictsAt r follow ts
  opens : Opens r first follow

namespace Predicts

variable {n m : Nat} {c : α → Nat} {d : β → Nat} {first : Follow} {between : α → Follow}
  {follow : β → Follow} {r : Rule α} {f : α → Rule β}

theorem mono {less : α → Nat} {wide : Follow} {narrow : α → Follow}
    (h : Predicts n c first between r) (hn : m ≤ n) (hless : ∀ v, less v ≤ c v)
    (hfirst : ∀ o, first o → wide o) (hfollow : ∀ v o, narrow v o → between v o) :
    Predicts m less wide narrow r where
  takes ts v rest hread := by
    have htakes := h.takes ts v rest hread
    have := hless v
    omega
  below ts hlen := (h.below ts (by omega)).mono hfollow
  opens := by
    obtain ⟨us, v, hus, hhead⟩ := h.opens
    exact ⟨us, v, fun rest hrest => hus rest (hfollow v _ hrest),
      fun rest hrest => hfirst _ (hhead rest (hfollow v _ hrest))⟩

theorem limit (h : Predicts n c first between r) (hn : m ≤ n) : Predicts m c first between r :=
  h.mono hn (fun _ => Nat.le_refl _) (fun _ => id) fun _ _ => id

/-- A rule that one token opens may stand wherever that token may. -/
theorem start {x : Token} (h : Predicts n c (· = some x) between r) (hn : m ≤ n)
    (hfirst : first (some x)) : Predicts m c first between r := by
  refine h.mono hn (fun _ => Nat.le_refl _) ?_ fun _ _ => id
  rintro _ rfl
  exact hfirst

theorem narrow {narrow : α → Follow} (h : Predicts n c first between r)
    (hle : ∀ v o, narrow v o → between v o) : Predicts n c first narrow r :=
  h.mono (Nat.le_refl _) (fun _ => Nat.le_refl _) (fun _ => id) hle

theorem drop (h : Predicts n c first between r) : Predicts n (fun _ => 0) first between r :=
  h.mono (Nat.le_refl _) (fun _ => Nat.zero_le _) (fun _ => id) fun _ _ => id

/-- It may depend on the value read first how many tokens the second rule takes. Where it may take
none, what comes behind both has to suit the first rule too. -/
theorem bindBy (l : α → Nat) (hr : Predicts n c first between r)
    (hf : ∀ v, Predicts (n - c v) (fun _ => l v) (between v) follow (f v))
    (hnone : ∀ v, l v = 0 → ∀ b o, follow b o → between v o) (htotal : ∀ v b, d b ≤ c v + l v) :
    Predicts n d first follow (r >>= f) where
  takes ts b rest hread := by
    obtain ⟨v, mid, hfirst, hsecond⟩ := bind_eq_done_iff.mp hread
    have hone := hr.takes ts v mid hfirst
    have htwo : rest.length + l v ≤ mid.length := (hf v).takes mid b rest hsecond
    have := htotal v b
    omega
  below ts hlen := by
    refine (hr.below ts hlen).bind ?_ (fun v => (hf v).opens) ?_
    · intro v mid hread
      have htakes := hr.takes ts v mid hread
      exact (hf v).below mid (by omega)
    · intro v mid b hread
      have htakes : mid.length + l v ≤ mid.length := (hf v).takes mid b mid hread
      exact hnone v (by omega) b
  opens := hr.opens.bind fun v => (hf v).opens

/-- If the second rule takes a token, it alone looks at what comes behind both. -/
theorem ends (hr : Predicts n c first between r)
    (hf : ∀ v, Predicts (n - c v) (fun _ => 1) (between v) follow (f v)) :
    Predicts n (fun _ => 1) first follow (r >>= f) :=
  hr.bindBy (fun _ => 1) hf (by simp) (by simp)

/-- If the second rule may take nothing, what comes behind both has to suit the first one too. -/
theorem bind {k : Nat} (hr : Predicts n (fun _ => k) first between r)
    (hf : ∀ v, Predicts (n - k) (fun _ => 0) (between v) follow (f v))
    (hnone : ∀ v b o, follow b o → between v o) : Predicts n (fun _ => k) first follow (r >>= f) :=
  hr.bindBy (fun _ => 0) hf (fun v _ => hnone v) (by simp)

theorem pure {v : α} (h : ∀ o, between v o → first o) :
    Predicts n (fun _ => 0) first between (Pure.pure v) where
  takes ts w rest hread := by
    cases hread
    simp
  below ts _ := .of_done [] rfl fun _ _ => rfl
  opens := ⟨[], v, fun _ _ => rfl, fun rest => h rest.head?⟩

theorem map {k : Nat} {g : α → β} (h : Predicts n (fun _ => k) first between r)
    (hle : ∀ v o, follow (g v) o → between v o) :
    Predicts n (fun _ => k) first follow (do return g (← r)) where
  takes ts b rest hread := by
    obtain ⟨v, mid, hfirst, hsecond⟩ := bind_eq_done_iff.mp hread
    cases hsecond
    exact h.takes ts v rest hfirst
  below ts hlen := (h.below ts hlen).map hle
  opens := h.opens.bind fun v => ⟨[], g v, fun _ _ => rfl, fun rest => hle v rest.head?⟩

theorem token {p : Token → Bool} (x : Token) (hx : p x = true) (hfirst : first (some x)) :
    Predicts n (fun _ => 1) first (fun _ => Follow.any) (Rule.token p) := by
  have hopens : Opens (Rule.token p) first (fun _ => Follow.any) :=
    ⟨[x], x, fun rest _ => token_of_satisfies hx rest, fun _ _ => hfirst⟩
  refine ⟨Agree.takes_of_forall fun _ => .token p, fun ts _ => ?_, hopens⟩
  cases ts with
  | nil => exact .nil rfl hopens
  | cons t ts =>
    by_cases ht : p t
    · exact .of_done [t] (token_of_satisfies ht ts) fun other _ => token_of_satisfies ht other
    · exact .of_stuck [] fun other => by simp [Rule.token, ht]

/-- A rule that begins with one certain token. -/
theorem token_bind {p : Token → Bool} {f : Token → Rule β} (x : Token) (hx : p x = true)
    (hfirst : first (some x)) (hf : ∀ t, Predicts (n - 1) (fun _ => 0) Follow.any follow (f t)) :
    Predicts n (fun _ => 1) first follow (Rule.token p >>= f) :=
  (token x hx hfirst).bind hf fun _ _ _ _ => trivial

theorem optional {g : Token → Option α} :
    Predicts n (fun v => v.elim 0 fun _ => 1) first
      (fun v o => v = none → first o ∧ ∀ t ∈ o, g t = none) (Rule.optional g) := by
  refine ⟨Agree.takes_of_forall fun _ => .optional g, fun ts _ => ?_,
    [], none, fun rest hrest => optional_of_none (hrest rfl).2, fun rest hrest => (hrest rfl).1⟩
  by_cases hhead : ∀ t ∈ ts.head?, g t = none
  · refine .of_done [] (optional_of_none hhead) fun other hother => optional_of_none ?_
    rcases hother with hother | hother
    · rwa [List.nil_append, hother]
    · exact (hother rfl).2
  · cases ts with
    | nil => simp at hhead
    | cons t ts =>
      obtain ⟨v, hv⟩ := Option.ne_none_iff_exists'.mp (by simpa using hhead)
      exact .of_done [t] (optional_of_some hv ts) fun other _ => optional_of_some hv other

/-- A rule that begins with an optional token. Where it does without, and takes nothing else, what
comes behind it must not be that token. -/
theorem optional_bind {k : Nat} {g : Token → Option α} {f : Option α → Rule β} (hk : k ≤ 1)
    (hsome : ∀ v, Predicts (n - 1) (fun _ => 0) Follow.any follow (f (some v)))
    (hnone : Predicts n (fun _ => k) (fun o => first o ∧ ∀ t ∈ o, g t = none) follow (f none))
    (hempty : k = 0 → ∀ b o, follow b o → first o ∧ ∀ t ∈ o, g t = none) :
    Predicts n (fun _ => k) first follow (Rule.optional g >>= f) := by
  refine Predicts.optional.bindBy (fun v => v.elim k fun _ => 0) ?_ ?_ ?_
  · rintro (_ | v)
    · exact hnone.mono (Nat.le_refl _) (fun _ => Nat.le_refl _) (fun o ho _ => ho) fun _ _ => id
    · exact (hsome v).mono (Nat.le_refl _) (fun _ => Nat.le_refl _) (fun _ _ => nofun) fun _ _ => id
  · rintro (_ | v) hzero b o ho hv
    · exact hempty hzero b o ho
    · cases hv
  · rintro (_ | v) <;> simp [hk]

theorem accept {p : Token → Bool} :
    Predicts n (fun taken => if taken then 1 else 0) first
      (fun taken o => taken = false → first o ∧ ∀ t ∈ o, p t = false) (Rule.accept p) := by
  refine ⟨Agree.takes_of_forall fun _ => .accept p, fun ts _ => ?_,
    [], false, fun rest hrest => accept_of_not (hrest rfl).2, fun rest hrest => (hrest rfl).1⟩
  by_cases hhead : ∀ t ∈ ts.head?, p t = false
  · refine .of_done [] (accept_of_not hhead) fun other hother => accept_of_not ?_
    rcases hother with hother | hother
    · rwa [List.nil_append, hother]
    · exact (hother rfl).2
  · cases ts with
    | nil => simp at hhead
    | cons t ts =>
      have ht : p t := by simpa using hhead
      exact .of_done [t] (accept_of_satisfies ht ts) fun other _ => accept_of_satisfies ht other

/-- A rule that begins with an optional token and goes on differently with and without it. -/
theorem accept_bind {k : Nat} {p : Token → Bool} {f : Bool → Rule β} (hk : k ≤ 1)
    (htrue : Predicts (n - 1) (fun _ => 0) Follow.any follow (f true))
    (hfalse : Predicts n (fun _ => k) (fun o => first o ∧ ∀ t ∈ o, p t = false) follow (f false))
    (hempty : k = 0 → ∀ b o, follow b o → first o ∧ ∀ t ∈ o, p t = false) :
    Predicts n (fun _ => k) first follow (Rule.accept p >>= f) := by
  refine Predicts.accept.bindBy (fun taken => if taken then 0 else k) ?_ ?_ ?_
  · rintro (_ | _)
    · exact hfalse.mono (Nat.le_refl _) (fun _ => Nat.le_refl _) (fun o ho _ => ho) fun _ _ => id
    · exact htrue.mono (Nat.le_refl _) (fun _ => Nat.le_refl _) (fun _ _ => nofun) fun _ _ => id
  · rintro (_ | _) hzero b o ho hv
    · exact hempty hzero b o ho
    · cases hv
  · rintro (_ | _) <;> simp [hk]

/-- To look at the next token is to ask that it stays as it is. -/
theorem look {g : Option Token → α} :
    Predicts n (fun _ => 0) first (fun v o => first o ∧ g o = v)
      (Rule.look fun ts => g ts.head?) := by
  refine ⟨Agree.takes_of_forall fun _ => .look _, fun ts _ => ?_,
    [], g none, fun rest hrest => ?_, fun _ hrest => hrest.1⟩
  · refine .of_done [] (v := g ts.head?) rfl fun other hother => ?_
    rcases hother with hother | hother
    · rw [← hother]
      rfl
    · rw [← hother.2]
      rfl
  · rw [← hrest.2]
    rfl

theorem agree (h : Predicts n c first between r) : Agree m c r r := .of_takes h.takes

theorem sliced (h : Predicts n c first between r) :
    Predicts n (fun v => c v.1) first (fun v => between v.1) (Rule.sliced r) := by
  have hslice {us rest : List Token} {v : α} (hread : r (us ++ rest) = .done v rest) :
      Rule.sliced r (us ++ rest) = .done (v, us) rest := by
    simp [Rule.sliced, hread, consumed]
  refine ⟨Agree.takes_of_forall fun _ => h.agree.sliced, fun ts hlen => ?_, ?_⟩
  · cases hvalue : r ts with
    | done value left =>
      obtain ⟨us, rfl, hother⟩ := (h.below ts hlen).done hvalue
      exact .of_done us (hslice hvalue) fun other hhead => hslice (hother other hhead)
    | stuck left =>
      cases left with
      | cons t left =>
        obtain ⟨us, rfl, hother⟩ := (h.below ts hlen).stuck hvalue
        exact .of_stuck us fun other => by simp [Rule.sliced, hother]
      | nil =>
        obtain ⟨us, v, hus⟩ := (h.below ts hlen).ended hvalue
        refine ⟨fun hread => ?_, fun hread => ?_, fun _ => ⟨us, (v, ts ++ us), ?_⟩⟩
        · simp [Rule.sliced, hvalue] at hread
        · simp [Rule.sliced, hvalue] at hread
        · exact fun rest hrest => hslice (hus rest hrest)
  · obtain ⟨us, v, hus, hhead⟩ := h.opens
    exact ⟨us, (v, us), fun rest hrest => hslice (hus rest hrest), hhead⟩

theorem spanned {k : Nat} {a : Follow} (h : Predicts n (fun _ => k) first (fun _ => a) r) :
    Predicts n (fun _ => k) first (fun _ => a) (Rule.spanned r) :=
  h.sliced.map fun _ _ => id

/-- A repetition predicts if each of its rounds does. In every state some tokens end it, and it
looks at what comes behind it as carefully as at its own beginning, unless it takes a token. -/
theorem loop {step : σ → Rule (Round σ α)} {follow : α → Follow} (state : σ)
    (htakes : ∀ state, Takes Round.cost (step state))
    (hstep : ∀ state ts, ts.length < n → PredictsAt (step state) (Round.follow first follow) ts)
    (hfinished : ∀ state, ∃ us v, Reads (step state) us (.finished v) (follow v) ∧
      ∀ rest : List Token, follow v rest.head? → first (us ++ rest).head?)
    (hnone : ∀ state ts v, Rule.loop step state ts = .done v ts → ∀ o, follow v o → first o) :
    Predicts n (fun _ => 0) first follow (Rule.loop step state) := by
  have hopens (state : σ) : Opens (Rule.loop step state) first follow := by
    obtain ⟨us, v, hus, hhead⟩ := hfinished state
    refine ⟨us, v, fun rest hrest => ?_, hhead⟩
    rw [loop_eq state htakes, bind_apply, hus rest hrest]
    rfl
  refine ⟨Agree.takes_of_forall fun _ => .loop fun state => .of_takes (htakes state),
    fun ts hlen => ?_, hopens state⟩
  · induction hts : ts.length using Nat.strongRecOn generalizing state ts with
    | _ size ih =>
      rw [loop_eq state htakes]
      apply (hstep state ts hlen).bind
      · intro round mid hread
        cases round with
        | finished v => exact (pure (n := mid.length + 1) fun _ => id).below mid (by omega)
        | again next =>
          have hless : mid.length + 1 ≤ ts.length := htakes state ts _ mid hread
          exact ih mid.length (by omega) next mid (by omega) rfl
      · intro round
        cases round with
        | finished v => exact ⟨[], v, fun _ _ => rfl, fun _ => id⟩
        | again next => exact hopens next
      · intro round mid b hread
        cases round with
        | finished v =>
          cases hread
          exact fun _ => id
        | again next => exact hnone next mid b hread

end Predicts

end Rule

end SolidScript
