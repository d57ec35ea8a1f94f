import SolidScript.Proofs.Grammar.Brackets

namespace SolidScript

instance : LawfulMonad Rule := by
  refine LawfulMonad.mk' Rule (fun r => ?_) (fun _ _ => rfl) fun r f g => ?_
  · funext ts
    change (r ts).andThen _ = _
    cases r ts <;> rfl
  · funext ts
    change ((r ts).andThen f).andThen g = (r ts).andThen _
    cases r ts <;> rfl

namespace Rule

variable {α : Type} {close : String} {item : Rule α} {ts rest : List Token} {items : List α}

theorem listRound_of_not_close (h : ∀ t ∈ ts.head?, t.isPunct close = false) :
    listRound close item items ts = (item >>= fun v => do
      if ← took "," then return .again (items ++ [v])
      else return .finished (items ++ [v], ← punct close)) ts := by
  rw [listRound, bind_apply, closing_of_not h]
  rfl

theorem rounds_of_close {t : Token} (ht : t.isPunct close) (n : Nat) (ts : List Token) :
    rounds (listRound close item) (n + 1) items (t :: ts) = .done (items, t) ts := by
  simp [rounds, listRound, closing_of_isPunct ht]

/-- Without the closing punctuation there is one more item, and a comma if there are others. -/
theorem rounds_of_not_close (h : ∀ t ∈ ts.head?, t.isPunct close = false) (n : Nat) :
    rounds (listRound close item) (n + 1) items ts = (item >>= fun v => do
      if ← took "," then rounds (listRound close item) n (items ++ [v])
      else return (items ++ [v], ← punct close)) ts := by
  rw [rounds, bind_apply, listRound_of_not_close h, ← bind_apply, bind_assoc]
  refine congrArg (fun more => (item >>= more) ts) (funext fun v => ?_)
  rw [bind_assoc]
  refine congrArg (took "," >>= ·) (funext fun taken => ?_)
  cases taken with
  | true => exact pure_bind _ _
  | false =>
    simp only [Bool.false_eq_true, if_false, bind_assoc, pure_bind]

theorem exists_cons_of_not {q : Token → Bool} (h : ¬∀ t ∈ ts.head?, q t = false) :
    ∃ t us, ts = t :: us ∧ q t := by
  cases ts with
  | nil => exact absurd (fun _ => nofun) h
  | cons t us => exact ⟨t, us, rfl, by simpa using h⟩

theorem exists_cons_of_not_none {f : Token → Option α} (h : ¬∀ t ∈ ts.head?, f t = none) :
    ∃ t us v, ts = t :: us ∧ f t = some v := by
  cases ts with
  | nil => exact absurd (fun _ => nofun) h
  | cons t us =>
    obtain ⟨v, hv⟩ := Option.ne_none_iff_exists'.mp fun hnone => h (by simpa using hnone)
    exact ⟨t, us, v, rfl, hv⟩

/-- The items read before make no difference to those that are read next. -/
theorem rounds_append (before items : List α) (n : Nat) :
    rounds (listRound close item) n (before ++ items) = (do
      let (more, last) ← rounds (listRound close item) n items
      return (before ++ more, last)) := by
  induction n generalizing items with
  | zero => rfl
  | succ n ih =>
    funext ts
    rw [bind_apply]
    by_cases h : ∀ t ∈ ts.head?, t.isPunct close = false
    · rw [rounds_of_not_close h, rounds_of_not_close h, ← bind_apply, bind_assoc]
      refine congrArg (fun more => (item >>= more) ts) (funext fun v => ?_)
      rw [bind_assoc]
      refine congrArg (took "," >>= ·) (funext fun taken => ?_)
      cases taken with
      | true => simp only [if_true, List.append_assoc, ih]
      | false => simp only [Bool.false_eq_true, if_false, bind_assoc, pure_bind, List.append_assoc]
    · obtain ⟨t, us, rfl, ht⟩ := exists_cons_of_not h
      rw [rounds_of_close ht, rounds_of_close ht]
      rfl

/-- A list that does not end at once begins with an item. -/
theorem listUntil_of_not_close (htakes : Takes (fun _ => 1) item)
    (h : ∀ t ∈ ts.head?, t.isPunct close = false) :
    listUntil close item ts = (item >>= fun v => do
      if ← took "," then
        let (others, last) ← listUntil close item
        return (v :: others, last)
      else return ([v], ← punct close)) ts := by
  change rounds (listRound close item) (ts.length + 1) [] ts = _
  rw [rounds_of_not_close h, bind_apply, bind_apply]
  cases hread : item ts with
  | stuck rest => rfl
  | done v mid =>
    rw [Outcome.andThen_done, Outcome.andThen_done, bind_apply, bind_apply]
    have hmid : mid.length + 1 ≤ ts.length := htakes ts v mid hread
    by_cases hcomma : ∀ t ∈ mid.head?, t.isPunct "," = false
    · rw [took_of_not hcomma]
      rfl
    · obtain ⟨t, us, rfl, ht⟩ := exists_cons_of_not hcomma
      simp only [List.length_cons] at hmid
      have hcost (items : List α) : Takes Round.cost (listRound close item items) :=
        Agree.takes_of_forall fun _ => Grammar.listRound_agree (.of_takes htakes)
      have hagree : Agree (us.length + 1) (fun _ => 0) (rounds (listRound close item) ts.length [])
          (rounds (listRound close item) (us.length + 1) []) :=
        .rounds (fun items => .of_takes (hcost items)) (by omega) (Nat.le_refl _)
      have hfuel : rounds (listRound close item) ts.length [] us = listUntil close item us :=
        hagree.eq us (Nat.lt_succ_self _)
      have hsplit : rounds (listRound close item) ts.length [v] = (do
          let (more, last) ← rounds (listRound close item) ts.length []
          return (v :: more, last)) := rounds_append [v] [] ts.length
      rw [took_of_isPunct ht]
      simp only [Outcome.andThen_done, if_true, List.nil_append]
      rw [hsplit, bind_apply, hfuel, bind_apply]

theorem accept_suffix {p : Token → Bool} {taken : Bool} (h : accept p ts = .done taken rest) :
    rest <:+ ts := by
  cases taken with
  | false =>
    obtain ⟨rfl, _⟩ := accept_eq_false h
    exact List.suffix_refl _
  | true =>
    cases ts with
    | nil => cases h
    | cons t us =>
      simp only [accept] at h
      split at h <;> cases h
      exact List.suffix_cons t _

/-- The rule takes nothing behind the token that it gives along with the value. -/
def ClosesAt {β : Type} (r : Rule (β × Token)) (ts : List Token) : Prop :=
  ∀ v last rest, r ts = .done (v, last) rest → last :: rest <:+ ts

theorem ClosesAt.token {β : Type} {q : Token → Bool} (v : β) :
    ClosesAt (do return (v, ← Rule.token q)) ts := by
  intro w last rest h
  obtain ⟨t, left, ht, hpure⟩ := bind_eq_done_iff.mp h
  cases hpure
  obtain ⟨_, rfl⟩ := token_eq_done ht
  exact List.suffix_refl _

theorem ClosesAt.bind {β : Type} {r : Rule α} {f : α → Rule (β × Token)}
    (hr : ∀ v mid, r ts = .done v mid → mid <:+ ts)
    (hf : ∀ v mid, r ts = .done v mid → ClosesAt (f v) mid) : ClosesAt (r >>= f) ts := by
  intro w last rest h
  obtain ⟨v, mid, hread, hmore⟩ := bind_eq_done_iff.mp h
  exact (hf v mid hread w last rest hmore).trans (hr v mid hread)

theorem closesAt_listUntil (hitem : ∀ {ts v rest}, item ts = .done v rest → rest <:+ ts) :
    ClosesAt (listUntil close item) ts := by
  suffices h : ∀ n items us, ClosesAt (rounds (listRound close item) n items) us from h _ [] ts
  intro n
  induction n with
  | zero => exact fun _ _ _ _ _ => nofun
  | succ n ih =>
    intro items us
    by_cases hnot : ∀ t ∈ us.head?, t.isPunct close = false
    · rw [ClosesAt, rounds_of_not_close hnot]
      refine ClosesAt.bind (fun _ _ => hitem) fun v mid _ => ?_
      refine ClosesAt.bind (fun _ _ => accept_suffix) fun taken left _ => ?_
      cases taken with
      | true => exact ih _ left
      | false => exact .token _
    · obtain ⟨t, us, rfl, ht⟩ := exists_cons_of_not hnot
      intro v last rest h
      rw [rounds_of_close ht] at h
      cases h
      exact List.suffix_refl _

end Rule

end SolidScript
