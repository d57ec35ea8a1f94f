import SolidScript.Proofs.Grammar.Reading

/-!
How a rule depends on what it has not read. What a rule has read decides the outcome together with
the one token that comes next; a rule that gets stuck at the end of the tokens can always be helped
on by more of them. Both facts are proved together, because the second one needs the first: the
tokens that help a rule on must not change what the rules before it have read.
-/

namespace SolidScript

namespace Rule

variable {α β : Type}

/-- What the rule makes of `ts` depends only on what it has read and on what comes next. What it
reads stays the same if anything comes next that `follow` allows. Where it is stuck, the token
that comes next is to blame. If it is stuck at the end, then more tokens help it on. -/
structure PredictsAt (r : Rule α) (follow : α → Follow) (ts : List Token) : Prop where
  done : ∀ {v rest}, r ts = .done v rest → ∃ us, ts = us ++ rest ∧
    ∀ other : List Token, other.head? = rest.head? ∨ follow v other.head? →
      r (us ++ other) = .done v other
  stuck : ∀ {t rest}, r ts = .stuck (t :: rest) → ∃ us, ts = us ++ t :: rest ∧
    ∀ other, r (us ++ t :: other) = .stuck (t :: other)
  ended : r ts = .stuck [] → ∃ us v, Reads r (ts ++ us) v (follow v)

/-- Some tokens that begin as `first` has it are read by the rule. -/
def Opens (r : Rule α) (first : Follow) (follow : α → Follow) : Prop :=
  ∃ us v, Reads r us v (follow v) ∧
    ∀ rest : List Token, follow v rest.head? → first (us ++ rest).head?

theorem Opens.bind {r : Rule α} {f : α → Rule β} {first : Follow} {between : α → Follow}
    {follow : β → Follow} (hr : Opens r first between) (hf : ∀ v, Opens (f v) (between v) follow) :
    Opens (r >>= f) first follow := by
  obtain ⟨us, v, hus, hfirst⟩ := hr
  obtain ⟨vs, b, hvs, hnext⟩ := hf v
  refine ⟨us ++ vs, b, hus.bind hvs hnext, fun rest hrest => ?_⟩
  rw [List.append_assoc]
  exact hfirst (vs ++ rest) (hnext rest hrest)

namespace PredictsAt

variable {r : Rule α} {f : α → Rule β} {between : α → Follow} {follow : β → Follow}
  {ts : List Token}

theorem mono {wide narrow : α → Follow} (h : PredictsAt r wide ts)
    (hle : ∀ v o, narrow v o → wide v o) : PredictsAt r narrow ts where
  done hread := by
    obtain ⟨us, hus, hother⟩ := h.done hread
    exact ⟨us, hus, fun other hhead => hother other (hhead.imp_right (hle _ _))⟩
  stuck := h.stuck
  ended hend := by
    obtain ⟨us, v, hus⟩ := h.ended hend
    exact ⟨us, v, fun rest hrest => hus rest (hle _ _ hrest)⟩

theorem suffix {wide : α → Follow} (h : PredictsAt r wide ts) {v : α} {rest : List Token}
    (hread : r ts = .done v rest) : rest <:+ ts := by
  obtain ⟨us, hus, _⟩ := h.done hread
  exact ⟨us, hus.symm⟩

theorem rest_suffix {wide : α → Follow} (h : PredictsAt r wide ts) : (r ts).rest <:+ ts := by
  cases hread : r ts with
  | done v rest => exact h.suffix hread
  | stuck rest =>
    cases rest with
    | nil => exact List.nil_suffix
    | cons t rest =>
      obtain ⟨us, hus, _⟩ := h.stuck hread
      exact ⟨us, hus.symm⟩

/-- A rule that can read certain tokens comes at least behind them. -/
theorem rest_le {wide : α → Follow} {us mid other : List Token} {v : α}
    (h : PredictsAt r wide (us ++ mid)) (hread : r (us ++ other) = .done v other) :
    (r (us ++ mid)).rest.length ≤ mid.length := by
  refine Nat.le_of_not_lt fun hlonger => ?_
  -- What is left begins inside `us`, and so it would be left in front of `other` as well.
  obtain ⟨vs, hvs⟩ := h.rest_suffix
  obtain ⟨w, ws, rfl, hrest⟩ :
      ∃ w ws, us = vs ++ w :: ws ∧ (r (us ++ mid)).rest = w :: ws ++ mid := by
    obtain ⟨ws, hus, hmid⟩ | ⟨ws, _, hmid⟩ := List.append_eq_append_iff.mp hvs
    · cases ws with
      | nil => exact absurd hlonger (by simp [hmid])
      | cons w ws => exact ⟨w, ws, hus, hmid⟩
    · have hlen := congrArg List.length hmid
      rw [List.length_append] at hlen
      omega
  have hagain : r (vs ++ (w :: ws ++ other)) = .done v other := by
    rwa [List.append_assoc] at hread
  cases hresult : r (vs ++ w :: ws ++ mid) with
  | done x rest =>
    obtain rfl : rest = w :: ws ++ mid := by rwa [hresult] at hrest
    obtain ⟨front, hfront, hother⟩ := h.done hresult
    rw [List.append_assoc] at hfront
    obtain rfl := List.append_cancel_right hfront
    obtain ⟨_, hlen⟩ := Outcome.done.inj (hagain.symm.trans (hother (w :: ws ++ other) (.inl rfl)))
    have hlen := congrArg List.length hlen
    simp only [List.length_append, List.length_cons] at hlen
    omega
  | stuck rest =>
    obtain rfl : rest = w :: ws ++ mid := by rwa [hresult] at hrest
    obtain ⟨front, hfront, hother⟩ := h.stuck hresult
    rw [List.append_assoc] at hfront
    obtain rfl := List.append_cancel_right hfront
    cases hagain.symm.trans (hother (ws ++ other))

theorem of_done {follow : α → Follow} {v : α} (us : List Token) {rest : List Token}
    (hread : r (us ++ rest) = .done v rest)
    (hother : ∀ other : List Token, other.head? = rest.head? ∨ follow v other.head? →
      r (us ++ other) = .done v other) : PredictsAt r follow (us ++ rest) := by
  constructor
  · intro w left h
    rw [hread] at h
    cases h
    exact ⟨us, rfl, hother⟩
  · intro t left h
    rw [hread] at h
    cases h
  · intro h
    rw [hread] at h
    cases h

theorem of_stuck {follow : α → Follow} {t : Token} (us : List Token) {rest : List Token}
    (hother : ∀ other, r (us ++ t :: other) = .stuck (t :: other)) :
    PredictsAt r follow (us ++ t :: rest) := by
  constructor
  · intro v left h
    rw [hother] at h
    cases h
  · intro u left h
    rw [hother] at h
    cases h
    exact ⟨us, rfl, hother⟩
  · intro h
    rw [hother] at h
    cases h

/-- The second rule is run on what the first one leaves. Its opening has to be one that the first
rule allows, and where it reads nothing it has to be as careful about what comes next. -/
theorem bind (hr : PredictsAt r between ts)
    (hf : ∀ v mid, r ts = .done v mid → PredictsAt (f v) follow mid)
    (hopen : ∀ v, Opens (f v) (between v) follow)
    (hnone : ∀ v mid b, f v mid = .done b mid → ∀ o, follow b o → between v o) :
    PredictsAt (r >>= f) follow ts where
  done := by
    intro b rest hread
    obtain ⟨v, mid, hfirst, hsecond⟩ := bind_eq_done_iff.mp hread
    obtain ⟨us, hus, hother⟩ := hr.done hfirst
    obtain ⟨vs, hvs, hlast⟩ := (hf v mid hfirst).done hsecond
    refine ⟨us ++ vs, by rw [hus, hvs, List.append_assoc], fun other hhead => ?_⟩
    have hmid : (vs ++ other).head? = mid.head? ∨ between v (vs ++ other).head? := by
      cases vs with
      | cons t vs => exact .inl (by rw [hvs]; rfl)
      | nil =>
        rw [List.nil_append] at hvs ⊢
        rw [hvs] at hsecond ⊢
        exact hhead.imp_right (hnone v rest b hsecond _)
    rw [bind_apply, List.append_assoc, hother _ hmid]
    exact hlast other hhead
  stuck := by
    intro t rest hread
    rw [bind_apply] at hread
    cases hfirst : r ts with
    | stuck mid =>
      rw [hfirst] at hread
      cases hread
      obtain ⟨us, hus, hother⟩ := hr.stuck hfirst
      exact ⟨us, hus, fun other => by rw [bind_apply, hother other]; rfl⟩
    | done v mid =>
      rw [hfirst] at hread
      obtain ⟨us, hus, hother⟩ := hr.done hfirst
      obtain ⟨vs, hvs, hlast⟩ := (hf v mid hfirst).stuck hread
      refine ⟨us ++ vs, by rw [hus, hvs, List.append_assoc], fun other => ?_⟩
      have hmid : (vs ++ t :: other).head? = mid.head? := by
        rw [hvs]
        cases vs <;> rfl
      rw [bind_apply, List.append_assoc, hother _ (.inl hmid)]
      exact hlast other
  ended := by
    intro hread
    rw [bind_apply] at hread
    cases hfirst : r ts with
    | stuck mid =>
      rw [hfirst] at hread
      cases hread
      obtain ⟨us, v, hus⟩ := hr.ended hfirst
      obtain ⟨vs, b, hvs, hnext⟩ := hopen v
      exact ⟨us ++ vs, b, by rw [← List.append_assoc]; exact hus.bind hvs hnext⟩
    | done v mid =>
      rw [hfirst] at hread
      obtain ⟨us, hus, hother⟩ := hr.done hfirst
      cases mid with
      | nil =>
        obtain ⟨vs, b, hvs, hnext⟩ := hopen v
        refine ⟨vs, b, fun rest hrest => ?_⟩
        rw [List.append_nil] at hus
        rw [bind_apply, List.append_assoc, hus, hother _ (.inr (hnext rest hrest))]
        exact hvs rest hrest
      | cons t mid =>
        obtain ⟨vs, b, hvs⟩ := (hf v _ hfirst).ended hread
        refine ⟨vs, b, fun rest hrest => ?_⟩
        have hmid : r (us ++ (t :: mid ++ vs ++ rest)) = .done v (t :: mid ++ vs ++ rest) :=
          hother _ (.inl rfl)
        rw [bind_apply, hus, List.append_assoc, List.append_assoc, ← List.append_assoc (t :: mid),
          hmid]
        exact hvs rest hrest

/-- What is made of the value read changes nothing. -/
theorem map {g : α → β} (hr : PredictsAt r between ts)
    (hle : ∀ v o, follow (g v) o → between v o) : PredictsAt (do return g (← r)) follow ts := by
  refine hr.bind (fun v mid _ => ?_) (fun v => ?_) fun v mid b hread => ?_
  · exact .of_done [] rfl fun _ _ => rfl
  · exact ⟨[], g v, fun _ _ => rfl, fun rest => hle v rest.head?⟩
  · cases hread
    exact hle v

/-- At the end of the tokens it is enough that the rule can be opened. -/
theorem nil {first : Follow} {follow : α → Follow} (hstuck : r [] = .stuck [])
    (hopen : Opens r first follow) : PredictsAt r follow [] where
  done hread := by
    rw [hstuck] at hread
    cases hread
  stuck hread := by
    rw [hstuck] at hread
    cases hread
  ended _ := by
    obtain ⟨us, v, hus, _⟩ := hopen
    exact ⟨us, v, hus⟩

/-- A rule that goes on as `s` behind certain tokens predicts there as `s` does. -/
theorem prepend {s : Rule α} {follow : α → Follow} (ps : List Token)
    (hsame : ∀ us, r (ps ++ us) = s us) (hs : PredictsAt s follow ts) :
    PredictsAt r follow (ps ++ ts) where
  done := by
    intro v rest hread
    rw [hsame] at hread
    obtain ⟨us, hus, hother⟩ := hs.done hread
    refine ⟨ps ++ us, by rw [hus, List.append_assoc], fun other hhead => ?_⟩
    rw [List.append_assoc, hsame]
    exact hother other hhead
  stuck := by
    intro t rest hread
    rw [hsame] at hread
    obtain ⟨us, hus, hother⟩ := hs.stuck hread
    refine ⟨ps ++ us, by rw [hus, List.append_assoc], fun other => ?_⟩
    rw [List.append_assoc, hsame]
    exact hother other
  ended := by
    intro hread
    rw [hsame] at hread
    obtain ⟨us, v, hus⟩ := hs.ended hread
    refine ⟨us, v, fun rest hrest => ?_⟩
    rw [List.append_assoc ps, List.append_assoc, hsame]
    exact hus rest hrest

/-- A rule that chooses by the first token does what the chosen rule does, provided that the chosen
rule takes that token. -/
theorem of_head {s : Rule α} {follow : α → Follow} {t : Token}
    (hsame : ∀ us, r (t :: us) = s (t :: us)) (htakes : Takes (fun _ => 1) s)
    (hs : PredictsAt s follow (t :: ts)) :
    PredictsAt r follow (t :: ts) where
  done := by
    intro v rest hread
    rw [hsame] at hread
    obtain ⟨us, hus, hother⟩ := hs.done hread
    have hlen : rest.length + 1 ≤ (t :: ts).length := htakes _ v rest hread
    cases us with
    | nil =>
      rw [hus, List.nil_append] at hlen
      omega
    | cons u us =>
      obtain ⟨rfl, _⟩ := List.cons.inj hus
      exact ⟨t :: us, hus, fun other hhead => (hsame _).trans (hother other hhead)⟩
  stuck := by
    intro u rest hread
    rw [hsame] at hread
    obtain ⟨us, hus, hother⟩ := hs.stuck hread
    refine ⟨us, hus, fun other => ?_⟩
    cases us with
    | nil =>
      obtain ⟨rfl, _⟩ := List.cons.inj hus
      exact (hsame _).trans (hother other)
    | cons v us =>
      obtain ⟨rfl, _⟩ := List.cons.inj hus
      exact (hsame _).trans (hother other)
  ended := by
    intro hread
    rw [hsame] at hread
    obtain ⟨us, v, hus⟩ := hs.ended hread
    exact ⟨us, v, fun rest hrest => (hsame _).trans (hus rest hrest)⟩

end PredictsAt

end Rule

end SolidScript
