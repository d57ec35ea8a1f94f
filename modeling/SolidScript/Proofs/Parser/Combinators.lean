import SolidScript.Proofs.Parser.Simulation

namespace SolidScript

theorem Attempt.also_also {α : Type} (a : Attempt α) (k l : Option Nat) :
    (a.also k).also l = a.also (Option.merge min l k) := by
  obtain ⟨value?, left?⟩ := a
  cases k <;> cases l <;> cases left? <;> simp [Attempt.also, Nat.min_assoc]

namespace Parser

variable {α β γ σ : Type}

instance : LawfulMonad Parser := by
  refine LawfulMonad.mk' Parser (fun p => ?_) (fun v f => ?_) fun p f g => ?_
  · funext ts
    change (p >>= fun v => pure (id v)) ts = p ts
    cases h : (p ts).value? with
    | none =>
      rw [bind_of_none h, ← h]
    | some found =>
      rw [bind_of_value h]
      change Attempt.mk (some found) (Option.merge min (p ts).left? none) = p ts
      rw [← h, Option.merge_none_right]
  · funext ts
    exact (f v ts).also_none
  · funext ts
    cases h : (p ts).value? with
    | none =>
      have hinner : ((p >>= f) ts).value? = none := by rw [bind_of_none h]
      rw [bind_of_none hinner, bind_of_none h, bind_of_none h]
    | some found =>
      obtain ⟨v, mid⟩ := found
      have hinner := bind_of_value h f
      have houter := bind_of_value h fun v => f v >>= g
      rw [houter]
      cases hmore : (f v mid).value? with
      | none =>
        rw [bind_of_none hmore, bind_of_none (by rw [hinner]; exact hmore), hinner]
        rfl
      | some found =>
        obtain ⟨w, last⟩ := found
        rw [bind_of_value hmore, bind_of_value (by rw [hinner]; exact hmore), hinner]
        exact (Attempt.also_also _ _ _).symm

section Choice

variable {p q : Parser α} {ps qs : List (Parser α)} {r : Rule α} {retreat between : Retreat}
  {ts : List Token}

theorem orElse_assoc (p q s : Parser α) : orElse p (orElse q s) = orElse (orElse p q) s := by
  funext ts
  cases hp : (p ts).value? with
  | some found =>
    have hboth : (orElse p q ts).value? = some found := by rw [orElse_of_value hp, hp]
    rw [orElse_of_value hp, orElse_of_value hboth, orElse_of_value hp]
  | none =>
    have hboth : orElse p q ts = (q ts).also (p ts).left? := orElse_of_none hp
    rw [orElse_of_none hp]
    cases hq : (q ts).value? with
    | some found =>
      rw [orElse_of_value hq, orElse_of_value (by rw [hboth]; exact hq), hboth]
    | none =>
      rw [orElse_of_none hq, orElse_of_none (by rw [hboth]; exact hq), hboth, Attempt.also_also]
      rfl

theorem choice_append (ps qs : List (Parser α)) :
    choice (ps ++ qs) = orElse (choice ps) (choice qs) := by
  induction ps with
  | nil =>
    funext ts
    exact (Attempt.also_none _).symm
  | cons p ps ih => rw [List.cons_append, choice, choice, ih, orElse_assoc]

@[simp] theorem choice_singleton (p : Parser α) : choice [p] = p := by
  funext ts
  change orElse p _ ts = _
  cases h : (p ts).value? with
  | some found => exact orElse_of_value h
  | none =>
    have hfailed : p ts = ⟨none, (p ts).left?⟩ := by rw [← h]
    rw [orElse_of_none h, hfailed]
    exact congrArg (Attempt.mk none) Option.merge_none_right

/-- Alternatives that all refuse the next token come to nothing, and fail nowhere behind it. -/
theorem choice_of_refused (h : ∀ p ∈ ps, p.Refuses ts) :
    (choice ps ts).value? = none ∧ (choice ps ts).Within ts.length := by
  induction ps with
  | nil => exact ⟨rfl, Attempt.within_none _ _⟩
  | cons p ps ih =>
    obtain ⟨hp, hps⟩ := List.forall_mem_cons.mp h
    obtain ⟨hnone, hwithin⟩ := ih hps
    rw [choice, orElse_of_none (by rw [hp]), hp]
    exact ⟨hnone, hwithin.also (Attempt.forall_mem_some (Nat.le_refl _))⟩

theorem Refuses.choice (hp : p.Refuses ts) (h : ∀ p ∈ ps, p.Refuses ts) :
    (choice (p :: ps)).Refuses ts := by
  obtain ⟨hnone, hwithin⟩ := choice_of_refused h
  have hread : Parser.choice (p :: ps) ts = (Parser.choice ps ts).also (some ts.length) := by
    rw [Parser.choice, orElse_of_none (by rw [hp]), hp]
  refine refuses_of_left? ?_ ?_ <;> rw [hread]
  · exact hnone
  · exact Attempt.left?_also_of_first hwithin

theorem choice_refuses (hne : ps ≠ []) (h : ∀ p ∈ ps, p.Refuses ts) : (choice ps).Refuses ts := by
  obtain ⟨p, ps, rfl⟩ := List.exists_cons_of_ne_nil hne
  exact (h p List.mem_cons_self).choice fun q hq => h q (List.mem_cons_of_mem p hq)

theorem select_of_some {f : α → Option β} {v : α} {w : β} {rest : List Token}
    (h : (p ts).value? = some (v, rest)) (hv : f v = some w) :
    select f p ts = ⟨some (w, rest), (p ts).left?⟩ := by
  rw [select]
  generalize p ts = a at h
  obtain ⟨_, left?⟩ := a
  obtain rfl := h
  simp only [hv]

/-- A value of which nothing is made counts as a failure at its beginning. -/
theorem select_of_none {f : α → Option β} {k : Nat} (h : ∀ v rest, (p ts).value? = some (v, rest) →
    f v = none) (hwithin : (p ts).Within k) (hk : k ≤ ts.length) :
    (select f p ts).value? = none ∧ (select f p ts).Within k := by
  rw [select]
  generalize p ts = a at h hwithin
  obtain ⟨value?, left?⟩ := a
  cases value? with
  | none => exact ⟨rfl, hwithin⟩
  | some found =>
    obtain ⟨v, rest⟩ := found
    have hfailed : (Attempt.mk (none : Option (β × List Token)) (some ts.length)).Within k :=
      Attempt.within_some hk
    simp only [h v rest rfl, true_and]
    exact hfailed.also hwithin

theorem Refuses.select {f : α → Option β} (h : p.Refuses ts) : (select f p).Refuses ts := by
  rw [Refuses, Parser.select, h]

namespace Simulates

/-- An alternative that has failed before makes no difference if it has not come further. -/
theorem orElse_left (h : Simulates q r retreat ts) (hnone : (p ts).value? = none)
    (hwithin : (p ts).Within (r ts).rest.length) : Simulates (orElse p q) r retreat ts := by
  rw [Simulates, orElse_of_none hnone]
  exact Attempt.Follows.also h (List.suffix_refl ts) hwithin

/-- Nor does one that is tried next, if it does not come further. -/
theorem orElse_back (h : Simulates p r between ts)
    (hle : ∀ mid rest, between mid rest → retreat mid rest)
    (hback : ∀ rest, r ts = .stuck rest → rest <:+ ts → (q ts).Retreats retreat ts rest) :
    Simulates (orElse p q) r retreat ts := by
  rw [Simulates]
  cases hread : r ts with
  | done v rest =>
    obtain ⟨hrest, hgives⟩ := h.done hread
    rw [orElse_of_value hgives.value]
    exact .of_gives hrest hgives
  | stuck rest =>
    have hwide : (p ts).Follows (.stuck rest) retreat ts := hread ▸ Attempt.Follows.mono h hle
    obtain ⟨hrest, hleft, hretreats⟩ := hwide.stuck rfl
    cases hresult : (p ts).value? with
    | some found =>
      rw [orElse_of_value hresult]
      exact .of_retreats hrest hleft hretreats
    | none =>
      rw [orElse_of_none hresult, hleft]
      exact .of_stuck_first (hback rest hread hrest) hrest (Nat.le_refl _)

/-- In particular not one that fails before. -/
theorem orElse_right (h : Simulates p r retreat ts) (hnone : (q ts).value? = none)
    (hwithin : (q ts).Within (r ts).rest.length) : Simulates (orElse p q) r retreat ts := by
  refine h.orElse_back (fun _ _ => id) fun rest hread _ => ⟨?_, fun v mid hmid => ?_⟩
  · rwa [hread] at hwithin
  · rw [hnone] at hmid
    cases hmid

/-- Of a choice only those alternatives count that do not refuse the next token. -/
theorem choice (before ps after : List (Parser α)) (hbefore : ∀ p ∈ before, p.Refuses ts)
    (hafter : ∀ p ∈ after, p.Refuses ts) (h : Simulates (choice ps) r retreat ts) :
    Simulates (Parser.choice (before ++ (ps ++ after))) r retreat ts := by
  obtain ⟨hnone, hwithin⟩ := choice_of_refused hafter
  obtain ⟨hnone', hwithin'⟩ := choice_of_refused hbefore
  rw [choice_append, choice_append]
  exact (h.orElse_right hnone (hwithin.mono h.rest_suffix.length_le)).orElse_left hnone'
    (hwithin'.mono h.rest_suffix.length_le)

theorem choice_first (h : Simulates p r retreat ts) (hps : ∀ q ∈ ps, q.Refuses ts) :
    Simulates (Parser.choice (p :: ps)) r retreat ts :=
  choice [] [p] ps (fun _ => nofun) hps (by rwa [choice_singleton])

theorem choice_skip (hp : p.Refuses ts) (h : Simulates (Parser.choice ps) r retreat ts) :
    Simulates (Parser.choice (p :: ps)) r retreat ts := by
  have hone : ∀ q ∈ [p], q.Refuses ts := by simpa using hp
  simpa using choice [p] ps [] hone (fun _ => nofun) h

/-- Of different alternatives only one does not refuse the next token. -/
theorem choice_map {κ : Type} [DecidableEq κ] {f : κ → Parser α} {l : List κ} {k : κ}
    (hl : l.Nodup) (hk : k ∈ l) (h : Simulates (f k) r retreat ts)
    (hothers : ∀ j, j ≠ k → (f j).Refuses ts) :
    Simulates (Parser.choice (l.map f)) r retreat ts := by
  induction l with
  | nil => cases hk
  | cons j l ih =>
    obtain ⟨hj, hl⟩ := List.nodup_cons.mp hl
    by_cases hjk : j = k
    · subst hjk
      refine h.choice_first fun p hp => ?_
      obtain ⟨i, hi, rfl⟩ := List.mem_map.mp hp
      exact hothers i fun heq => hj (heq ▸ hi)
    · exact .choice_skip (hothers j hjk) (ih hl ((List.mem_cons.mp hk).resolve_left (Ne.symm hjk)))

end Simulates

end Choice

section Operators

variable {symbol : α → String} {ops : List α}

theorem oneOf_refuses {ts : List Token} (hne : ops ≠ [])
    (h : ∀ op ∈ ops, ∀ t ∈ ts.head?, t.isPunct (symbol op) = false) :
    (oneOf symbol ops).Refuses ts := by
  obtain ⟨op, ops, rfl⟩ := List.exists_cons_of_ne_nil hne
  obtain ⟨hop, hops⟩ := List.forall_mem_cons.mp h
  refine ((refuses_punct hop).bind _).choice fun p hp => ?_
  obtain ⟨other, hother, rfl⟩ := List.mem_map.mp hp
  exact (refuses_punct (hops other hother)).bind _

/-- The operator that a token spells is found, whatever others are tried before. -/
theorem oneOf_gives {t : Token} {op : α} (ts : List Token)
    (h : ops.find? (fun op => t.isPunct (symbol op)) = some op) :
    (oneOf symbol ops (t :: ts)).Gives (op, t) ts := by
  induction ops with
  | nil => cases h
  | cons other ops ih =>
    rw [List.find?_cons] at h
    have hpunct : punct (symbol other) (t :: ts) =
        if t.isPunct (symbol other) then ⟨some (t, ts), none⟩ else ⟨none, some (ts.length + 1)⟩ :=
      rfl
    split at h
    case h_1 ht =>
      obtain rfl := Option.some.inj h
      rw [if_pos ht] at hpunct
      have hread : (do return (other, ← punct (symbol other)) : Parser (α × Token)) (t :: ts) =
          ⟨some ((other, t), ts), none⟩ := by
        rw [bind_of_value (by rw [hpunct]), hpunct]
        rfl
      change (orElse _ _ _).Gives _ _
      rw [orElse_of_value (by rw [hread]), hread]
      exact ⟨rfl, Attempt.within_none _ _⟩
    case h_2 ht =>
      rw [ht] at hpunct
      have hfailed : (do return (other, ← punct (symbol other)) : Parser (α × Token)) (t :: ts) =
          ⟨none, some (ts.length + 1)⟩ := by
        rw [bind_of_none (by rw [hpunct]; rfl), hpunct]
        rfl
      obtain ⟨hvalue, hwithin⟩ := ih h
      change (orElse _ _ _).Gives _ _
      rw [orElse_of_none (by rw [hfailed]), hfailed]
      exact ⟨hvalue, hwithin.also (Attempt.forall_mem_some (Nat.le_succ _))⟩

end Operators

section Optional

variable {p : Parser α} {ts mid : List Token} {v : α}

theorem orNot_of_value (h : (p ts).value? = some (v, mid)) :
    orNot p ts = ⟨some (some v, mid), (p ts).left?⟩ := by
  have hsome : (do return some (← p) : Parser (Option α)) ts =
      ⟨some (some v, mid), (p ts).left?⟩ := by
    rw [bind_of_value h]
    exact congrArg (Attempt.mk _) Option.merge_none_right
  rw [orNot, orElse_of_value (by rw [hsome]), hsome]

theorem orNot_of_none (h : (p ts).value? = none) :
    orNot p ts = ⟨some (none, ts), (p ts).left?⟩ := by
  have hnone : (do return some (← p) : Parser (Option α)) ts = ⟨none, (p ts).left?⟩ :=
    bind_of_none h _
  rw [orNot, orElse_of_none (by rw [hnone]), hnone]
  exact congrArg (Attempt.mk _) Option.merge_none_right

end Optional

end Parser

end SolidScript
