import SolidScript.Proofs.Parser.Combinators

namespace SolidScript.Parser

variable {α β γ σ : Type}

section Slices

variable {p : Parser α} {r : Rule α} {retreat : Retreat} {ts : List Token}

theorem sliced_of_value {rest : List Token} {v : α} (h : (p ts).value? = some (v, rest)) :
    sliced p ts = ⟨some ((v, consumed ts rest), rest), (p ts).left?⟩ := by
  rw [sliced]
  generalize p ts = a at h
  obtain ⟨_, left?⟩ := a
  obtain rfl := h
  rfl

theorem sliced_of_none (h : (p ts).value? = none) : sliced p ts = ⟨none, (p ts).left?⟩ := by
  rw [sliced]
  generalize p ts = a at h
  obtain ⟨_, left?⟩ := a
  obtain rfl := h
  rfl

theorem Refuses.sliced (h : p.Refuses ts) : (sliced p).Refuses ts := by
  rw [Refuses, sliced_of_none (by rw [h]), h]

theorem Simulates.sliced (h : Simulates p r retreat ts) :
    Simulates (sliced p) (Rule.sliced r) retreat ts := by
  rw [Simulates, Rule.sliced]
  cases hread : r ts with
  | done v rest =>
    obtain ⟨hrest, hvalue, hwithin⟩ := h.done hread
    rw [sliced_of_value hvalue]
    exact .of_gives hrest ⟨rfl, hwithin⟩
  | stuck rest =>
    obtain ⟨hrest, hleft, hwithin, hvalue⟩ := h.stuck hread
    cases hresult : (p ts).value? with
    | none =>
      rw [sliced_of_none hresult]
      exact .of_failed hrest rfl hleft
    | some found =>
      obtain ⟨v, mid⟩ := found
      rw [sliced_of_value hresult]
      refine .of_retreats hrest hleft ⟨hwithin, fun w last hlast => ?_⟩
      cases hlast
      exact hvalue v mid hresult

theorem Simulates.spanned (h : Simulates p r retreat ts) :
    Simulates (spanned p) (Rule.spanned r) retreat ts := h.sliced.map _

end Slices

section Optional

variable {p : Parser α} {r : Rule α} {q : Token → Bool} {next : Option α → Parser β}
  {f : Option α → Rule β} {retreat between : Retreat} {ts : List Token}

theorem orNot_bind_of_value {v : α} {mid : List Token} (h : (p ts).value? = some (v, mid))
    (next : Option α → Parser β) :
    (orNot p >>= next) ts = (next (some v) mid).also (p ts).left? := by
  have hread := orNot_of_value h
  rw [bind_of_value (by rw [hread]), hread]

theorem orNot_bind_of_none (h : (p ts).value? = none) (next : Option α → Parser β) :
    (orNot p >>= next) ts = (next none ts).also (p ts).left? := by
  have hread := orNot_of_none h
  rw [bind_of_value (by rw [hread]), hread]

theorem Refuses.orNot_bind (h : p.Refuses ts) (hnext : (next none).Refuses ts) :
    (Parser.orNot p >>= next).Refuses ts := by
  rw [Refuses, orNot_bind_of_none (by rw [h]), h, hnext]
  simp [Attempt.also]

/-- A part that is announced by a token and may be left out. If it begins but cannot be read, it is
left out as well, and then what follows faces that token. -/
theorem Simulates.optional
    (hpart : ∀ t us, ts = t :: us → q t → Simulates p r between us)
    (hsome : ∀ t us v mid, ts = t :: us → r us = .done v mid → mid <:+ us →
      Simulates (next (some v)) (f (some v)) retreat mid)
    (hnone : (∀ t ∈ ts.head?, q t = false) → Simulates (next none) (f none) retreat ts)
    (hback : ∀ v mid rest, rest.length < mid.length → between mid rest →
      (next (some v) mid).Retreats retreat mid rest)
    (hleft : ∀ t us rest, ts = t :: us → q t → r us = .stuck rest → rest <:+ us →
      (next none ts).Retreats retreat ts rest) :
    Simulates (orNot (do let _ ← Parser.token q; p) >>= next) (do
      if ← Rule.accept q then f (some (← r)) else f none) retreat ts := by
  by_cases hq : ∀ t ∈ ts.head?, q t = false
  · have hrefuses : (do let _ ← Parser.token q; p).Refuses ts := (refuses_token hq).bind _
    rw [Simulates, orNot_bind_of_none (by rw [hrefuses]), hrefuses, Rule.bind_apply,
      Rule.accept_of_not hq]
    exact Attempt.Follows.after_refused (hnone hq)
  · obtain ⟨t, us, rfl, ht⟩ := Rule.exists_cons_of_not hq
    have hinner : (do let _ ← Parser.token q; p) (t :: us) = p us := by
      have htoken : Parser.token q (t :: us) = ⟨some (t, us), none⟩ := if_pos ht
      rw [bind_of_value (by rw [htoken]), htoken, Attempt.also_none]
    have hus : us <:+ t :: us := List.suffix_cons t us
    have hread := hpart t us rfl ht
    rw [Simulates, Rule.bind_apply, Rule.accept_of_satisfies ht]
    change Attempt.Follows _ ((r >>= fun v => f (some v)) us) _ _
    rw [Rule.bind_apply]
    cases hr : r us with
    | done v mid =>
      obtain ⟨hmid, hgives⟩ := hread.done hr
      rw [orNot_bind_of_value (by rw [hinner]; exact hgives.value), hinner]
      exact Attempt.Follows.after_gives (hsome t us v mid rfl hr hmid) hgives (hmid.trans hus)
    | stuck rest =>
      obtain ⟨hrest, hstuck, hwithin, hvalue⟩ := hread.stuck hr
      cases hresult : (p us).value? with
      | none =>
        rw [orNot_bind_of_none (by rw [hinner]; exact hresult), hinner, hstuck]
        exact .of_stuck_first (hleft t us rest rfl ht hr hrest) (hrest.trans hus) (Nat.le_refl _)
      | some found =>
        obtain ⟨v, mid⟩ := found
        obtain ⟨hfurther, hlen, hretreat⟩ := hvalue v mid hresult
        rw [orNot_bind_of_value (by rw [hinner]; exact hresult), hinner, hstuck]
        exact .of_stuck_first (hback v mid rest hfurther hretreat) (hrest.trans hus)
          (Nat.le_trans hlen hus.length_le)

end Optional

section Repeated

variable {item : Parser β} {close : Parser γ} {ts mid : List Token} {v : β}

theorem repeatedUpTo_bind_of_value (h : (item ts).value? = some (v, mid)) (n : Nat)
    (next : List β → Parser α) : (repeatedUpTo item (n + 1) >>= next) ts =
      ((repeatedUpTo item n >>= fun vs => next (v :: vs)) mid).also (item ts).left? := by
  rw [repeatedUpTo, bind_assoc, orNot_bind_of_value h]
  simp only [bind_assoc, pure_bind]

theorem repeatedUpTo_bind_of_none (h : (item ts).value? = none) (n : Nat)
    (next : List β → Parser α) :
    (repeatedUpTo item (n + 1) >>= next) ts = (next [] ts).also (item ts).left? := by
  rw [repeatedUpTo, bind_assoc, orNot_bind_of_none h, pure_bind]

theorem repeated_bind_of_refuses (h : item.Refuses ts) (next : List β → Parser α) :
    (repeated item >>= next) ts = (next [] ts).also (some ts.length) := by
  change (repeatedUpTo item (ts.length + 1) >>= next) ts = _
  rw [repeatedUpTo_bind_of_none (by rw [h]), h]

/-- What one round of a repetition does on the tokens `ts`: it reads one more item, or it ends where
no item can begin. Where it is stuck, neither another item nor the end can be read from what the
item has left, or from the start of the item if that has failed. -/
structure RoundFollows (item : Parser β) (close : Parser γ) (round : Outcome (Round σ α))
    (add : β → σ) (finish : γ → α) (retreat : Retreat) (ts : List Token) : Prop where
  again : ∀ {s rest}, round = .done (.again s) rest → rest <:+ ts ∧ rest.length < ts.length ∧
    ∃ v, (item ts).Gives v rest ∧ s = add v
  finished : ∀ {a rest}, round = .done (.finished a) rest → rest <:+ ts ∧ item.Refuses ts ∧
    ∃ c, (close ts).Gives c rest ∧ a = finish c
  stuck : ∀ {rest}, round = .stuck rest → rest <:+ ts ∧ (item ts).left? = some rest.length ∧
    ((item ts).value? = none → (close ts).Retreats retreat ts rest) ∧
    ∀ v mid, (item ts).value? = some (v, mid) → rest.length < mid.length ∧
      mid.length ≤ ts.length ∧ item.Refuses mid ∧ (close mid).Retreats retreat mid rest

section Rounds

variable {close : Parser γ} {round : Outcome (Round σ α)} {add : β → σ} {finish : γ → α}
  {retreat between : Retreat}

/-- No further item is read where the repetition ends. -/
theorem RoundFollows.of_refuses {c : γ} {rest : List Token} (h : item.Refuses ts)
    (hrest : rest <:+ ts) (hclose : (close ts).Gives c rest)
    (hround : round = .done (.finished (finish c)) rest) :
    RoundFollows item close round add finish retreat ts where
  again heq := nomatch hround.symm.trans heq
  finished heq := by
    cases hround.symm.trans heq
    exact ⟨hrest, h, c, hclose, rfl⟩
  stuck heq := nomatch hround.symm.trans heq

/-- One more item is read. If it cannot be read, the repetition may end in front of it, or in front
of what the item leaves if that goes back itself. -/
theorem RoundFollows.of_item {o : Outcome β} (h : (item ts).Follows o between ts)
    (hround : round = o.map fun v => .again (add v))
    (hshorter : ∀ v rest, o = .done v rest → rest.length < ts.length)
    (hself : ∀ rest, o = .stuck rest → (close ts).Retreats retreat ts rest)
    (hback : ∀ mid rest, rest.length < mid.length → mid.length ≤ ts.length → between mid rest →
      item.Refuses mid ∧ (close mid).Retreats retreat mid rest) :
    RoundFollows item close round add finish retreat ts := by
  cases o with
  | done v rest =>
    obtain ⟨hsuffix, hgives⟩ := h.done rfl
    refine ⟨fun heq => ?_, fun heq => ?_, fun heq => ?_⟩ <;> cases hround.symm.trans heq
    exact ⟨hsuffix, hshorter v rest rfl, v, hgives, rfl⟩
  | stuck rest =>
    obtain ⟨hsuffix, hleft, _, hvalue⟩ := h.stuck rfl
    refine ⟨fun heq => ?_, fun heq => ?_, fun heq => ?_⟩ <;> cases hround.symm.trans heq
    refine ⟨hsuffix, hleft, fun _ => hself rest rfl, fun v mid hmid => ?_⟩
    obtain ⟨hfurther, hlen, hretreat⟩ := hvalue v mid hmid
    obtain ⟨hrefuses, hclose⟩ := hback mid rest hfurther hlen hretreat
    exact ⟨hfurther, hlen, hrefuses, hclose⟩

end Rounds

theorem gives_map {p : Parser α} {rest : List Token} {v : α} (h : (p ts).Gives v rest)
    (f : α → β) : ((do return f (← p) : Parser β) ts).Gives (f v) rest := by
  rw [bind_of_value h.value]
  exact ⟨rfl, (Attempt.within_none _ _).also h.within⟩

theorem retreats_map {p : Parser α} {retreat : Retreat} {us rest : List Token}
    (h : (p ts).Retreats retreat us rest) (f : α → β) :
    ((do return f (← p) : Parser β) ts).Retreats retreat us rest := by
  cases hresult : (p ts).value? with
  | none =>
    rw [bind_of_none hresult]
    exact ⟨h.within, fun _ _ => nofun⟩
  | some found =>
    obtain ⟨v, mid⟩ := found
    rw [bind_of_value hresult]
    refine ⟨(Attempt.within_none _ _).also h.within, fun w last hlast => ?_⟩
    cases hlast
    exact h.value v mid hresult

/-- A repetition follows if every round does. -/
theorem Simulates.repeated {step : σ → Rule (Round σ α)} {add : σ → β → σ} {finish : σ → γ → α}
    {retreat : Retreat} (hround : ∀ s us, us.length ≤ ts.length →
      RoundFollows item close (step s us) (add s) (finish s) retreat us) (s : σ) :
    Simulates (do
      let vs ← repeated item
      return finish (vs.foldl add s) (← close)) (Rule.loop step s) retreat ts := by
  suffices h : ∀ n us s, us.length < n → us.length ≤ ts.length →
      Simulates (do
        let vs ← repeatedUpTo item n
        return finish (vs.foldl add s) (← close)) (Rule.rounds step n s) retreat us from
    h (ts.length + 1) ts s (Nat.lt_succ_self _) (Nat.le_refl _)
  intro n
  induction n with
  | zero => exact fun us s hlen => absurd hlen (Nat.not_lt_zero _)
  | succ n ih =>
    intro us s hlen hle
    have hfollows := hround s us hle
    rw [Simulates, Rule.rounds, Rule.bind_apply]
    cases hread : step s us with
    | done round rest =>
      cases round with
      | again next =>
        obtain ⟨hrest, hshorter, v, hgives, rfl⟩ := hfollows.again hread
        rw [repeatedUpTo_bind_of_value hgives.value]
        exact Attempt.Follows.after_gives (ih rest (add s v) (by omega) (by omega)) hgives hrest
      | finished a =>
        obtain ⟨hrest, hrefuses, c, hgives, rfl⟩ := hfollows.finished hread
        rw [repeatedUpTo_bind_of_none (by rw [hrefuses]), hrefuses]
        have hlast := gives_map hgives (finish s)
        exact .of_gives hrest
          ⟨hlast.value, hlast.within.also (Attempt.forall_mem_some hrest.length_le)⟩
    | stuck rest =>
      obtain ⟨hrest, hleft, hfailed, hback⟩ := hfollows.stuck hread
      cases hresult : (item us).value? with
      | none =>
        rw [repeatedUpTo_bind_of_none hresult, hleft]
        exact .of_stuck_first (retreats_map (hfailed hresult) (finish s)) hrest (Nat.le_refl _)
      | some found =>
        obtain ⟨v, mid⟩ := found
        obtain ⟨hfurther, hmid, hrefuses, hclose⟩ := hback v mid hresult
        obtain ⟨m, rfl⟩ : ∃ m, n = m + 1 := ⟨n - 1, by omega⟩
        have hend := retreats_map hclose (finish (add s v))
        rw [repeatedUpTo_bind_of_value hresult, hleft,
          repeatedUpTo_bind_of_none (by rw [hrefuses]), hrefuses]
        exact .of_stuck_first (hend.also (Attempt.forall_mem_some (Nat.le_of_lt hfurther))) hrest
          hmid

/-- The items of a repetition in their order, up to what ends it. -/
theorem Simulates.collected {step : List β → Rule (Round (List β) (List β))} {retreat : Retreat}
    (hround : ∀ items us, us.length ≤ ts.length → RoundFollows item close (step items us)
      (fun v => items ++ [v]) (fun _ => items) retreat us) :
    Simulates (do
      let items ← Parser.repeated item
      let _ ← close
      return items) (Rule.loop step []) retreat ts := by
  have hitems := Simulates.repeated hround []
  have hfold (vs : List β) : vs.foldl (fun items v => items ++ [v]) [] = vs :=
    List.flatMap_eq_foldl.symm.trans (List.flatMap_singleton' vs)
  simpa only [hfold] using hitems

/-- Further items as long as there are any. -/
theorem RoundFollows.of_open {round : Outcome (Round σ α)} {add : β → σ} {last : α}
    {retreat between : Retreat} {o : Outcome β} (h : (item ts).Follows o between ts)
    (hround : round = o.map fun v => .again (add v)) (hrest : o.rest.length < ts.length)
    (hself : ∀ rest, retreat ts rest)
    (hback : ∀ mid rest, between mid rest → item.Refuses mid ∧ retreat mid rest) :
    RoundFollows item (pure ()) round add (fun _ => last) retreat ts := by
  refine .of_item h hround ?_ ?_ fun mid rest hfurther _ hbetween => ?_
  · rintro v rest rfl
    exact hrest
  · rintro rest rfl
    exact retreats_pure () hrest (hself rest)
  · obtain ⟨hrefuses, hretreat⟩ := hback mid rest hbetween
    exact ⟨hrefuses, retreats_pure () hfurther hretreat⟩

theorem RoundFollows.of_ended {round : Outcome (Round σ α)} {add : β → σ} {last : α}
    {retreat : Retreat} (h : item.Refuses ts) (hround : round = .done (.finished last) ts) :
    RoundFollows item (pure ()) round add (fun _ => last) retreat ts :=
  .of_refuses (c := ()) h (List.suffix_refl ts) ⟨rfl, Attempt.within_none _ _⟩ hround

/-- Something, and then further items as long as there are any. Where the first part has been gone
back to, no item follows. -/
theorem Simulates.followed {p : Parser σ} {r : Rule σ} {step : σ → Rule (Round σ σ)}
    {add : σ → β → σ} {retreat between : Retreat} (hp : Simulates p r between ts)
    (hround : ∀ s us, us.length ≤ ts.length →
      RoundFollows item (Pure.pure ()) (step s us) (add s) (fun _ => s) retreat us)
    (hback : ∀ mid rest, between mid rest → item.Refuses mid ∧ retreat mid rest) :
    Simulates (do
      let first ← p
      let vs ← Parser.repeated item
      return vs.foldl add first) (do Rule.loop step (← r)) retreat ts := by
  refine hp.bind (fun first mid _ hmid => ?_) fun first mid rest _ hfurther _ hbetween => ?_
  · have hitems := Simulates.repeated
      (fun s us hus => hround s us (Nat.le_trans hus hmid.length_le)) first
    simpa only [pure_bind] using hitems
  · obtain ⟨hrefuses, hretreat⟩ := hback mid rest hbetween
    rw [repeated_bind_of_refuses hrefuses]
    exact (retreats_pure _ hfurther hretreat).also
      (Attempt.forall_mem_some (Nat.le_of_lt hfurther))

end Repeated

section Lists

variable {item : Parser α} {rule : Rule α} {close : String} {ts mid rest : List Token} {v : α}
  {items : List α}

theorem separatedUpTo_bind_of_value (h : (item ts).value? = some (v, mid)) (n : Nat)
    (next : List α → Parser β) : (separatedUpTo item (n + 1) >>= next) ts =
      ((orNot (punct ",") >>= fun comma? => match comma? with
        | some _ => separatedUpTo item n >>= fun vs => next (v :: vs)
        | none => next [v]) mid).also (item ts).left? := by
  rw [separatedUpTo, bind_assoc, orNot_bind_of_value h]
  simp only [bind_assoc]
  refine congrArg (fun more => ((orNot (punct ",") >>= more) mid).also _) (funext fun comma? => ?_)
  cases comma? with
  | none => exact pure_bind _ _
  | some comma => simp only [bind_assoc, pure_bind]

theorem separatedUpTo_bind_of_none (h : (item ts).value? = none) (n : Nat)
    (next : List α → Parser β) :
    (separatedUpTo item (n + 1) >>= next) ts = (next [] ts).also (item ts).left? := by
  rw [separatedUpTo, bind_assoc, orNot_bind_of_none h, pure_bind]

/-- A comma and what follows it, or what ends the items. -/
theorem Simulates.comma {more last : Parser β} {r s : Rule β} {retreat : Retreat}
    (hmore : ∀ t us, ts = t :: us → Simulates more r retreat us)
    (hlast : Simulates last s retreat ts) :
    Simulates (orNot (punct ",") >>= fun comma? => match comma? with
      | some _ => more
      | none => last) (do if ← Rule.took "," then r else s) retreat ts := by
  by_cases hcomma : ∀ t ∈ ts.head?, t.isPunct "," = false
  · have hrefuses := refuses_punct hcomma
    rw [Simulates, orNot_bind_of_none (by rw [hrefuses]), hrefuses, Rule.bind_apply,
      Rule.took_of_not hcomma]
    exact Attempt.Follows.after_refused hlast
  · obtain ⟨t, us, rfl, ht⟩ := Rule.exists_cons_of_not hcomma
    have hread : punct "," (t :: us) = ⟨some (t, us), none⟩ := if_pos ht
    rw [Simulates, orNot_bind_of_value (by rw [hread]), hread, Rule.bind_apply,
      Rule.took_of_isPunct ht, Attempt.also_none]
    exact Attempt.Follows.widen (hmore t us rfl) (List.suffix_cons t us)

/-- Items with commas between them, and then the closing punctuation. Where an item begins but
cannot be read, the closing punctuation is asked for in vain. -/
theorem Simulates.list {between : Retreat}
    (hitem : ∀ us, us.length ≤ ts.length → Simulates item rule between us)
    (hclose : ∀ t us, us.length < ts.length → t.isPunct close → item.Refuses (t :: us))
    (hback : ∀ mid rest, between mid rest →
      ∀ t ∈ mid.head?, t.isPunct "," = false ∧ t.isPunct close = false) :
    Simulates (do
      let items ← separated item
      return (items, ← punct close)) (Rule.listUntil close rule) .never ts := by
  suffices h : ∀ n us items, us.length < n → us.length ≤ ts.length →
      Simulates (do
        let more ← separatedUpTo item n
        return (items ++ more, ← punct close)) (Rule.rounds (Rule.listRound close rule) n items)
        .never us from
    h (ts.length + 1) ts [] (Nat.lt_succ_self _) (Nat.le_refl _)
  intro n
  induction n with
  | zero => exact fun us s hlen => absurd hlen (Nat.not_lt_zero _)
  | succ n ih =>
    intro us items hlen hle
    by_cases hend : ∀ t ∈ us.head?, t.isPunct close = false
    · rw [Simulates, Rule.rounds_of_not_close hend, Rule.bind_apply]
      have hfollows := hitem us hle
      cases hread : rule us with
      | done v mid =>
        obtain ⟨hmid, hgives⟩ := hfollows.done hread
        rw [separatedUpTo_bind_of_value hgives.value]
        refine Attempt.Follows.after_gives (Simulates.comma ?_ ((Simulates.token _).map _)) hgives
          hmid
        rintro t left rfl
        have hshorter : left.length + 1 ≤ us.length := hmid.length_le
        have hmore := ih left (items ++ [v]) (by omega) (by omega)
        simpa only [List.append_assoc, List.singleton_append] using hmore
      | stuck rest =>
        obtain ⟨hrest, hleft, hwithin, hvalue⟩ := hfollows.stuck hread
        cases hresult : (item us).value? with
        | none =>
          rw [separatedUpTo_bind_of_none hresult, hleft]
          have hlast : (do return (items ++ [], ← punct close) :
              Parser (List α × Token)).Refuses us := (refuses_punct hend).bind _
          exact .of_stuck_first (hlast.retreats hrest.length_le) hrest (Nat.le_refl _)
        | some found =>
          obtain ⟨v, mid⟩ := found
          obtain ⟨hfurther, hmid, hretreat⟩ := hvalue v mid hresult
          have hcomma := refuses_punct fun t ht => (hback mid rest hretreat t ht).1
          have hlast : (do return (items ++ [v], ← punct close) :
              Parser (List α × Token)).Refuses mid :=
            (refuses_punct fun t ht => (hback mid rest hretreat t ht).2).bind _
          rw [separatedUpTo_bind_of_value hresult, hleft,
            orNot_bind_of_none (by rw [hcomma]), hcomma]
          refine .of_stuck_first ((hlast.retreats (Nat.le_of_lt hfurther)).also ?_) hrest hmid
          exact Attempt.forall_mem_some (Nat.le_of_lt hfurther)
    · obtain ⟨t, rest, rfl, ht⟩ := Rule.exists_cons_of_not hend
      have hrefuses := hclose t rest hle ht
      have hlast : punct close (t :: rest) = ⟨some (t, rest), none⟩ := if_pos ht
      have hgives : (punct close (t :: rest)).Gives t rest := by
        rw [hlast]
        exact ⟨rfl, Attempt.within_none _ _⟩
      have hmore : ((do return (items ++ [], ← punct close) : Parser (List α × Token))
          (t :: rest)).Gives (items, t) rest := by
        have hlast := gives_map hgives fun last => (items ++ [], last)
        rw [List.append_nil] at hlast ⊢
        exact hlast
      rw [Simulates, Rule.rounds_of_close ht, separatedUpTo_bind_of_none (by rw [hrefuses]),
        hrefuses]
      exact .of_gives (List.suffix_cons t rest)
        ⟨hmore.value, hmore.within.also (Attempt.forall_mem_some (Nat.le_succ _))⟩

end Lists

end SolidScript.Parser
