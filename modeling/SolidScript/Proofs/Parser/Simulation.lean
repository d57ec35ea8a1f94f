import SolidScript.Parser
import SolidScript.Proofs.Grammar.Lists

namespace SolidScript

namespace Attempt

variable {α : Type}

@[simp] theorem also_none (a : Attempt α) : a.also none = a := by
  obtain ⟨value?, left?⟩ := a
  cases left? <;> rfl

theorem forall_mem_some {k m : Nat} (h : k ≤ m) : ∀ n ∈ some m, k ≤ n := by
  rintro _ ⟨⟩
  exact h

/-- Nothing in the attempt has failed with fewer than `k` tokens left. -/
def Within (a : Attempt α) (k : Nat) : Prop := ∀ n ∈ a.left?, k ≤ n

theorem Within.mono {a : Attempt α} {k l : Nat} (h : a.Within k) (hle : l ≤ k) : a.Within l :=
  fun n hn => Nat.le_trans hle (h n hn)

theorem within_none (value? : Option (α × List Token)) (k : Nat) : (mk value? none).Within k :=
  fun _ => nofun

theorem within_some {value? : Option (α × List Token)} {k n : Nat} (h : k ≤ n) :
    (mk value? (some n)).Within k := forall_mem_some h

theorem Within.also {a : Attempt α} {k : Nat} {left? : Option Nat} (h : a.Within k)
    (hleft : ∀ n ∈ left?, k ≤ n) : (a.also left?).Within k := by
  obtain ⟨value?, own?⟩ := a
  cases left? with
  | none => cases own? <;> exact h
  | some n =>
    cases own? with
    | none => exact hleft
    | some m => exact within_some (Nat.le_min.mpr ⟨hleft n rfl, h m rfl⟩)

/-- The failure that is further on is the one that is kept. -/
theorem left?_also_of_first {a : Attempt α} {k : Nat} (h : a.Within k) :
    (a.also (some k)).left? = some k := by
  obtain ⟨value?, own?⟩ := a
  cases own? with
  | none => rfl
  | some m => exact congrArg some (Nat.min_eq_left (h m rfl))

theorem left?_also_of_second {a : Attempt α} {k : Nat} {left? : Option Nat}
    (h : a.left? = some k) (hleft : ∀ n ∈ left?, k ≤ n) : (a.also left?).left? = some k := by
  obtain ⟨value?, own?⟩ := a
  obtain rfl : own? = some k := h
  cases left? with
  | none => rfl
  | some n => exact congrArg some (Nat.min_eq_right (hleft n rfl))

/-- The attempt has read the value, and nothing in it has failed behind what it leaves. -/
structure Gives (a : Attempt α) (v : α) (rest : List Token) : Prop where
  value : a.value? = some (v, rest)
  within : a.Within rest.length

/-- The attempt has not come as far as `rest`, where nothing can go on: it has failed, or it has put
back what it had taken and leaves tokens as `retreat` has them. -/
structure Retreats (a : Attempt α) (retreat : List Token → List Token → Prop)
    (ts rest : List Token) : Prop where
  within : a.Within rest.length
  value : ∀ v mid, a.value? = some (v, mid) →
    rest.length < mid.length ∧ mid.length ≤ ts.length ∧ retreat mid rest

theorem Gives.retreats {a : Attempt α} {v : α} {retreat : List Token → List Token → Prop}
    {ts mid rest : List Token} (h : a.Gives v mid) (hfurther : rest.length < mid.length)
    (hmid : mid.length ≤ ts.length) (hretreat : retreat mid rest) : a.Retreats retreat ts rest where
  within := h.within.mono (Nat.le_of_lt hfurther)
  value w last hlast := by
    rw [h.value] at hlast
    cases hlast
    exact ⟨hfurther, hmid, hretreat⟩

theorem Retreats.also {a : Attempt α} {retreat : List Token → List Token → Prop}
    {ts rest : List Token} {left? : Option Nat} (h : a.Retreats retreat ts rest)
    (hleft : ∀ n ∈ left?, rest.length ≤ n) : (a.also left?).Retreats retreat ts rest :=
  ⟨h.within.also hleft, h.value⟩

end Attempt

/-- What an attempt may leave in front of the tokens at which nothing can go on. -/
abbrev Retreat := List Token → List Token → Prop

/-- Nothing: the attempt fails. -/
def Retreat.never : Retreat := fun _ _ => False

/-- Tokens that begin with one of the symbols. -/
def Retreat.symbols (l : List String) : Retreat := fun mid _ => Follow.symbols l mid.head?

/-- On the tokens `ts` the attempt comes to the same as a rule. Where the rule has read a value, so
has the attempt, and nothing in it has failed behind that value. Where the rule is stuck, the
furthest failure of the attempt is at the same token. The attempt need not have failed then, since
it may have gone back to something that can be read, but what comes next is as `retreat` has it. -/
structure Attempt.Follows {α : Type} (a : Attempt α) (o : Outcome α) (retreat : Retreat)
    (ts : List Token) : Prop where
  done : ∀ {v rest}, o = .done v rest → rest <:+ ts ∧ a.Gives v rest
  stuck : ∀ {rest}, o = .stuck rest →
    rest <:+ ts ∧ a.left? = some rest.length ∧ a.Retreats retreat ts rest

/-- On the tokens `ts` the parser comes to the same as the rule. -/
def Parser.Simulates {α : Type} (p : Parser α) (r : Rule α) (retreat : Retreat)
    (ts : List Token) : Prop := (p ts).Follows (r ts) retreat ts

namespace Attempt.Follows

variable {α : Type} {a : Attempt α} {o : Outcome α} {retreat : Retreat} {ts : List Token}

theorem of_gives {v : α} {rest : List Token} (hrest : rest <:+ ts) (h : a.Gives v rest) :
    a.Follows (.done v rest) retreat ts where
  done heq := by
    cases heq
    exact ⟨hrest, h⟩
  stuck heq := nomatch heq

theorem of_retreats {rest : List Token} (hrest : rest <:+ ts) (hleft : a.left? = some rest.length)
    (h : a.Retreats retreat ts rest) : a.Follows (.stuck rest) retreat ts where
  done heq := nomatch heq
  stuck heq := by
    cases heq
    exact ⟨hrest, hleft, h⟩

theorem of_failed {rest : List Token} (hrest : rest <:+ ts) (hvalue : a.value? = none)
    (hleft : a.left? = some rest.length) : a.Follows (.stuck rest) retreat ts := by
  refine .of_retreats hrest hleft ⟨fun n hn => ?_, fun v mid hmid => ?_⟩
  · rw [hleft] at hn
    exact Nat.le_of_eq (Option.some.inj hn)
  · rw [hvalue] at hmid
    cases hmid

theorem mono {wide : Retreat} (h : a.Follows o retreat ts)
    (hle : ∀ mid rest, retreat mid rest → wide mid rest) : a.Follows o wide ts where
  done := h.done
  stuck {rest} heq := by
    obtain ⟨hsuffix, hleft, hwithin, hvalue⟩ := h.stuck heq
    exact ⟨hsuffix, hleft, hwithin, fun v mid hmid => (hvalue v mid hmid).imp_right
      fun hretreat => hretreat.imp_right (hle mid rest)⟩

theorem never (h : a.Follows o .never ts) (wide : Retreat) : a.Follows o wide ts :=
  h.mono fun _ _ => False.elim

theorem rest_suffix (h : a.Follows o retreat ts) : o.rest <:+ ts := by
  cases o with
  | done v rest => exact (h.done rfl).1
  | stuck rest => exact (h.stuck rfl).1

/-- The attempt may have been made on the last of the tokens only, and after another one that has
not come further. -/
theorem also {us : List Token} {left? : Option Nat} (h : a.Follows o retreat us) (hus : us <:+ ts)
    (hwithin : ∀ n ∈ left?, o.rest.length ≤ n) : (a.also left?).Follows o retreat ts := by
  cases o with
  | done v rest =>
    obtain ⟨hrest, hvalue, hmore⟩ := h.done rfl
    exact .of_gives (hrest.trans hus) ⟨hvalue, hmore.also hwithin⟩
  | stuck rest =>
    obtain ⟨hrest, hleft, hmore, hvalue⟩ := h.stuck rfl
    refine .of_retreats (hrest.trans hus) (Attempt.left?_also_of_second hleft hwithin)
      ⟨hmore.also hwithin, fun v mid hmid => ?_⟩
    obtain ⟨hfurther, hlen, hretreat⟩ := hvalue v mid hmid
    exact ⟨hfurther, Nat.le_trans hlen hus.length_le, hretreat⟩

/-- The attempt is made where another one has refused the next token. -/
theorem after_refused (h : a.Follows o retreat ts) :
    (a.also (some ts.length)).Follows o retreat ts :=
  h.also (List.suffix_refl ts) (forall_mem_some h.rest_suffix.length_le)

/-- The attempt is made on what another one leaves. -/
theorem after_gives {β : Type} {b : Attempt β} {v : β} {mid : List Token}
    (h : a.Follows o retreat mid) (hb : b.Gives v mid) (hmid : mid <:+ ts) :
    (a.also b.left?).Follows o retreat ts :=
  h.also hmid (hb.within.mono h.rest_suffix.length_le)

theorem widen {us : List Token} (h : a.Follows o retreat us) (hus : us <:+ ts) :
    a.Follows o retreat ts := by
  have halso : (a.also none).Follows o retreat ts := h.also hus nofun
  rwa [also_none] at halso

/-- Where another attempt has failed as far as a rule gets, it makes no difference what is tried
next, if that does not come further. -/
theorem of_stuck_first {us rest : List Token} (h : a.Retreats retreat us rest) (hrest : rest <:+ ts)
    (hlen : us.length ≤ ts.length) :
    (a.also (some rest.length)).Follows (.stuck rest) retreat ts := by
  obtain ⟨hwithin, hvalue⟩ := h
  refine .of_retreats hrest (Attempt.left?_also_of_first hwithin)
    ⟨hwithin.also (forall_mem_some (Nat.le_refl _)), fun v mid hmid => ?_⟩
  obtain ⟨hfurther, hmid, hretreat⟩ := hvalue v mid hmid
  exact ⟨hfurther, Nat.le_trans hmid hlen, hretreat⟩

end Attempt.Follows

namespace Parser

variable {α β : Type}

/-- The parser fails at the first of the tokens and nowhere else. -/
def Refuses (p : Parser α) (ts : List Token) : Prop := p ts = ⟨none, some ts.length⟩

theorem bind_of_value {p : Parser α} {ts rest : List Token} {v : α}
    (h : (p ts).value? = some (v, rest)) (next : α → Parser β) :
    (p >>= next) ts = (next v rest).also (p ts).left? := by
  simp only [bind]
  generalize p ts = a at h
  obtain ⟨_, left?⟩ := a
  obtain rfl := h
  rfl

theorem bind_of_none {p : Parser α} {ts : List Token} (h : (p ts).value? = none)
    (next : α → Parser β) : (p >>= next) ts = ⟨none, (p ts).left?⟩ := by
  simp only [bind]
  generalize p ts = a at h
  obtain ⟨_, left?⟩ := a
  obtain rfl := h
  rfl

theorem bind_fails {p : Parser α} {ts : List Token} {k : Nat} (hnone : (p ts).value? = none)
    (hwithin : (p ts).Within k) (next : α → Parser β) :
    ((p >>= next) ts).value? = none ∧ ((p >>= next) ts).Within k := by
  rw [bind_of_none hnone]
  exact ⟨rfl, hwithin⟩

theorem orElse_of_value {p q : Parser α} {ts : List Token} {found : α × List Token}
    (h : (p ts).value? = some found) : orElse p q ts = p ts := by
  rw [orElse]
  generalize p ts = a at h
  obtain ⟨_, left?⟩ := a
  obtain rfl := h
  rfl

theorem orElse_of_none {p q : Parser α} {ts : List Token} (h : (p ts).value? = none) :
    orElse p q ts = (q ts).also (p ts).left? := by
  rw [orElse]
  generalize p ts = a at h
  obtain ⟨_, left?⟩ := a
  obtain rfl := h
  rfl

theorem retreats_pure {retreat : Retreat} {mid rest : List Token} (v : α)
    (hfurther : rest.length < mid.length) (hretreat : retreat mid rest) :
    ((pure v : Parser α) mid).Retreats retreat mid rest :=
  Attempt.Gives.retreats ⟨rfl, Attempt.within_none _ _⟩ hfurther (Nat.le_refl _) hretreat

section Refusing

variable {ts : List Token}

theorem refuses_of_left? {p : Parser α} (hnone : (p ts).value? = none)
    (hleft : (p ts).left? = some ts.length) : p.Refuses ts := by
  rw [Refuses, ← hnone, ← hleft]

theorem refuses_token {p : Token → Bool} (h : ∀ t ∈ ts.head?, p t = false) :
    (token p).Refuses ts := by
  cases ts with
  | nil => rfl
  | cons t ts => simp [Refuses, token, h t rfl]

theorem refuses_punct {symbol : String} (h : ∀ t ∈ ts.head?, t.isPunct symbol = false) :
    (punct symbol).Refuses ts := refuses_token h

theorem Refuses.bind {p : Parser α} (h : p.Refuses ts) (next : α → Parser β) :
    (p >>= next).Refuses ts := by
  rw [Refuses, bind_of_none (by rw [h]), h]

theorem Refuses.retreats {p : Parser α} {retreat : Retreat} {us rest : List Token}
    (h : p.Refuses ts) (hlen : rest.length ≤ ts.length) : (p ts).Retreats retreat us rest := by
  rw [h]
  exact ⟨Attempt.within_some hlen, fun _ _ => nofun⟩

end Refusing

namespace Simulates

variable {p : Parser α} {r : Rule α} {retreat between : Retreat} {ts : List Token}

/-- Where the rule is stuck and there is nothing to go back to, the parser fails. -/
theorem value?_of_stuck (h : Simulates p r .never ts) {rest : List Token}
    (hread : r ts = .stuck rest) : (p ts).value? = none := by
  obtain ⟨_, _, _, hvalue⟩ := h.stuck hread
  refine Option.eq_none_iff_forall_ne_some.mpr fun ⟨v, mid⟩ hmid => ?_
  exact (hvalue v mid hmid).2.2

/-- Both read the same up to the end: what a parser has gone back from is left. -/
theorem value?_nil_iff (h : Simulates p r retreat ts) {v : α} :
    (p ts).value? = some (v, []) ↔ r ts = .done v [] := by
  refine ⟨fun hvalue => ?_, fun hread => (h.done hread).2.value⟩
  cases hread : r ts with
  | done w rest =>
    cases (h.done hread).2.value.symm.trans hvalue
    rfl
  | stuck rest =>
    obtain ⟨hfurther, _⟩ := (h.stuck hread).2.2.value v [] hvalue
    exact absurd hfurther (Nat.not_lt_zero _)

/-- Where the rule is stuck at the next token, the parser refuses it. -/
theorem refuses_of_stuck (h : Simulates p r retreat ts) (hread : r ts = .stuck ts) :
    p.Refuses ts := by
  obtain ⟨_, hleft, _, hvalue⟩ := h.stuck hread
  have hnone : (p ts).value? = none := by
    refine Option.eq_none_iff_forall_ne_some.mpr fun ⟨v, mid⟩ hmid => ?_
    obtain ⟨hfurther, hlen, _⟩ := hvalue v mid hmid
    exact absurd hfurther (Nat.not_lt.mpr hlen)
  exact refuses_of_left? hnone hleft

theorem pure (v : α) : Simulates (Pure.pure v) (Pure.pure v) retreat ts :=
  .of_gives (List.suffix_refl ts) ⟨rfl, Attempt.within_none _ _⟩

theorem of_refuses (h : p.Refuses ts) (hread : r ts = .stuck ts) : Simulates p r retreat ts := by
  rw [Simulates, h, hread]
  exact .of_failed (List.suffix_refl ts) rfl rfl

theorem token (q : Token → Bool) : Simulates (Parser.token q) (Rule.token q) .never ts := by
  cases ts with
  | nil => exact .of_refuses rfl rfl
  | cons t ts =>
    cases ht : q t with
    | true =>
      rw [Simulates, Parser.token, if_pos ht, Rule.token, if_pos ht]
      exact .of_gives (List.suffix_cons t ts) ⟨rfl, Attempt.within_none _ _⟩
    | false => exact .of_refuses (by simp [Refuses, Parser.token, ht]) (by simp [Rule.token, ht])

/-- The second parser is run on what the first one leaves, also where the first one has gone
back. -/
theorem bind {g : α → Parser β} {f : α → Rule β} (hp : Simulates p r between ts)
    (hdone : ∀ v mid, r ts = .done v mid → mid <:+ ts → Simulates (g v) (f v) retreat mid)
    (hback : ∀ v mid rest, r ts = .stuck rest → rest.length < mid.length →
      mid.length ≤ ts.length → between mid rest → (g v mid).Retreats retreat mid rest) :
    Simulates (p >>= g) (r >>= f) retreat ts := by
  rw [Simulates, Rule.bind_apply]
  cases hfirst : r ts with
  | done v mid =>
    obtain ⟨hmid, hgives⟩ := hp.done hfirst
    rw [bind_of_value hgives.value]
    exact Attempt.Follows.after_gives (hdone v mid hfirst hmid) hgives hmid
  | stuck rest =>
    obtain ⟨hrest, hleft, hwithin, hvalue⟩ := hp.stuck hfirst
    cases hresult : (p ts).value? with
    | none =>
      rw [bind_of_none hresult]
      exact .of_failed hrest rfl hleft
    | some found =>
      obtain ⟨v, mid⟩ := found
      obtain ⟨hfurther, hlen, hretreat⟩ := hvalue v mid hresult
      rw [bind_of_value hresult, hleft]
      exact .of_stuck_first (hback v mid rest hfirst hfurther hlen hretreat) hrest hlen

/-- A parser that does not go back is followed by the next one only where it has read something. -/
theorem bind_never {g : α → Parser β} {f : α → Rule β} (hp : Simulates p r .never ts)
    (hdone : ∀ v mid, r ts = .done v mid → mid <:+ ts → Simulates (g v) (f v) retreat mid) :
    Simulates (p >>= g) (r >>= f) retreat ts :=
  hp.bind hdone fun _ _ _ _ _ _ => False.elim

/-- What follows refuses every token in front of which the first parser may have stopped. -/
theorem bind_refused {g : α → Parser β} {f : α → Rule β} (hp : Simulates p r between ts)
    (hdone : ∀ v mid, r ts = .done v mid → mid <:+ ts → Simulates (g v) (f v) retreat mid)
    (hback : ∀ v mid rest, between mid rest → (g v).Refuses mid) :
    Simulates (p >>= g) (r >>= f) retreat ts :=
  hp.bind hdone fun v mid rest _ hfurther _ hretreat =>
    (hback v mid rest hretreat).retreats (Nat.le_of_lt hfurther)

/-- What is made of the value read changes nothing. -/
theorem map (h : Simulates p r retreat ts) (g : α → β) :
    Simulates (do return g (← p)) (do return g (← r)) retreat ts := by
  refine h.bind (fun v mid _ _ => .pure (g v)) fun v mid rest _ hfurther _ hretreat => ?_
  refine ⟨Attempt.within_none _ _, fun b last hlast => ?_⟩
  cases hlast
  exact ⟨hfurther, Nat.le_refl _, hretreat⟩

end Simulates

end Parser

end SolidScript
