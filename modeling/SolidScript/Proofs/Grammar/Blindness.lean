import SolidScript.Proofs.Grammar.Progress
import SolidScript.Proofs.Placement

namespace SolidScript

variable {α β γ δ σ τ : Type}

theorem Token.congr_of_placeless {f : Token → α} (hf : ∀ t : Token, f t.placeless = f t)
    {t u : Token}
    (h : t.placeless = u.placeless) : f t = f u := by
  rw [← hf t, h, hf u]

theorem Token.text_of_placeless {t u : Token} (h : t.placeless = u.placeless) : t.text = u.text :=
  congr_of_placeless (f := fun t => t.text) (fun _ => rfl) h

/-- What can be seen of an outcome without looking at places. -/
def Outcome.view (seen : α → γ) : Outcome α → Option γ × List Token
  | .done value rest => (some (seen value), rest.map Token.placeless)
  | .stuck rest => (none, rest.map Token.placeless)

/-- What can be seen of a round. -/
def Round.view (f : σ → τ) (g : α → γ) : Round σ α → Round τ γ
  | .again state => .again (f state)
  | .finished value => .finished (g value)

/-- The rules come to the same end on tokens that differ in their places only. -/
def Rule.Alike (seen : α → γ) (r s : Rule α) : Prop :=
  ∀ ts us : List Token, ts.map Token.placeless = us.map Token.placeless →
    (r ts).view seen = (s us).view seen

namespace Rule.Alike

variable {r s : Rule α} {seen : α → γ}

theorem bind {f g : α → Rule β} {seen' : β → δ} (hr : Alike seen r s)
    (hf : ∀ a b, seen a = seen b → Alike seen' (f a) (g b)) :
    Alike seen' (r >>= f) (s >>= g) := by
  intro ts us h
  have hfirst := hr ts us h
  rw [bind_apply, bind_apply]
  cases hts : r ts <;> cases hus : s us <;>
    simp only [hts, hus, Outcome.view, Prod.mk.injEq, Option.some.injEq, reduceCtorEq, false_and,
      true_and] at hfirst
  · exact hf _ _ hfirst.1 _ _ hfirst.2
  · simp [Outcome.view, hfirst]

theorem pure {a b : α} (h : seen a = seen b) : Alike seen (Pure.pure a) (Pure.pure b) := by
  intro ts us hts
  simp [Outcome.view, h, hts]

theorem refuse : Alike seen Rule.refuse Rule.refuse := by
  intro ts us h
  simp [Rule.refuse, Outcome.view, h]

theorem look {f : List Token → α} (hf : ∀ ts, f (ts.map Token.placeless) = f ts) :
    Alike id (Rule.look f) (Rule.look f) := by
  intro ts us h
  have hsame : f ts = f us := by rw [← hf ts, h, hf us]
  simp [Rule.look, Outcome.view, h, hsame]

theorem token {p : Token → Bool} (hp : ∀ t : Token, p t.placeless = p t) :
    Alike Token.placeless (Rule.token p) (Rule.token p) := by
  intro ts us h
  match ts, us, h with
  | [], [], _ => rfl
  | t :: ts, u :: us, h =>
    obtain ⟨hfirst, hrest⟩ := List.cons.inj h
    have hsame := Token.congr_of_placeless hp hfirst
    simp only [Rule.token, hsame]
    split <;> simp [Outcome.view, hfirst, hrest]

theorem optional {f : Token → Option α} {seen : α → γ}
    (hf : ∀ t u : Token, t.placeless = u.placeless → (f t).map seen = (f u).map seen) :
    Alike (Option.map seen) (Rule.optional f) (Rule.optional f) := by
  intro ts us h
  match ts, us, h with
  | [], [], _ => rfl
  | t :: ts, u :: us, h =>
    obtain ⟨hfirst, hrest⟩ := List.cons.inj h
    have hsame := hf t u hfirst
    simp only [Rule.optional]
    cases hft : f t <;> cases hfu : f u <;> simp_all [Outcome.view]

theorem accept {p : Token → Bool} (hp : ∀ t : Token, p t.placeless = p t) :
    Alike id (Rule.accept p) (Rule.accept p) := by
  intro ts us h
  match ts, us, h with
  | [], [], _ => rfl
  | t :: ts, u :: us, h =>
    obtain ⟨hfirst, hrest⟩ := List.cons.inj h
    have hsame := Token.congr_of_placeless hp hfirst
    simp only [Rule.accept, hsame]
    split <;> simp [Outcome.view, hfirst, hrest]

theorem punct (symbol : String) : Alike Token.placeless (Rule.punct symbol) (Rule.punct symbol) :=
  token fun _ => rfl

theorem keyword (word : String) : Alike Token.placeless (Rule.keyword word) (Rule.keyword word) :=
  token fun _ => rfl

theorem name : Alike Token.placeless Rule.name Rule.name := token fun _ => rfl

theorem took (symbol : String) : Alike id (Rule.took symbol) (Rule.took symbol) :=
  accept fun _ => rfl

/-- Of a closing mark no more than its presence is looked at. -/
theorem closing (symbol : String) :
    Alike (Option.map fun _ => ()) (Rule.closing symbol) (Rule.closing symbol) := by
  refine optional fun t u h => ?_
  have hsame := Token.congr_of_placeless (f := (·.isPunct symbol)) (fun _ => rfl) h
  rw [hsame]
  split <;> rfl

theorem sliced (h : Alike seen r s) :
    Alike (fun v => seen v.1) (Rule.sliced r) (Rule.sliced s) := by
  intro ts us hts
  have hsame := h ts us hts
  simp only [Rule.sliced]
  cases hread : r ts <;> cases hread' : s us <;> simp_all [Outcome.view]

/-- Nobody looks at a span. -/
theorem spanned_bind (seen : α → γ) {f g : α × Span → Rule β} {seen' : β → δ}
    (h : Alike seen r s)
    (hf : ∀ a b span span', seen a = seen b → Alike seen' (f (a, span)) (g (b, span'))) :
    Alike seen' (Rule.spanned r >>= f) (Rule.spanned s >>= g) := by
  have hspanned : Alike (fun v => seen v.1) (Rule.spanned r) (Rule.spanned s) :=
    h.sliced.bind fun _ _ hv => pure hv
  exact hspanned.bind fun a b hab => hf a.1 b.1 a.2 b.2 hab

theorem rounds {step other : σ → Rule (Round σ α)} {f : σ → τ} {g : α → γ}
    (hstep : ∀ a b, f a = f b → Alike (Round.view f g) (step a) (other b)) (n : Nat) {a b : σ}
    (h : f a = f b) : Alike g (Rule.rounds step n a) (Rule.rounds other n b) := by
  induction n generalizing a b with
  | zero => exact refuse
  | succ n ih =>
    refine (hstep a b h).bind fun x y hround => ?_
    cases x <;> cases y <;> simp only [Round.view, Round.again.injEq, Round.finished.injEq,
      reduceCtorEq] at hround
    · exact ih hround
    · exact pure hround

theorem loop {step other : σ → Rule (Round σ α)} {f : σ → τ} {g : α → γ}
    (hstep : ∀ a b, f a = f b → Alike (Round.view f g) (step a) (other b)) {a b : σ}
    (h : f a = f b) : Alike g (Rule.loop step a) (Rule.loop other b) := by
  intro ts us hts
  have hlength : ts.length = us.length := by
    rw [← List.length_map Token.placeless, hts, List.length_map]
  rw [Rule.loop, Rule.loop, hlength]
  exact rounds hstep _ h ts us hts

/-- A rule that uses itself is blind if it is blind over blind rules. -/
theorem knot {f : Rule α → Rule α} (hf : ∀ r, Alike seen r r → Alike seen (f r) (f r)) :
    Alike seen (Rule.knot f) (Rule.knot f) := by
  have hnested (n : Nat) : Alike seen (Rule.nested f n) (Rule.nested f n) := by
    induction n with
    | zero => exact refuse
    | succ n ih => exact hf _ ih
  intro ts us hts
  have hlength : ts.length = us.length := by
    rw [← List.length_map Token.placeless, hts, List.length_map]
  rw [Rule.knot, Rule.knot, hlength]
  exact hnested _ ts us hts

end Rule.Alike

end SolidScript
