import SolidScript.Proofs.Grammar.Prediction.Combinators
import SolidScript.Proofs.Grammar.Recursion.Expression

namespace SolidScript.Grammar

open Rule

/-- What is asked of the rule for inner expressions: that it predicts on lists of fewer than `n`
tokens, takes a token, stops at the closers, and reads a name as that name. -/
structure Inner (n : Nat) (sub : Rule Expr) : Prop where
  predicts : Predicts n (fun _ => 1) (· = some Token.someName) (fun _ => Follow.symbols closers) sub
  reads : ∀ {t : Token}, t.isName → Reads sub [t] (.identifier t.text t) (Follow.symbols closers)

section Brackets

variable {n : Nat} {sub : Rule Expr} {first : Follow}

/-- A punctuation, and a value that is known with it. -/
theorem last_predicts {α : Type} {symbol : String} {f : Token → α}
    (hfirst : first (some (Token.ofPunct symbol))) :
    Predicts n (fun _ => 1) first (fun _ => Follow.any) (do return f (← punct symbol)) :=
  (Predicts.token (Token.ofPunct symbol) (by simp) hfirst).map fun _ _ _ => trivial

/-- One round of a list takes an item and stops behind a comma or the closing punctuation. -/
private theorem listRound_predicts {α : Type} {close : String} {item : Rule α} {after : Follow}
    {x : Token} (items : List α)
    (hitem : Predicts n (fun _ => 1) (· = some x) (fun _ => after) item)
    (hx : x.isPunct close = false) (hclose : after (some (Token.ofPunct close)))
    (hne : close ≠ ",") :
    Predicts n (fun _ => 1) Follow.any (fun _ => Follow.any) (listRound close item items) := by
  refine .optional_bind (Nat.le_refl 1) (fun last => .pure fun _ _ => trivial) ?_ (by simp)
  refine (hitem.start (Nat.le_refl _) (by simp [Follow.any, hx])).ends fun next => ?_
  refine .accept_bind (Nat.le_refl 1) (.pure fun _ _ => trivial) ?_ (by simp)
  exact last_predicts ⟨hclose, by simpa using hne⟩

/-- The items of a list have to stop at the closing punctuation. -/
theorem listUntil_predicts {α : Type} {close : String} {item : Rule α} {after : Follow} {x : Token}
    (hitem : Predicts n (fun _ => 1) (· = some x) (fun _ => after) item)
    (hx : x.isPunct close = false) (hclose : after (some (Token.ofPunct close)))
    (hne : close ≠ ",") :
    Predicts n (fun _ => 0) Follow.any (fun _ => Follow.any) (listUntil close item) := by
  refine .loop [] (fun items => ?_) (fun items ts hlen => ?_) (fun items => ?_)
    fun _ _ _ _ _ _ => trivial
  · exact Agree.takes_of_forall fun _ => listRound_agree hitem.agree
  · exact ((listRound_predicts items hitem hx hclose hne).below ts hlen).mono fun _ _ _ => trivial
  · refine ⟨[Token.ofPunct close], (items, Token.ofPunct close), ?_, fun _ _ => trivial⟩
    intro rest _
    simp [listRound, closing, Rule.optional]

/-- An inner expression and the punctuation that closes it. -/
theorem closed_predicts {α : Type} {m : Nat} {symbol : String} {f : Expr → Token → α}
    (h : Inner n sub) (hm : m ≤ n) (hsymbol : symbol ∈ closers) :
    Predicts m (fun _ => 0) Follow.any (fun _ => Follow.any)
      (do let e ← sub; let last ← punct symbol; return f e last) :=
  .drop ((h.predicts.start hm trivial).ends fun _ => last_predicts (closers_ofPunct hsymbol))

theorem parenthesised_predicts (h : Inner n sub) (hfirst : first (some (Token.ofPunct "("))) :
    Predicts (n + 1) (fun _ => 1) first (fun _ => Follow.any) (parenthesised sub) := by
  refine .token_bind (Token.ofPunct "(") (by simp) hfirst fun _ => ?_
  exact closed_predicts h (by omega) (by decide)

theorem bracketed_predicts (h : Inner n sub) (hfirst : first (some (Token.ofPunct "["))) :
    Predicts (n + 1) (fun _ => 1) first (fun _ => Follow.any) (bracketed sub) := by
  refine .token_bind (Token.ofPunct "[") (by simp) hfirst fun _ => .drop (c := fun _ => 1) ?_
  refine .optional_bind (Nat.le_refl 1) (fun last => .pure fun _ _ => trivial) ?_ (by simp)
  refine (h.predicts.start (by omega) (by simp [Follow.any])).ends fun a => ?_
  refine .accept_bind (Nat.le_refl 1) ?_ ?_ (by simp)
  · refine ((h.predicts.start (by omega) trivial).ends fun b => ?_).drop
    refine .accept_bind (Nat.le_refl 1) ?_ ?_ (by simp)
    · exact closed_predicts h (by omega) (by decide)
    · exact last_predicts ⟨closers_ofPunct (by decide), by simp⟩
  · refine .accept_bind (Nat.le_refl 1) ?_ ?_ (by simp)
    · have hlist : Predicts n _ Follow.any _ (listUntil "]" sub) :=
        listUntil_predicts h.predicts (by simp) (closers_ofPunct (by decide)) (by decide)
      exact (hlist.limit (by omega)).map fun _ _ _ => trivial
    · exact last_predicts ⟨⟨closers_ofPunct (by decide), by simp⟩, by simp⟩

end Brackets

section Calls

variable {n : Nat} {sub : Rule Expr} {first : Follow}

theorem argument_of_positional {ts : List Token} (h : startsNamed ts = false) :
    argument sub ts = (do return .positional (← sub) : Rule Argument) ts := by
  simp [argument, Rule.look, h]

theorem argument_of_named {t e : Token} (ht : t.isName) (he : e.isPunct "=") (us : List Token) :
    argument sub ([t, e] ++ us) = (do return .named t.text (← sub) : Rule Argument) us := by
  simp [argument, Rule.look, startsNamed, name, punct, Rule.token, ht, he]

/-- Whether a named argument comes next is known from the first token and what comes behind it. -/
private theorem startsNamed_append {us rest : List Token} (other : List Token) (hus : us ≠ [])
    (h : startsNamed (us ++ other) = false)
    (hrest : rest.head? = other.head? ∨ Follow.symbols [",", ")"] rest.head?) :
    startsNamed (us ++ rest) = false := by
  match us, hus with
  | t :: e :: us, _ => exact h
  | [t], _ =>
    cases rest with
    | nil => rfl
    | cons e rest =>
      rcases hrest with hrest | hrest
      · cases other with
        | nil => cases hrest
        | cons d other =>
          cases hrest
          exact h
      · have he := Follow.not_isPunct_of_symbols (s := "=") (by decide) hrest e rfl
        simp [startsNamed, he]

private theorem value_predicts (h : Inner n sub) (f : Expr → Argument) :
    Predicts n (fun _ => 1) (· = some Token.someName) (fun _ => Follow.symbols [",", ")"])
      (do return f (← sub) : Rule Argument) :=
  h.predicts.map fun _ _ => Follow.symbols_mono (by decide)

private theorem argument_reads_name (h : Inner n sub) {t : Token} (ht : t.isName) :
    Reads (argument sub) [t] (.positional (.identifier t.text t)) (Follow.symbols [",", ")"]) := by
  intro rest hrest
  rw [argument_of_positional (startsNamed_append [] (by simp) rfl (.inr hrest)),
    bind_apply, h.reads ht rest (Follow.symbols_mono (by decide) hrest)]
  rfl

private theorem startsNamed_of_not_isName {t : Token} (ht : t.isName = false) (us : List Token) :
    startsNamed (t :: us) = false := by
  cases us <;> simp [startsNamed, ht]

private theorem positional_predictsAt (h : Inner n sub) {ts : List Token} (hlen : ts.length < n)
    (hts : startsNamed ts = false) :
    PredictsAt (argument sub) (fun _ => Follow.symbols [",", ")"]) ts := by
  have hvalue := value_predicts h .positional
  have hbelow := hvalue.below ts hlen
  constructor
  · intro v rest hread
    rw [argument_of_positional hts] at hread
    obtain ⟨us, rfl, hother⟩ := hbelow.done hread
    refine ⟨us, rfl, fun other hhead => ?_⟩
    have hus : us ≠ [] := by
      rintro rfl
      have htakes : rest.length + 1 ≤ rest.length := hvalue.takes _ _ _ hread
      omega
    rw [argument_of_positional (startsNamed_append rest hus hts hhead)]
    exact hother other hhead
  · intro t rest hread
    rw [argument_of_positional hts] at hread
    obtain ⟨us, rfl, hother⟩ := hbelow.stuck hread
    refine ⟨us, rfl, fun other => ?_⟩
    rw [argument_of_positional]
    · exact hother other
    · cases us with
      | cons u us => exact startsNamed_append (t :: rest) (by simp) hts (.inl rfl)
      | nil =>
        -- A name would have been read, so it cannot be the token to blame.
        refine startsNamed_of_not_isName (Bool.eq_false_iff.mpr fun ht => ?_) other
        have hread : sub [t] = .done _ [] := h.reads ht [] (by simp [Follow.symbols])
        have hstuck := hother []
        simp [hread] at hstuck
  · intro hread
    rw [argument_of_positional hts] at hread
    match ts, hread, hbelow, hts with
    | [], _, _, _ => exact ⟨_, _, argument_reads_name h Token.someName_isName⟩
    | [t], hread, hbelow, _ =>
      have ht : t.isName = false := by
        refine Bool.eq_false_iff.mpr fun ht => ?_
        have hname : sub [t] = .done _ [] := h.reads ht [] (by simp [Follow.symbols])
        simp [hname] at hread
      obtain ⟨us, v, hus⟩ := hbelow.ended hread
      refine ⟨us, v, fun rest hrest => .trans (argument_of_positional ?_) (hus rest hrest)⟩
      exact startsNamed_of_not_isName ht _
    | t :: e :: ts, hread, hbelow, hts =>
      obtain ⟨us, v, hus⟩ := hbelow.ended hread
      exact ⟨us, v, fun rest hrest => .trans (argument_of_positional hts) (hus rest hrest)⟩

/-- An argument stops only at a comma or at the closing parenthesis: before an equals sign a name
would be the name of an argument. -/
theorem argument_predicts (h : Inner n sub) :
    Predicts n (fun _ => 1) (· = some Token.someName) (fun _ => Follow.symbols [",", ")"])
      (argument sub) := by
  refine ⟨Agree.takes_of_forall fun _ => argument_agree h.predicts.agree, fun ts hlen => ?_,
    _, _, argument_reads_name h Token.someName_isName, fun _ _ => rfl⟩
  by_cases hts : startsNamed ts
  · match ts, hts with
    | t :: e :: us, hts =>
      obtain ⟨ht, he⟩ : t.isName ∧ e.isPunct "=" := by simpa [startsNamed] using hts
      exact .prepend [t, e] (argument_of_named ht he)
        ((value_predicts h _).below us (by simp at hlen; omega))
  · exact positional_predictsAt h hlen (by simpa using hts)

theorem arguments_predicts (h : Inner n sub) (hfirst : first (some (Token.ofPunct "("))) :
    Predicts (n + 1) (fun _ => 1) first (fun _ => Follow.any) (arguments sub) := by
  refine .token_bind (Token.ofPunct "(") (by simp) hfirst fun _ => ?_
  exact (listUntil_predicts (argument_predicts h) (by simp) (Follow.symbols_ofPunct (by decide))
    (by decide)).limit (by omega)

/-- A name stops unless an opening parenthesis follows. -/
theorem nameOrCall_predicts (h : Inner n sub) :
    Predicts (n + 1) (fun _ => 1) (· = some Token.someName)
      (fun _ o => ∀ t ∈ o, t.isPunct "(" = false) (nameOrCall sub) := by
  have hnot {o : Option Token} (ho : ∀ t ∈ o, t.isPunct "(" = false) :
      o.any (·.isPunct "(") = false := by
    cases o <;> simp_all
  refine .token_bind Token.someName (by simp) rfl fun name => ?_
  refine Predicts.look.bindBy (fun called => if called then 1 else 0) ?_ ?_ (by simp)
  · intro called
    cases called with
    | false => exact .pure fun o ho => ⟨trivial, hnot ho⟩
    | true =>
      exact ((arguments_predicts h ⟨trivial, by simp⟩).limit (by omega)).map fun _ _ _ => trivial
  · intro called hzero e o ho
    cases called with
    | false => exact ⟨trivial, hnot ho⟩
    | true => cases hzero

end Calls

end SolidScript.Grammar
