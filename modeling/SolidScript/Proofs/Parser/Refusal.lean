import SolidScript.Parser.Expression
import SolidScript.Proofs.Parser.Repetition

namespace SolidScript

open Grammar (closers levelSymbols)

/-- The punctuation with which something behind an expression begins that belongs to the
expression. -/
def openers : List String := "(" :: "[" :: "?" :: levelSymbols BinaryOp.levels

namespace Retreat

/-- No token in front of which an expression may have stopped closes anything. -/
theorem not_closer {l : List String} (hl : ∀ s ∈ l, s ∉ closers) {s : String} (hs : s ∈ closers)
    {mid rest : List Token} (h : Retreat.symbols l mid rest) :
    ∀ t ∈ mid.head?, t.isPunct s = false :=
  Follow.not_isPunct_of_symbols (fun hmem => hl s hmem hs) h

end Retreat

namespace Parser

section Refusing

variable {sub : Parser Expr} {ts : List Token}

theorem Refuses.spanned {α : Type} {p : Parser α} (h : p.Refuses ts) : (spanned p).Refuses ts :=
  h.sliced.bind _

theorem refuses_keyword {word : String} (h : ∀ t ∈ ts.head?, t.kind ≠ .keyword) :
    (keyword word).Refuses ts :=
  refuses_token fun t ht => by simp [Token.isKeyword, h t ht]

theorem number_refuses (h : ∀ t ∈ ts.head?, t.kind ≠ .number) : number.Refuses ts :=
  (refuses_token fun t ht => by simp [h t ht]).select

theorem string_refuses (h : ∀ t ∈ ts.head?, t.kind ≠ .string) : string.Refuses ts :=
  (refuses_token fun t ht => by simp [h t ht]).bind _

theorem boolean_refuses (htrue : (keyword "true").Refuses ts)
    (hfalse : (keyword "false").Refuses ts) : boolean.Refuses ts :=
  (htrue.bind _).choice (List.forall_mem_singleton.mpr (hfalse.bind _))

theorem undef_refuses (h : ∀ t ∈ ts.head?, t.kind ≠ .keyword) : undef.Refuses ts :=
  (refuses_keyword h).bind _

theorem call_refuses (h : ∀ t ∈ ts.head?, t.isName = false) : (call sub).Refuses ts :=
  (refuses_token h).bind _

theorem identifier_refuses (h : ∀ t ∈ ts.head?, t.isName = false) : identifier.Refuses ts :=
  (refuses_token h).bind _

theorem range_refuses (h : ∀ t ∈ ts.head?, t.isPunct "[" = false) : (range sub).Refuses ts :=
  ((refuses_punct h).bind _).spanned.bind _

theorem vector_refuses (h : ∀ t ∈ ts.head?, t.isPunct "[" = false) : (vector sub).Refuses ts :=
  ((refuses_punct h).bind _).spanned.bind _

theorem parenthesised_refuses (h : ∀ t ∈ ts.head?, t.isPunct "(" = false) :
    (parenthesised sub).Refuses ts :=
  (refuses_punct h).bind _

end Refusing

section Tokens

variable {t : Token} {ts : List Token} {α : Type}

theorem bind_token_of_satisfies {q : Token → Bool} (h : q t) (next : Token → Parser α) :
    (token q >>= next) (t :: ts) = next t ts := by
  have htoken : token q (t :: ts) = ⟨some (t, ts), none⟩ := if_pos h
  rw [bind_of_value (by rw [htoken]), htoken, Attempt.also_none]

/-- A parser that reads one token to a value, which is what the rule reads there. -/
theorem Simulates.of_token {q : Token → Bool} (h : q t) {f : Token → α} {r : Rule α}
    {retreat : Retreat} (hread : r (t :: ts) = .done (f t) ts) :
    Simulates (do return f (← Parser.token q)) r retreat (t :: ts) := by
  rw [Simulates, bind_token_of_satisfies h, hread]
  exact .of_gives (List.suffix_cons t ts) ⟨rfl, Attempt.within_none _ _⟩

end Tokens

end Parser

end SolidScript
