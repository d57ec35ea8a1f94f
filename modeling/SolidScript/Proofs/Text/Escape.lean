import SolidScript.Proofs.Text.Decoding

namespace SolidScript.Escape

/-- The digit stands for the value, in letters of either case. -/
def HexDigit (digit : Char) (value : Nat) : Prop :=
  "0123456789abcdef".toList[value]? = some digit ∨ "0123456789ABCDEF".toList[value]? = some digit

/-- The spellings of one character: itself unless it is a backslash or a quote, an escape of two
characters, or the four hexadecimal digits of its code point. -/
inductive Encodes : Char → List Char → Prop
  | raw {c : Char} (hslash : c ≠ '\\') (hquote : c ≠ '"') : Encodes c [c]
  | slash : Encodes '\\' ['\\', '\\']
  | quote : Encodes '"' ['\\', '"']
  | newline : Encodes '\n' ['\\', 'n']
  | tab : Encodes '\t' ['\\', 't']
  | carriageReturn : Encodes '\r' ['\\', 'r']
  | codePoint {c p q r s : Char} {i j k l : Nat} (hp : HexDigit p i) (hq : HexDigit q j)
    (hr : HexDigit r k) (hs : HexDigit s l) (h : c.toNat = 4096 * i + 256 * j + 16 * k + l) :
    Encodes c ['\\', 'u', p, q, r, s]

/-- One spelling behind the other for each character. -/
inductive EncodesAll : List Char → List Char → Prop
  | nil : EncodesAll [] []
  | cons {c : Char} {cs piece text : List Char} (hfirst : Encodes c piece)
    (hrest : EncodesAll cs text) : EncodesAll (c :: cs) (piece ++ text)

variable {c d : Char} {cs piece text : List Char} {n : Nat}

theorem HexDigit.value (h : HexDigit d n) : hexDigit? d = some n := by
  have hbound : n < 16 := by
    obtain h | h := h
    · simpa using (List.getElem?_eq_some_iff.mp h).1
    · simpa using (List.getElem?_eq_some_iff.mp h).1
  have hall : ∀ n < 16, ∀ digits ∈ ["0123456789abcdef".toList, "0123456789ABCDEF".toList],
      digits[n]?.bind hexDigit? = some n := by
    decide +kernel
  obtain h | h := h
  · rw [← hall n hbound _ List.mem_cons_self, h, Option.bind_some]
  · rw [← hall n hbound _ (List.mem_cons_of_mem _ List.mem_cons_self), h, Option.bind_some]

theorem HexDigit.plain (h : HexDigit d n) : d ≠ '\\' ∧ d ≠ '"' := by
  have hvalue := h.value
  constructor
  · rintro rfl
    simp [hexDigit?] at hvalue
  · rintro rfl
    simp [hexDigit?] at hvalue

theorem unicode?_of_digits {p q r s : Char} {i j k l : Nat} (hp : HexDigit p i) (hq : HexDigit q j)
    (hr : HexDigit r k) (hs : HexDigit s l) (h : c.toNat = 4096 * i + 256 * j + 16 * k + l) :
    unicode? p q r s = some c := by
  have hcode : (i * 16 + j) * 256 + k * 16 + l = c.toNat := by omega
  have hvalid : c.toNat.isValidChar := c.valid
  simp [unicode?, hp.value, hq.value, hr.value, hs.value, hcode, codePoint?, hvalid]

theorem decode_raw (h : c ≠ '\\') (cs : List Char) : decode (c :: cs) = c :: decode cs := by
  rw [decode]
  all_goals
    intros
    simp_all

/-- Decoding takes one spelling and gives its character. -/
theorem Encodes.decode (h : Encodes c piece) (cs : List Char) :
    Escape.decode (piece ++ cs) = c :: Escape.decode cs := by
  cases h with
  | raw hslash _ => exact decode_raw hslash cs
  | slash => simp [Escape.decode]
  | quote => simp [Escape.decode]
  | newline => simp [Escape.decode]
  | tab => simp [Escape.decode]
  | carriageReturn => simp [Escape.decode]
  | codePoint hp hq hr hs h => simp [Escape.decode, unicode?_of_digits hp hq hr hs h]

theorem EncodesAll.decode (h : EncodesAll cs text) : Escape.decode text = cs := by
  induction h with
  | nil => simp [Escape.decode]
  | cons hfirst _ ih => rw [hfirst.decode, ih]

/-- In a spelling every backslash protects the character behind it. -/
theorem Encodes.guarded (h : Encodes c piece) (hcs : Guarded cs) : Guarded (piece ++ cs) := by
  cases h with
  | raw hslash hquote => exact .plain hslash hquote hcs
  | codePoint hp hq hr hs =>
    have hdigit {d : Char} {i : Nat} {tail : List Char} (hd : HexDigit d i) (htail : Guarded tail) :
        Guarded (d :: tail) := .plain hd.plain.1 hd.plain.2 htail
    exact .escaped (hdigit hp (hdigit hq (hdigit hr (hdigit hs hcs))))
  | _ => exact .escaped hcs

theorem EncodesAll.guarded (h : EncodesAll cs text) : Guarded text := by
  induction h with
  | nil => exact .nil
  | cons hfirst _ ih => exact hfirst.guarded ih

theorem inside_quoted (text : List Char) : inside ('"' :: (text ++ ['"'])) = text := by
  simp [inside]

end SolidScript.Escape
