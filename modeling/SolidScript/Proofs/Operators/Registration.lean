import SolidScript.Proofs.Operators

namespace SolidScript

/-- An entry that is added to a table of operators. -/
inductive Registration where
  | binary (op : BinaryOp) (left right : Kind) (handler : BinaryHandler)
  | unary (op : UnaryOp) (operand : Kind) (handler : UnaryHandler)

namespace Registration

/-- The handler of an entry, if the entry is for the binary operator and the two kinds. -/
def binary? (op : BinaryOp) (left right : Kind) : Registration → Option BinaryHandler
  | .binary op' left' right' h => if (op', left', right') = (op, left, right) then some h else none
  | .unary _ _ _ => none

/-- The handler of an entry, if the entry is for the unary operator and the kind. -/
def unary? (op : UnaryOp) (operand : Kind) : Registration → Option UnaryHandler
  | .unary op' operand' h => if (op', operand') = (op, operand) then some h else none
  | .binary _ _ _ _ => none

end Registration

/-- Where every step may put a new value in place of the old one, the last new value is left, or the
old one if there is no new one. -/
theorem foldl_eq_getLast? {σ ι α : Type} (look : σ → Option α) {next : σ → ι → σ}
    {new : ι → Option α} (hnext : ∀ s i, look (next s i) = (new i).or (look s)) (s : σ)
    (is : List ι) : look (is.foldl next s) = (is.filterMap new).getLast?.or (look s) := by
  induction is generalizing s with
  | nil => rfl
  | cons i is ih =>
    rw [List.foldl_cons, ih, hnext]
    cases hi : new i with
    | none => rw [List.filterMap_cons_none hi, Option.none_or]
    | some a =>
      rw [List.filterMap_cons_some hi, List.getLast?_cons]
      cases (is.filterMap new).getLast? with
      | none => rfl
      | some b => rfl

/-- Looking up a key where there is one more pair in front. -/
theorem lookup_cons_eq_or {α β : Type} [DecidableEq α] [BEq α] [LawfulBEq α] (a key : α) (b : β)
    (pairs : List (α × β)) : ((key, b) :: pairs).lookup a =
      (if key = a then some b else none).or (pairs.lookup a) := by
  rw [List.lookup_cons]
  by_cases hkey : key = a
  · rw [if_pos hkey, hkey, beq_self_eq_true]
    rfl
  · rw [if_neg hkey, Option.none_or, beq_eq_false_iff_ne.mpr (Ne.symm hkey)]

namespace Operators

/-- Adds an entry to the table. -/
def register (o : Operators) : Registration → Operators
  | .binary op left right h => o.registerBinary op left right h
  | .unary op operand h => o.registerUnary op operand h

/-- Adds entries to the table, one after the other. -/
def registerAll (o : Operators) (gs : List Registration) : Operators := gs.foldl register o

section Tables

theorem lookup_register_binary (op : BinaryOp) (j k : Kind) (o : Operators) (g : Registration) :
    (o.register g).binary.lookup (op, j, k) =
      (g.binary? op j k).or (o.binary.lookup (op, j, k)) := by
  cases g with
  | unary => rfl
  | binary op' j' k' h => exact lookup_cons_eq_or (op, j, k) (op', j', k') h o.binary

theorem lookup_register_unary (op : UnaryOp) (k : Kind) (o : Operators) (g : Registration) :
    (o.register g).unary.lookup (op, k) = (g.unary? op k).or (o.unary.lookup (op, k)) := by
  cases g with
  | binary => rfl
  | unary op' k' h => exact lookup_cons_eq_or (op, k) (op', k') h o.unary

/-- After any number of entries the last one for an operator and two kinds is found. -/
theorem lookup_registerAll_binary (o : Operators) (gs : List Registration) (op : BinaryOp)
    (j k : Kind) : (o.registerAll gs).binary.lookup (op, j, k) =
      (gs.filterMap (·.binary? op j k)).getLast?.or (o.binary.lookup (op, j, k)) :=
  foldl_eq_getLast? (fun o => o.binary.lookup (op, j, k)) (lookup_register_binary op j k) o gs

theorem lookup_registerAll_unary (o : Operators) (gs : List Registration) (op : UnaryOp)
    (k : Kind) : (o.registerAll gs).unary.lookup (op, k) =
      (gs.filterMap (·.unary? op k)).getLast?.or (o.unary.lookup (op, k)) :=
  foldl_eq_getLast? (fun o => o.unary.lookup (op, k)) (lookup_register_unary op k) o gs

end Tables

section Standard

/-- What a binary operator of arithmetic computes with two numbers. -/
def numeric? : BinaryOp → Option (Float → Float → Float)
  | .add => some (· + ·)
  | .sub => some (· - ·)
  | .mul => some (· * ·)
  | .div => some (· / ·)
  | .mod => some Number.remainder
  | _ => none

/-- What the standard table has for a binary operator and two kinds. Numbers are computed with,
kinds that have an order are compared by it, and kinds that have none are compared by text. -/
def standardBinary? (op : BinaryOp) (j k : Kind) : Option BinaryHandler :=
  if op ∈ BinaryOp.comparisons then
    if (j, k) ∈ orderedPairs then some (comparison op)
    else if j = k ∧ k ∈ renderedKinds then
      if op = .eq then some sameText else if op = .ne then some otherText else none
    else none
  else if j = .number ∧ k = .number then (numeric? op).map arithmetic
  else none

/-- What the standard table has for a unary operator and a kind: numbers keep or change their
sign. -/
def standardUnary? (op : UnaryOp) (k : Kind) : Option UnaryHandler :=
  match op, k with
  | .plus, .number => some id
  | .neg, .number => some negation
  | _, _ => none

theorem kinds_of_arithmeticEntries {p : (BinaryOp × Kind × Kind) × BinaryHandler}
    (h : p ∈ arithmeticEntries) : p.1.2 = (.number, .number) := by
  simp only [arithmeticEntries, List.mem_cons, List.not_mem_nil, or_false] at h
  obtain rfl | rfl | rfl | rfl | rfl := h <;> rfl

theorem comparison_of_entries {p : (BinaryOp × Kind × Kind) × BinaryHandler}
    (h : p ∈ comparisonEntries ++ renderedEntries) : p.1.1 ∈ BinaryOp.comparisons := by
  rw [List.mem_append, comparisonEntries, renderedEntries, List.mem_flatMap, List.mem_flatMap] at h
  obtain ⟨_, _, hp⟩ | ⟨_, _, hp⟩ := h
  · obtain ⟨op, hop, rfl⟩ := List.mem_map.mp hp
    exact hop
  · simp only [List.mem_cons, List.not_mem_nil, or_false] at hp
    obtain rfl | rfl := hp <;> simp [BinaryOp.comparisons]

/-- The standard table has what it says and nothing else. -/
theorem lookup_standard_binary (op : BinaryOp) (j k : Kind) :
    standard.binary.lookup (op, j, k) = standardBinary? op j k := by
  unfold standardBinary?
  split
  case isTrue hop =>
    split
    case isTrue hordered => exact lookup_ordered hop hordered
    case isFalse hordered =>
      split
      case isTrue hrendered =>
        obtain ⟨rfl, hk⟩ := hrendered
        split
        case isTrue heq => rw [heq, lookup_eq_rendered hk]
        case isFalse heq =>
          split
          case isTrue hne => rw [hne, lookup_ne_rendered hk]
          case isFalse hne =>
            refine lookup_unordered hop hordered (.inl ?_)
            simpa [BinaryOp.comparisons, BinaryOp.inequalities, heq, hne] using hop
      case isFalse hrendered => exact lookup_unordered hop hordered (.inr hrendered)
  case isFalse hop =>
    split
    case isTrue hnumbers =>
      obtain ⟨rfl, rfl⟩ := hnumbers
      cases op with
      | add | sub | mul | div | mod => rfl
      | shl | shr | bitAnd | bitXor | bitOr | and | or => rfl
      | lt | le | gt | ge | eq | ne => exact absurd (by decide) hop
    case isFalse hnumbers =>
      rw [List.lookup_eq_none_iff]
      intro p hp
      rw [bne_iff_ne]
      rintro heq
      rw [standard, List.append_assoc, List.mem_append] at hp
      obtain hp | hp := hp
      · have hkinds := kinds_of_arithmeticEntries hp
        rw [← heq] at hkinds
        exact hnumbers (Prod.mk.inj hkinds)
      · have hcomparison := comparison_of_entries hp
        rw [← heq] at hcomparison
        exact hop hcomparison

theorem lookup_standard_unary (op : UnaryOp) (k : Kind) :
    standard.unary.lookup (op, k) = standardUnary? op k := by
  cases op <;> cases k <;> rfl

end Standard

section Dispatch

theorem applyUnary_of_lookup (o : Operators) {op : UnaryOp} (hnot : op ≠ .not) (v : Value) :
    o.applyUnary op v = match o.unary.lookup (op, v.kind) with
      | some handler => .ok (handler v)
      | none => .ok .undefined := by
  cases op with
  | not => exact absurd rfl hnot
  | _ => rfl

/-- Where the table has no entry, `!=` comes out true and the other comparisons false. -/
theorem fallback_eq (op : BinaryOp) :
    fallback op = if op ∈ BinaryOp.comparisons then .boolean (op = .ne) else .undefined := by
  cases op <;> rfl

/-- What a binary operator does after any number of entries. -/
theorem applyBinary_registerAll (gs : List Registration) {op : BinaryOp} (hand : op ≠ .and)
    (hor : op ≠ .or) (l r : Value) :
    (standard.registerAll gs).applyBinary op l r =
      .ok (((gs.filterMap (·.binary? op l.kind r.kind)).getLast?.or
        (standardBinary? op l.kind r.kind)).elim
          (if op ∈ BinaryOp.comparisons then .boolean (op = .ne) else .undefined)
          fun h => h l r) := by
  rw [applyBinary_of_lookup _ hand hor, lookup_registerAll_binary, lookup_standard_binary,
    fallback_eq]
  split
  case h_1 h hfound => rw [hfound, Option.elim_some]
  case h_2 hnone => rw [hnone, Option.elim_none]

/-- What a unary operator does after any number of entries. -/
theorem applyUnary_registerAll (gs : List Registration) {op : UnaryOp} (hnot : op ≠ .not)
    (v : Value) :
    (standard.registerAll gs).applyUnary op v =
      .ok (((gs.filterMap (·.unary? op v.kind)).getLast?.or (standardUnary? op v.kind)).elim
        .undefined fun h => h v) := by
  rw [applyUnary_of_lookup _ hnot, lookup_registerAll_unary, lookup_standard_unary]
  split
  case h_1 h hfound => rw [hfound, Option.elim_some]
  case h_2 hnone => rw [hnone, Option.elim_none]

end Dispatch

/-- The value of the last entry for something is what it has. -/
theorem getLast?_filterMap_of_last {α β : Type} {new : α → Option β} {before after : List α} {a : α}
    {b : β} (ha : new a = some b) (hafter : ∀ i ∈ after, new i = none) :
    ((before ++ a :: after).filterMap new).getLast? = some b := by
  rw [List.filterMap_append, List.filterMap_cons_some ha, List.filterMap_eq_nil_iff.mpr hafter,
    List.getLast?_concat]

/-- The logical operators of a table ask whether their operands count as true, the right one also
where the left one decides. A range has no answer, and the leftmost one is blamed. -/
structure Logical (o : Operators) : Prop where
  both : ∀ l r : Value, l.kind ≠ .range → r.kind ≠ .range → ∃ a b, l.truthy = .ok a ∧
    r.truthy = .ok b ∧ o.applyBinary .and l r = .ok (.boolean (a && b)) ∧
    o.applyBinary .or l r = .ok (.boolean (a || b))
  left_range : ∀ l r : Value, l.kind = .range →
    o.applyBinary .and l r = .error ⟨.coercion l.kind .boolean, none⟩ ∧
    o.applyBinary .or l r = .error ⟨.coercion l.kind .boolean, none⟩
  right_range : ∀ l r : Value, l.kind ≠ .range → r.kind = .range →
    o.applyBinary .and l r = .error ⟨.coercion r.kind .boolean, none⟩ ∧
    o.applyBinary .or l r = .error ⟨.coercion r.kind .boolean, none⟩
  not : ∀ v : Value, v.kind ≠ .range →
    ∃ a, v.truthy = .ok a ∧ o.applyUnary .not v = .ok (.boolean (!a))
  not_range : ∀ v : Value, v.kind = .range →
    o.applyUnary .not v = .error ⟨.coercion v.kind .boolean, none⟩

section Truth

variable {v : Value}

theorem truthy_of_range (h : v.kind = .range) :
    v.truthy = .error ⟨.coercion v.kind .boolean, none⟩ := by
  cases v with
  | range => rfl
  | _ => cases h

theorem truthy_of_not_range (h : v.kind ≠ .range) : ∃ a, v.truthy = .ok a := by
  cases v with
  | range => exact absurd rfl h
  | _ => exact ⟨_, rfl⟩

/-- Whatever is in the table, the logical operators do the same. -/
theorem logical (o : Operators) : o.Logical where
  both l r hl hr := by
    obtain ⟨a, ha⟩ := truthy_of_not_range hl
    obtain ⟨b, hb⟩ := truthy_of_not_range hr
    refine ⟨a, b, ha, hb, ?_, ?_⟩
    · rw [applyBinary, ha, hb]
      rfl
    · rw [applyBinary, ha, hb]
      rfl
  left_range l r hl := by
    constructor
    · rw [applyBinary, truthy_of_range hl]
      rfl
    · rw [applyBinary, truthy_of_range hl]
      rfl
  right_range l r hl hr := by
    obtain ⟨a, ha⟩ := truthy_of_not_range hl
    constructor
    · rw [applyBinary, ha, truthy_of_range hr]
      rfl
    · rw [applyBinary, ha, truthy_of_range hr]
      rfl
  not v hv := by
    obtain ⟨a, ha⟩ := truthy_of_not_range hv
    refine ⟨a, ha, ?_⟩
    rw [applyUnary, ha]
    rfl
  not_range v hv := by
    rw [applyUnary, truthy_of_range hv]
    rfl

end Truth

/-- After any number of entries a binary operator that is not a logical one applies the handler of
the last entry for it and the kinds of its operands. If there is none, it does what the standard
table has for them, and if that has nothing either, `!=` comes out true, the other comparisons false
and everything else undefined. Entries for anything else make no difference. It is the same with
the unary operators, and the logical operators never look at any entry. -/
theorem registerAll_dispatch (gs : List Registration) :
    (∀ op l r, op ≠ .and → op ≠ .or →
      (∀ before h after, gs = before ++ .binary op l.kind r.kind h :: after →
        (∀ g ∈ after, g.binary? op l.kind r.kind = none) →
        (standard.registerAll gs).applyBinary op l r = .ok (h l r)) ∧
      ((∀ g ∈ gs, g.binary? op l.kind r.kind = none) →
        (standard.registerAll gs).applyBinary op l r =
          .ok ((standardBinary? op l.kind r.kind).elim
            (if op ∈ BinaryOp.comparisons then .boolean (op = .ne) else .undefined)
            fun h => h l r)) ∧
      ∀ gs' : List Registration, gs'.filterMap (·.binary? op l.kind r.kind) =
          gs.filterMap (·.binary? op l.kind r.kind) →
        (standard.registerAll gs').applyBinary op l r =
          (standard.registerAll gs).applyBinary op l r) ∧
    (∀ op v, op ≠ .not →
      (∀ before h after, gs = before ++ .unary op v.kind h :: after →
        (∀ g ∈ after, g.unary? op v.kind = none) →
        (standard.registerAll gs).applyUnary op v = .ok (h v)) ∧
      ((∀ g ∈ gs, g.unary? op v.kind = none) →
        (standard.registerAll gs).applyUnary op v =
          .ok ((standardUnary? op v.kind).elim .undefined fun h => h v)) ∧
      ∀ gs' : List Registration, gs'.filterMap (·.unary? op v.kind) =
          gs.filterMap (·.unary? op v.kind) →
        (standard.registerAll gs').applyUnary op v = (standard.registerAll gs).applyUnary op v) ∧
    (standard.registerAll gs).Logical := by
  refine ⟨fun op l r hand hor => ⟨?_, ?_, ?_⟩, fun op v hnot => ⟨?_, ?_, ?_⟩, logical _⟩
  · rintro before h after rfl hafter
    have hown : (Registration.binary op l.kind r.kind h).binary? op l.kind r.kind = some h :=
      if_pos rfl
    rw [applyBinary_registerAll _ hand hor, getLast?_filterMap_of_last hown hafter]
    rfl
  · intro hnone
    rw [applyBinary_registerAll _ hand hor, List.filterMap_eq_nil_iff.mpr hnone]
    rfl
  · intro gs' hsame
    rw [applyBinary_registerAll _ hand hor, applyBinary_registerAll _ hand hor, hsame]
  · rintro before h after rfl hafter
    have hown : (Registration.unary op v.kind h).unary? op v.kind = some h := if_pos rfl
    rw [applyUnary_registerAll _ hnot, getLast?_filterMap_of_last hown hafter]
    rfl
  · intro hnone
    rw [applyUnary_registerAll _ hnot, List.filterMap_eq_nil_iff.mpr hnone]
    rfl
  · intro gs' hsame
    rw [applyUnary_registerAll _ hnot, applyUnary_registerAll _ hnot, hsame]

/-- An entry for strings that is replaced, entries behind it for other kinds and operators, and one
for `&&` that nothing asks for. -/
theorem registerAll_dispatch_replaced :
    let left : BinaryHandler := fun l _ => l
    let pair : BinaryHandler := fun l r => .vector [l, r]
    let o := standard.registerAll [.binary .add .string .string left,
      .binary .add .string .string pair, .binary .add .string .number left,
      .unary .neg .string id, .binary .and .boolean .range left]
    o.applyBinary .add (.string "a") (.string "b") = .ok (.vector [.string "a", .string "b"]) ∧
      o.applyBinary .ne (.string "a") .undefined = .ok (.boolean true) ∧
      o.applyUnary .neg (.string "a") = .ok (.string "a") ∧
      o.applyBinary .and (.boolean false) (.range ⟨0, 1, 2, true⟩) =
        .error ⟨.coercion .range .boolean, none⟩ := by
  intro left pair o
  obtain ⟨hbinary, hunary, hlogical⟩ := registerAll_dispatch [.binary .add .string .string left,
    .binary .add .string .string pair, .binary .add .string .number left,
    .unary .neg .string id, .binary .and .boolean .range left]
  refine ⟨?_, ?_, ?_, ?_⟩
  · apply (hbinary .add (.string "a") (.string "b") nofun nofun).1 [_] pair [_, _, _] rfl
    simp [Registration.binary?, Value.kind]
  · apply (hbinary .ne (.string "a") .undefined nofun nofun).2.1
    simp [Registration.binary?]
  · apply (hunary .neg (.string "a") nofun).1 [_, _, _] id [_] rfl
    simp [Registration.unary?]
  · exact (hlogical.right_range (.boolean false) (.range ⟨0, 1, 2, true⟩) nofun rfl).1

end Operators

end SolidScript
