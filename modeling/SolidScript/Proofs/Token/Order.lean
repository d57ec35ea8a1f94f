import SolidScript.Proofs.Token
import SolidScript.Proofs.Token.Tiling

namespace SolidScript

namespace Span

/-- The span covers something and lies between the two offsets. -/
structure Between (lo : Nat) (span : Span) (hi : Nat) : Prop where
  start : lo ≤ span.start
  proper : span.start < span.stop
  stop : span.stop ≤ hi

/-- The spans stand in order between the two offsets, and each of them covers something. -/
def InOrder : Nat → List Span → Nat → Prop
  | lo, [], hi => lo ≤ hi
  | lo, a :: as, hi => lo ≤ a.start ∧ a.start < a.stop ∧ InOrder a.stop as hi

variable {a b : Span} {as bs : List Span} {lo lo' mid hi hi' : Nat}

namespace Between

theorem mono (hlo : lo' ≤ lo) (hhi : hi ≤ hi') (h : a.Between lo hi) : a.Between lo' hi' :=
  ⟨Nat.le_trans hlo h.start, h.proper, Nat.le_trans h.stop hhi⟩

theorem lt_stop (h : a.Between lo hi) : lo < a.stop := Nat.lt_of_le_of_lt h.start h.proper

/-- From the start of one span to the end of another one behind it. -/
theorem join (ha : a.Between lo mid) (hb : b.Between mid hi) :
    Between lo ⟨a.start, b.stop⟩ hi := by
  refine ⟨ha.start, ?_, hb.stop⟩
  calc a.start
    _ < a.stop := ha.proper
    _ ≤ mid := ha.stop
    _ < b.stop := hb.lt_stop

/-- The smallest span that covers two spans one behind the other. -/
theorem merge_eq (ha : a.Between lo mid) (hb : b.Between mid hi) :
    a.merge b = ⟨a.start, b.stop⟩ := by
  have hbefore : a.stop ≤ b.start := Nat.le_trans ha.stop hb.start
  have hfirst := ha.proper
  have hsecond := hb.proper
  rw [Span.merge, Nat.min_eq_left (by omega), Nat.max_eq_right (by omega)]

end Between

theorem inOrder_cons :
    InOrder lo (a :: as) hi ↔ lo ≤ a.start ∧ a.start < a.stop ∧ InOrder a.stop as hi := Iff.rfl

namespace InOrder

theorem le (h : InOrder lo as hi) : lo ≤ hi := by
  induction as generalizing lo with
  | nil => exact h
  | cons a as ih =>
    obtain ⟨hstart, hproper, hrest⟩ := h
    have hstop := ih hrest
    omega

theorem mono (hlo : lo' ≤ lo) (hhi : hi ≤ hi') (h : InOrder lo as hi) : InOrder lo' as hi' := by
  induction as generalizing lo lo' with
  | nil => exact Nat.le_trans hlo (Nat.le_trans h hhi)
  | cons a as ih =>
    obtain ⟨hstart, hproper, hrest⟩ := h
    exact ⟨Nat.le_trans hlo hstart, hproper, ih (Nat.le_refl _) hrest⟩

theorem sublist (hbs : bs.Sublist as) (h : InOrder lo as hi) : InOrder lo bs hi := by
  induction hbs generalizing lo with
  | slnil => exact h
  | cons a _ ih =>
    obtain ⟨hstart, hproper, hrest⟩ := h
    exact (ih hrest).mono (Nat.le_trans hstart (Nat.le_of_lt hproper)) (Nat.le_refl hi)
  | cons_cons a _ ih =>
    obtain ⟨hstart, hproper, hrest⟩ := h
    exact ⟨hstart, hproper, ih hrest⟩

theorem mem (h : InOrder lo as hi) (ha : a ∈ as) : a.Between lo hi := by
  obtain ⟨hstart, hproper, hstop⟩ := h.sublist (List.singleton_sublist.mpr ha)
  exact ⟨hstart, hproper, hstop⟩

theorem pairwise (h : InOrder lo as hi) : as.Pairwise fun a b => a.stop ≤ b.start := by
  induction as generalizing lo with
  | nil => exact .nil
  | cons a as ih =>
    obtain ⟨_, _, hrest⟩ := h
    exact .cons (fun b hb => (hrest.mem hb).start) (ih hrest)

/-- Spans in order may as well begin with the first of them. -/
theorem from_first (h : InOrder lo as hi) (ha : as.head? = some a) (hstart : lo' ≤ a.start) :
    InOrder lo' as hi := by
  cases as with
  | nil => cases ha
  | cons b as =>
    obtain rfl := Option.some.inj ha
    exact ⟨hstart, h.2⟩

end InOrder

theorem inOrder_append :
    InOrder lo (as ++ bs) hi ↔ ∃ mid, InOrder lo as mid ∧ InOrder mid bs hi := by
  induction as generalizing lo with
  | nil =>
    refine ⟨fun h => ⟨lo, Nat.le_refl lo, h⟩, fun ⟨mid, hmid, h⟩ => ?_⟩
    exact h.mono hmid (Nat.le_refl hi)
  | cons a as ih =>
    rw [List.cons_append, inOrder_cons, ih]
    constructor
    · rintro ⟨hstart, hproper, mid, has, hbs⟩
      exact ⟨mid, ⟨hstart, hproper, has⟩, hbs⟩
    · rintro ⟨mid, ⟨hstart, hproper, has⟩, hbs⟩
      exact ⟨hstart, hproper, mid, has, hbs⟩

/-- Spans in order may as well end with the last of them. -/
theorem InOrder.to_last (h : InOrder lo as hi) (ha : as.getLast? = some a) (hstop : a.stop ≤ hi') :
    InOrder lo as hi' := by
  obtain ⟨before, rfl⟩ := List.getLast?_eq_some_iff.mp ha
  obtain ⟨mid, hbefore, hstart, hproper, _⟩ := inOrder_append.mp h
  exact inOrder_append.mpr ⟨mid, hbefore, hstart, hproper, hstop⟩

end Span

namespace Token

/-- The tokens stand in order between the two offsets. -/
def Between (lo : Nat) (ts : List Token) (hi : Nat) : Prop := Span.InOrder lo (ts.map span) hi

variable {lo hi : Nat} {t first last : Token} {ts us vs : List Token}

theorem between_cons :
    Between lo (t :: ts) hi ↔ lo ≤ t.offset ∧ t.offset < t.stop ∧ Between t.stop ts hi := Iff.rfl

theorem between_append :
    Between lo (us ++ vs) hi ↔ ∃ mid, Between lo us mid ∧ Between mid vs hi := by
  rw [Between, List.map_append, Span.inOrder_append]
  rfl

theorem Between.le (h : Between lo us hi) : lo ≤ hi := Span.InOrder.le h

theorem Between.sublist (hvs : vs.Sublist us) (h : Between lo us hi) : Between lo vs hi :=
  Span.InOrder.sublist (hvs.map span) h

section Ends

variable (h : Between lo us hi) (hfirst : us.head? = some first) (hlast : us.getLast? = some last)

include h hfirst hlast

/-- Tokens stand between the first and the last of them. -/
theorem Between.ends : Between first.offset us last.stop := by
  have hlate : Between first.offset us hi :=
    Span.InOrder.from_first h (by rw [List.head?_map, hfirst]; rfl) (Nat.le_refl first.offset)
  exact hlate.to_last (by rw [List.getLast?_map, hlast]; rfl) (Nat.le_refl last.stop)

theorem Between.covers : Span.Between lo ⟨first.offset, last.stop⟩ hi := by
  have hstart := Span.InOrder.mem h (List.mem_map_of_mem (List.mem_of_head? hfirst))
  have hstop := Span.InOrder.mem h (List.mem_map_of_mem (List.mem_of_getLast? hlast))
  have hproper := Span.InOrder.mem (h.ends hfirst hlast)
    (List.mem_map_of_mem (List.mem_of_getLast? hlast))
  exact ⟨hstart.start, hproper.lt_stop, hstop.stop⟩

end Ends

theorem Between.tight (h : Between lo us hi) (hus : us ≠ []) :
    Between (spanOf us).start us (spanOf us).stop := by
  obtain ⟨first, last, hfirst, hlast, heq⟩ := spanOf_eq hus
  rw [heq]
  exact h.ends hfirst hlast

/-- Tokens that are there cover something. -/
theorem Between.spanOf (h : Between lo us hi) (hus : us ≠ []) : (spanOf us).Between lo hi := by
  obtain ⟨first, last, hfirst, hlast, heq⟩ := spanOf_eq hus
  rw [heq]
  exact h.covers hfirst hlast

theorem Adjacent.between (h : Adjacent lo ts hi) (hproper : ∀ t ∈ ts, t.offset < t.stop) :
    Between lo ts hi := by
  induction ts generalizing lo with
  | nil => exact Nat.le_of_eq h
  | cons t ts ih =>
    obtain ⟨hstart, hrest⟩ := h
    obtain ⟨hfirst, hothers⟩ := List.forall_mem_cons.mp hproper
    exact ⟨Nat.le_of_eq hstart.symm, hfirst, ih hrest hothers⟩

end Token

theorem Tiling.between {text : String} {tokens : List Token} (h : Tiling text tokens) :
    Token.Between 0 tokens text.utf8ByteSize := by
  refine h.adjacent.between fun t ht => ?_
  have hpos : t.text.utf8ByteSize ≠ 0 := fun hzero =>
    h.nonempty t ht (String.utf8ByteSize_eq_zero_iff.mp hzero)
  rw [Token.stop, h.length t ht]
  omega

/-- The significant tokens of a text stand in order in it. -/
theorem significant_between {source : String} {tokens : List Token}
    (h : tokenize source = .ok tokens) :
    Token.Between 0 (Token.significant tokens) source.utf8ByteSize :=
  (Tiling.of_tokenize h).between.sublist List.filter_sublist

end SolidScript
