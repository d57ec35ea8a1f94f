import SolidScript.Proofs.Compile.Words
import SolidScript.Proofs.Token.Places
import SolidScript.Script

namespace SolidScript

open Grammar

theorem Derivation.bind_eq_error {ε α β : Type} {x : Except ε α} {f : α → Except ε β} {e : ε}
    (h : x >>= f = .error e) : x = .error e ∨ ∃ a, x = .ok a ∧ f a = .error e := by
  cases x with
  | error _ => exact .inl (congrArg Except.error (Except.error.inj h))
  | ok a => exact .inr ⟨a, rfl, h⟩

theorem Derivation.statements_terminated_error {d : Derivation} {last : Token} {e : ParseError}
    (h : (Derivation.sequence [d, .terminator last]).statements = .error e) :
    d.statements = .error e := by
  cases hd : d.statements with
  | error _ =>
    rw [Derivation.statements, Derivation.statementsAll, hd] at h
    exact h
  | ok ss =>
    rw [Derivation.statements, Derivation.statementsAll, hd, Derivation.statementsAll,
      Derivation.statements, Derivation.statementsAll] at h
    cases h

mutual

/-- The only thing that can be wrong with a statement that is read is the target of an assignment,
and then its first token is blamed. -/
theorem Derivation.Written.blamed {us : List Token} {d : Derivation} {e : ParseError} :
    Derivation.Written us d → d.statements = .error e → ∃ t ∈ us, e = .invalidTarget t
  | .empty hlast, h => by
    rw [Derivation.statements, Derivation.statementsAll, Derivation.statements,
      Derivation.statementsAll] at h
    cases h
  | .compound hfirst hlast hitems, h => by
    rw [Derivation.statements, Derivation.statements] at h
    obtain hinner | ⟨_, _, hpure⟩ := Derivation.bind_eq_error h
    · obtain ⟨t, ht, rfl⟩ := hitems.blamed hinner
      exact ⟨t, by simp [ht], rfl⟩
    · cases hpure
  | .branch hword hfirst hcondition hlast hthen, h => by
    rw [Derivation.statements] at h
    obtain hinner | ⟨_, _, hpure⟩ := Derivation.bind_eq_error h
    · obtain ⟨t, ht, rfl⟩ := hthen.blamed hinner
      exact ⟨t, by simp [ht], rfl⟩
    · cases hpure
  | .branches hword hfirst hcondition hlast hthen hother helse, h => by
    rw [Derivation.statements_branch helse.ne_absent] at h
    obtain hsecond | ⟨_, _, hmore⟩ := Derivation.bind_eq_error h
    · obtain ⟨t, ht, rfl⟩ := helse.blamed hsecond
      exact ⟨t, by simp [ht], rfl⟩
    · obtain hinner | ⟨_, _, hpure⟩ := Derivation.bind_eq_error hmore
      · obtain ⟨t, ht, rfl⟩ := hthen.blamed hinner
        exact ⟨t, by simp [ht], rfl⟩
      · cases hpure
  | .moduleDef hword _ hfirst hparameters hlast hbody, h => by
    rw [Derivation.statements] at h
    obtain hinner | ⟨_, _, hpure⟩ := Derivation.bind_eq_error h
    · obtain ⟨t, ht, rfl⟩ := hbody.blamed hinner
      exact ⟨t, by simp [ht], rfl⟩
    · cases hpure
  | .functionDef hword _ hfirst hparameters hlast hequals hbody hstop, h => by
    have hbare := Derivation.statements_terminated_error h
    rw [Derivation.statements] at hbare
    cases hbare
  | .moduleCall _ hcall hlast, h => by
    have hbare := Derivation.statements_terminated_error h
    rw [Derivation.statements] at hbare
    cases hbare
  | @Derivation.Written.assignment _ _ _ _ _ target _ _ _ _ _, h => by
    have hbare := Derivation.statements_terminated_error h
    by_cases hname : ∃ name t, target = .identifier name t
    · obtain ⟨name, t, rfl⟩ := hname
      rw [Derivation.statements] at hbare
      cases hbare
    · rw [Derivation.statements_of_not_identifier (by simpa using hname)] at hbare
      exact ⟨_, List.mem_cons_self, (Except.error.inj hbare).symm⟩
  | .expression he _ hlast, h => by
    have hbare := Derivation.statements_terminated_error h
    rw [Derivation.statements] at hbare
    cases hbare

theorem InTurn.blamed {us : List Token} {ds : List Derivation} {e : ParseError} :
    InTurn Derivation.Written us ds → Derivation.statementsAll ds = .error e →
      ∃ t ∈ us, e = .invalidTarget t
  | .nil, h => by
    rw [Derivation.statementsAll] at h
    cases h
  | .cons item others, h => by
    rw [Derivation.statementsAll] at h
    obtain hfirst | ⟨_, _, hmore⟩ := Derivation.bind_eq_error h
    · obtain ⟨t, ht, rfl⟩ := item.blamed hfirst
      exact ⟨t, List.mem_append_left _ ht, rfl⟩
    · obtain hrest | ⟨_, _, hpure⟩ := Derivation.bind_eq_error hmore
      · obtain ⟨t, ht, rfl⟩ := others.blamed hrest
        exact ⟨t, List.mem_append_right _ ht, rfl⟩
      · cases hpure

end

/-- A token that is blamed is one of the tokens that were read. -/
theorem statementsOf_blamed {ts : List Token} {e : ParseError} {t : Token}
    (h : statementsOf ts = .error e) (ht : e.token? = some t) : t ∈ ts := by
  unfold statementsOf at h
  cases hread : program ts with
  | done statements rest =>
    obtain ⟨rfl, _, _⟩ := program_statements hread
    rw [parseTokens_of_done hread] at h
    change (Derivation.sequence _).statements = _ at h
    rw [Derivation.statements] at h
    obtain ⟨u, hu, rfl⟩ := (program_written hread).blamed h
    obtain rfl := Option.some.inj ht
    exact hu
  | stuck rest =>
    cases rest with
    | nil =>
      rw [parseTokens_of_ended hread] at h
      obtain rfl := Except.error.inj h
      cases ht
    | cons u rest =>
      rw [parseTokens_of_stuck hread] at h
      obtain rfl := Except.error.inj h
      obtain ⟨us, rfl, _⟩ := (program_predictsAt ts).stuck hread
      obtain rfl := Option.some.inj ht
      simp

theorem ParseError.span_of_token? {e : ParseError} {t : Token} (h : e.token? = some t) :
    e.span = t.span := by
  cases e with
  | unexpectedEnd offset => cases h
  | ambiguous n u | unexpectedToken u | invalidTarget u =>
    obtain rfl := Option.some.inj h
    rfl

/-- Where a parse error points is where the token to blame says that it stands. -/
theorem lineColumn_of_parseError {source : String} {e : ParseError} {t : Token}
    (h : compile source = .error (.parse e)) (ht : e.token? = some t) :
    (LineIndex.ofSource source).lineColumn e.span.start = (t.line, t.column) := by
  cases htokens : tokenize source with
  | error found =>
    simp only [compile, parse, derive, htokens] at h
    cases h
  | ok tokens =>
    rw [compile_of_tokenize htokens] at h
    cases hstatements : statementsOf (Token.significant tokens) with
    | ok statements =>
      rw [hstatements] at h
      cases h
    | error found =>
      rw [hstatements] at h
      obtain rfl : found = e := CompileError.parse.inj (Except.error.inj h)
      have hmem := statementsOf_blamed hstatements ht
      rw [ParseError.span_of_token? ht]
      exact lineColumn_of_token htokens (List.mem_filter.mp hmem).1

theorem lineColumn_of_compileError_lex {source : String} {e : LexError}
    (h : compile source = .error (.lex e)) :
    (LineIndex.ofSource source).lineColumn e.span.start = (e.place.line, e.place.column) := by
  cases htokens : tokenize source with
  | error found =>
    simp only [compile, parse, derive, htokens] at h
    obtain rfl : found = e := CompileError.lex.inj (Except.error.inj h)
    exact lineColumn_of_lexError htokens
  | ok tokens =>
    rw [compile_of_tokenize htokens] at h
    cases hstatements : statementsOf (Token.significant tokens) <;> rw [hstatements] at h <;>
      cases h

namespace CompileError

/-- The message names the line and the column: at its end for a lexical error, near its beginning
for an error about a token. -/
def Names (e : CompileError) (line column : Nat) : Prop :=
  match e with
  | .lex _ => ∃ front, e.message = front ++ "line " ++ line.repr ++ " col " ++ column.repr
  | .parse _ => ∃ back,
    e.message = "invalid syntax at line " ++ line.repr ++ " col " ++ column.repr ++ ": " ++ back

/-- The errors that are about a place within the text: all but an early end and a statement that
could be read in more than one way. -/
def Placed : CompileError → Prop
  | .lex _ => True
  | .parse (.unexpectedToken _) => True
  | .parse (.invalidTarget _) => True
  | .parse (.unexpectedEnd _) => False
  | .parse (.ambiguous _ _) => False

instance : DecidablePred Placed
  | .lex _ => .isTrue trivial
  | .parse (.unexpectedToken _) => .isTrue trivial
  | .parse (.invalidTarget _) => .isTrue trivial
  | .parse (.unexpectedEnd _) => .isFalse id
  | .parse (.ambiguous _ _) => .isFalse id

theorem unterminated_eq (e : LexError) (what : String) :
    LexError.message.unterminated e what = "unterminated " ++ what ++ " starting at " ++
      "line " ++ e.place.line.repr ++ " col " ++ e.place.column.repr := by
  have hwords : " starting at line " = " starting at " ++ "line " := by decide
  have hunfold : LexError.message.unterminated e what = "unterminated " ++ what ++
      " starting at line " ++ e.place.line.repr ++ " col " ++ e.place.column.repr := rfl
  rw [hunfold, hwords]
  simp only [String.append_assoc]

theorem names_lex (e : LexError) : Names (.lex e) e.place.line e.place.column := by
  obtain ⟨fault, place⟩ := e
  cases fault with
  | unexpectedCharacter found =>
    have hwords : "' at line " = "' at " ++ "line " := by decide
    refine ⟨"unexpected character '" ++ found.toString ++ "' at ", ?_⟩
    simp only [message, LexError.message, hwords, String.append_assoc]
  | unterminatedString => exact ⟨_, unterminated_eq ⟨_, place⟩ "string"⟩
  | unterminatedComment => exact ⟨_, unterminated_eq ⟨_, place⟩ "block comment"⟩

theorem atToken_eq (t : Token) :
    ParseError.message.atToken t =
      "invalid syntax at line " ++ t.line.repr ++ " col " ++ t.column.repr ++ ": " := rfl

theorem names_unexpectedToken (t : Token) :
    Names (.parse (.unexpectedToken t)) t.line t.column := by
  refine ⟨"unexpected '" ++ t.text ++ "'", ?_⟩
  simp only [message, ParseError.message, atToken_eq, String.append_assoc]

theorem names_invalidTarget (t : Token) : Names (.parse (.invalidTarget t)) t.line t.column := by
  refine ⟨"cannot assign to '" ++ t.text ++ "'", ?_⟩
  simp only [message, ParseError.message, atToken_eq, String.append_assoc]

/-- What the message names is where the error is. -/
theorem Placed.names {source : String} {e : CompileError} (hplaced : e.Placed)
    (h : compile source = .error e) :
    ∃ line column, e.Names line column ∧
      (LineIndex.ofSource source).lineColumn e.span.start = (line, column) := by
  match e, hplaced with
  | .lex e, _ => exact ⟨_, _, names_lex e, lineColumn_of_compileError_lex h⟩
  | .parse (.unexpectedToken t), _ =>
    exact ⟨_, _, names_unexpectedToken t, lineColumn_of_parseError h rfl⟩
  | .parse (.invalidTarget t), _ =>
    exact ⟨_, _, names_invalidTarget t, lineColumn_of_parseError h rfl⟩

end CompileError

/-- A diagnostic begins with its message, and on the second line stands where it is. -/
theorem Diagnostic.render_eq (d : Diagnostic) (source : String) :
    ∃ rest, d.render source = "error: " ++ d.message ++ "\n" ++
      (d.header (Extent.ofSpan (LineIndex.ofSource source) d.span) ++ "\n") ++ rest := by
  unfold Diagnostic.render
  simp only [List.cons_append, List.nil_append, List.map_cons, String.join_cons]
  exact ⟨_, (String.append_assoc ..).symm⟩

theorem Failure.diagnostic_compile (e : CompileError) (file : String) :
    ((Failure.compile e).diagnostic file).message = e.message ∧
      ((Failure.compile e).diagnostic file).span = e.span ∧
      ((Failure.compile e).diagnostic file).file = file := by
  match e with
  | .lex _ => exact ⟨rfl, rfl, rfl⟩
  | .parse (.unexpectedEnd _) => exact ⟨rfl, rfl, rfl⟩
  | .parse (.ambiguous _ _) => exact ⟨rfl, rfl, rfl⟩
  | .parse (.unexpectedToken _) => exact ⟨rfl, rfl, rfl⟩
  | .parse (.invalidTarget _) => exact ⟨rfl, rfl, rfl⟩

/-- The two ways of counting lines and columns agree: looking up the offset of a token, or of a
lexical error, in the lines of the text gives the line and the column that it carries. Therefore the
message of a placed error and the header above the snippet name the same line and column. -/
theorem places_agree (source : String) :
    (∀ tokens, tokenize source = .ok tokens → ∀ t ∈ tokens,
        (LineIndex.ofSource source).lineColumn t.offset = (t.line, t.column)) ∧
      (∀ e, tokenize source = .error e →
        (LineIndex.ofSource source).lineColumn e.span.start = (e.place.line, e.place.column)) ∧
      ∀ (e : CompileError) (file : String), compile source = .error e → e.Placed →
        ∃ line column rest, e.Names line column ∧
          ((Failure.compile e).diagnostic file).render source =
            "error: " ++ e.message ++ "\n" ++
              ("  --> " ++ file ++ ":" ++ line.repr ++ ":" ++ column.repr ++ "\n") ++ rest := by
  refine ⟨fun tokens h t ht => lineColumn_of_token h ht, fun e h => lineColumn_of_lexError h, ?_⟩
  intro e file h hplaced
  obtain ⟨line, column, hnames, hplace⟩ := hplaced.names h
  obtain ⟨hmessage, hspan, hfile⟩ := Failure.diagnostic_compile e file
  obtain ⟨rest, hrender⟩ := ((Failure.compile e).diagnostic file).render_eq source
  refine ⟨line, column, rest, hnames, ?_⟩
  rw [hrender, hmessage, Diagnostic.header, Extent.ofSpan, hspan, hplace, hfile]

/-- A string over two lines with a character of two bytes is assigned to, behind a line break of two
characters; and a character that begins no lexeme stands behind another such string. -/
theorem places_agree_two_lines :
    (∃ e line column rest, compile "x=1;\r\n\"é\r\n\"= 2;" = .error e ∧ e.span = ⟨6, 12⟩ ∧
        e.Placed ∧ e.Names line column ∧
        ((Failure.compile e).diagnostic "f").render "x=1;\r\n\"é\r\n\"= 2;" =
          "error: " ++ e.message ++ "\n" ++
            ("  --> " ++ "f" ++ ":" ++ line.repr ++ ":" ++ column.repr ++ "\n") ++ rest) ∧
      ∃ e, tokenize "\r\n\"é\" @" = .error e ∧
        (LineIndex.ofSource "\r\n\"é\" @").lineColumn e.span.start = (2, 5) := by
  obtain ⟨_, _, hheader⟩ := places_agree "x=1;\r\n\"é\r\n\"= 2;"
  obtain ⟨_, hlex, _⟩ := places_agree "\r\n\"é\" @"
  have hfails : (((compile "x=1;\r\n\"é\r\n\"= 2;").map fun _ => false).tryCatch fun e =>
      .ok (decide (e.span = ⟨6, 12⟩ ∧ e.Placed))).toOption = some true := by decide +kernel
  refine ⟨?_, _, rfl, hlex _ rfl⟩
  cases h : compile "x=1;\r\n\"é\r\n\"= 2;" with
  | error e =>
    rw [h] at hfails
    obtain ⟨hspan, hplaced⟩ := of_decide_eq_true (Option.some.inj hfails)
    obtain ⟨line, column, rest, hnames, hrender⟩ := hheader e "f" h hplaced
    exact ⟨e, line, column, rest, rfl, hspan, hplaced, hnames, hrender⟩
  | ok program =>
    rw [h] at hfails
    cases hfails

end SolidScript
