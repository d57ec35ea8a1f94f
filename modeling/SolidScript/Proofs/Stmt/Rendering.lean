import SolidScript.Proofs.Expr.Rendering
import SolidScript.Stmt

namespace SolidScript

/-- A keyword as a lexeme. -/
def Lexeme.ofKeyword (word : String) : Lexeme := ⟨.keyword, word⟩

open Lexeme

/-- A parameter as lexemes. -/
def Parameter.render (p : Parameter) : List Lexeme :=
  match p.default? with
  | none => [ofName p.name]
  | some value => ofName p.name :: ofPunct "=" :: value.render

/-- Parts with commas between them. -/
def Lexeme.separated : List (List Lexeme) → List Lexeme
  | [] => []
  | [ls] => ls
  | ls :: lss => ls ++ ofPunct "," :: separated lss

theorem Expr.renderAll_eq (es : List Expr) :
    Expr.renderAll es = separated (es.map Expr.render) := by
  match es with
  | [] => rfl
  | [e] => rfl
  | e :: d :: es => rw [Expr.renderAll, Expr.renderAll_eq (d :: es)] <;> simp [separated]

theorem Argument.renderAll_eq (as : List Argument) :
    Argument.renderAll as = separated (as.map Argument.render) := by
  match as with
  | [] => rfl
  | [a] => rfl
  | a :: b :: as => rw [Argument.renderAll, Argument.renderAll_eq (b :: as)] <;> simp [separated]

mutual

/-- A statement as lexemes. -/
def Stmt.render : Stmt → List Lexeme
  | .assignment target _ value _ => ofName target :: ofPunct "=" :: (value.render ++ [ofPunct ";"])
  | .moduleCall name arguments _ =>
    ofName name :: ofPunct "(" :: (Argument.renderAll arguments ++ [ofPunct ")", ofPunct ";"])
  | .moduleDef name parameters body _ =>
    ofKeyword "module" :: ofName name :: ofPunct "(" ::
      (separated (parameters.map Parameter.render) ++ ofPunct ")" :: body.render)
  | .functionDef name parameters body _ =>
    ofKeyword "function" :: ofName name :: ofPunct "(" ::
      (separated (parameters.map Parameter.render) ++ ofPunct ")" :: ofPunct "=" ::
        (body.render ++ [ofPunct ";"]))
  | .branch condition thenBranch none _ =>
    ofKeyword "if" :: ofPunct "(" :: (condition.render ++ ofPunct ")" :: thenBranch.render)
  | .branch condition thenBranch (some elseBranch) _ =>
    ofKeyword "if" :: ofPunct "(" :: (condition.render ++ ofPunct ")" ::
      (thenBranch.render ++ ofKeyword "else" :: elseBranch.render))
  | .compound statements _ =>
    ofPunct "\x7b" :: (Stmt.renderAll statements ++ [ofPunct "\x7d"])
  | .expression expr _ => expr.render ++ [ofPunct ";"]

/-- Statements as lexemes, one after the other. -/
def Stmt.renderAll : List Stmt → List Lexeme
  | [] => []
  | s :: ss => s.render ++ Stmt.renderAll ss

end

/-- The default of the parameter, if it has one, is backed by its tokens. -/
def Parameter.Backed (p : Parameter) : Prop := ∀ value ∈ p.default?, value.Backed

mutual

/-- Every literal, name and target of the statement is what its token spells. -/
def Stmt.Backed : Stmt → Prop
  | .assignment target token value _ => (token.isName ∧ token.text = target) ∧ value.Backed
  | .moduleCall _ arguments _ => Argument.BackedAll arguments
  | .moduleDef _ parameters body _ => (∀ p ∈ parameters, p.Backed) ∧ body.Backed
  | .functionDef _ parameters body _ => (∀ p ∈ parameters, p.Backed) ∧ body.Backed
  | .branch condition thenBranch none _ => condition.Backed ∧ thenBranch.Backed
  | .branch condition thenBranch (some elseBranch) _ =>
    condition.Backed ∧ thenBranch.Backed ∧ elseBranch.Backed
  | .compound statements _ => Stmt.BackedAll statements
  | .expression expr _ => expr.Backed

/-- All of the statements are backed by their tokens. -/
def Stmt.BackedAll : List Stmt → Prop
  | [] => True
  | s :: ss => s.Backed ∧ Stmt.BackedAll ss

end

/-- The punctuation that groups and separates. -/
def grouping : List String := ["(", ")", "\x7b", "\x7d", ",", ";"]

/-- The texts of the lexemes but for the punctuation that groups and separates. -/
def Lexeme.words (ls : List Lexeme) : List String :=
  (ls.map Lexeme.text).filter fun text => text ∉ grouping

section Words

/-- A text, unless it is punctuation that groups or separates. -/
def word (text : String) : List String := if text ∈ grouping then [] else [text]

@[simp] theorem Lexeme.ofPunct_text (symbol : String) : (ofPunct symbol).text = symbol := rfl

@[simp] theorem Lexeme.ofName_text (name : String) : (ofName name).text = name := rfl

@[simp] theorem Lexeme.ofKeyword_text (word : String) : (ofKeyword word).text = word := rfl

@[simp] theorem Lexeme.words_nil : words [] = [] := rfl

@[simp] theorem Lexeme.words_append (ls ms : List Lexeme) :
    words (ls ++ ms) = words ls ++ words ms := by
  simp [words]

@[simp] theorem Lexeme.words_cons (l : Lexeme) (ls : List Lexeme) :
    words (l :: ls) = word l.text ++ words ls := by
  by_cases h : l.text ∈ grouping <;> simp [words, word, h]

@[simp] theorem Lexeme.words_enclose (limit rank : Nat) (ls : List Lexeme) :
    words (enclose limit rank ls) = words ls := by
  unfold enclose
  split
  · rfl
  · simp [word, grouping]

theorem Lexeme.words_separated_cons (ls : List Lexeme) (lss : List (List Lexeme)) :
    words (separated (ls :: lss)) = words ls ++ words (separated lss) := by
  cases lss with
  | nil => simp [separated]
  | cons ms lss => simp [separated, word, grouping]

theorem Stmt.words_renderAll_append (ss ts : List Stmt) :
    words (Stmt.renderAll (ss ++ ts)) = words (Stmt.renderAll ss) ++ words (Stmt.renderAll ts) := by
  induction ss with
  | nil => rfl
  | cons s ss ih => simp [Stmt.renderAll, ih]

/-- Braces around joined statements leave no word. -/
theorem Stmt.words_join (span : Span) (ss : List Stmt) :
    words (Stmt.join span ss).render = words (Stmt.renderAll ss) := by
  match ss with
  | [] => simp [Stmt.join, Stmt.render, word, grouping]
  | [s] => simp [Stmt.join, Stmt.renderAll]
  | s :: t :: ss => simp [Stmt.join, Stmt.render, word, grouping]

end Words

theorem Stmt.backedAll_append {ss ts : List Stmt} (hss : Stmt.BackedAll ss)
    (hts : Stmt.BackedAll ts) : Stmt.BackedAll (ss ++ ts) := by
  induction ss with
  | nil => exact hts
  | cons s ss ih =>
    rw [Stmt.BackedAll] at hss
    rw [List.cons_append, Stmt.BackedAll]
    exact ⟨hss.1, ih hss.2⟩

theorem Stmt.backed_join (span : Span) {ss : List Stmt} (h : Stmt.BackedAll ss) :
    (Stmt.join span ss).Backed := by
  match ss, h with
  | [], h => simp [Stmt.join, Stmt.Backed, Stmt.BackedAll]
  | [s], h =>
    rw [Stmt.BackedAll] at h
    exact h.1
  | s :: t :: ss, h =>
    rw [Stmt.join, Stmt.Backed]
    · exact h
    · exact nofun

end SolidScript
