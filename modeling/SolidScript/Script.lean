import SolidScript.Compile
import SolidScript.Diagnostic
import SolidScript.Machine.Runner

namespace SolidScript

/-- Why a run ends early. -/
inductive Failure where
  | compile (error : CompileError)
  | evaluation (error : EvalError)

namespace Failure

/-- The text shown to users. -/
def message : Failure → String
  | .compile e => e.message
  | .evaluation e => e.message

/-- The text with the part of the run that it comes from. -/
def display : Failure → String
  | .compile e => "parse error: " ++ e.message
  | .evaluation e => "runtime error: " ++ e.message

/-- The failure as a diagnostic for the given file. -/
def diagnostic (file : String) : Failure → Diagnostic
  | .compile e =>
    let d := Diagnostic.error .parse e.message e.span file
    match e with
    | .parse (.ambiguous derivations _) =>
      d.withNote (derivations.repr ++ " derivations matched this statement")
    | .parse (.invalidTarget _) => d.withHelp "only a plain identifier can be assigned to"
    | .parse (.unexpectedEnd _) => d.withSuggestion "Did you forget a ';'?"
    | _ => d
  | .evaluation e => Diagnostic.error .runtime e.message (e.span?.getD Span.origin) file

/-- The name under which a text is shown that comes from no file. -/
def unnamedFile : String := "<input>"

end Failure

/-- A script with its file's name and its settings. -/
structure Script where
  source : String
  file : String
  settings : Settings

/-- A part of a run that went well. -/
inductive Stage where
  | compiled (statements : List Stmt)
  /-- The statements were walked; so many calls wait. -/
  | interpreted (queued : Nat)
  /-- The calls were carried out; so many wait still. -/
  | performed (queued : Nat)

/-- What a run comes to: the parts that went well, each with the log up to there, the failure if
there was one, and the whole log. -/
structure Report where
  stages : List (Stage × Log)
  failure? : Option Failure
  log : Log

namespace Script

/-- Ends a run with a failure. -/
def fail (stages : List (Stage × Log)) (log : Log) (f : Failure) : Report :=
  ⟨stages, some f, log ++ [⟨.error, f.message⟩]⟩

/-- Runs a script; its contexts are numbered from `nextId` on. -/
def run (s : Script) (nextId : Nat := 0) : Report :=
  match compile s.source with
  | .error e => fail [] [] (.compile e)
  | .ok statements =>
    let compiled := [(Stage.compiled statements, [])]
    match (Machine.new s.settings nextId).run statements with
    | (m, .error e) => fail compiled m.log (.evaluation e)
    | (m, .ok ()) =>
      let interpreted := compiled ++ [(Stage.interpreted m.queue.length, m.log)]
      match m.runDeferred with
      | (m, .error e) => fail interpreted m.log (.evaluation e)
      | (m, .ok ()) => ⟨interpreted ++ [(Stage.performed m.queue.length, m.log)], none, m.log⟩

end Script

end SolidScript
