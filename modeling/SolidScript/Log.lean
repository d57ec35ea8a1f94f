namespace SolidScript

/-- How serious a log entry is. -/
inductive Level where
  | error
  | warning
  | info
deriving DecidableEq, Inhabited

/-- The name of a level. -/
def Level.label : Level → String
  | .error => "error"
  | .warning => "warning"
  | .info => "info"

/-- One entry of a log. -/
structure LogEntry where
  level : Level
  message : String
deriving DecidableEq, Inhabited

/-- The line that is printed for an entry. -/
def LogEntry.line (e : LogEntry) : String :=
  match e.level with
  | .error => "ERROR: " ++ e.message
  | .warning => "WARNING: " ++ e.message
  | .info => e.message

/-- Entries in the order in which they were made. -/
abbrev Log := List LogEntry

namespace Log

/-- The messages of one level. -/
def messages (log : Log) (level : Level) : List String :=
  (log.filter (·.level = level)).map LogEntry.message

/-- All printed lines. -/
def lines (log : Log) : List String := log.map LogEntry.line

end Log

end SolidScript
