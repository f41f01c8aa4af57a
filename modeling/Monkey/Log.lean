/-!
# The log

What the program tells about its own work, apart from its output.
-/

namespace Monkey

/-- How much an entry matters. -/
inductive LogLevel where
  | debug
  | warning
deriving DecidableEq

/-- The name of a level. -/
def LogLevel.name : LogLevel → String
  | .debug => "DEBUG"
  | .warning => "WARNING"

/-- An entry of the log: its level, the part of the program it comes from, and the message. -/
structure LogEntry where
  level : LogLevel
  source : String
  message : String

/-- An entry as a line of text. -/
def LogEntry.line (e : LogEntry) : String :=
  e.level.name ++ " " ++ e.source ++ ": " ++ e.message ++ "\n"

end Monkey
