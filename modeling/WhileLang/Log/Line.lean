/-!
# Log lines

A log line has a level, which tells how urgent it is, and a message. The levels in common use
have names; any other is named by its number.

* `Level`, `levelName`: levels and their names.
* `LogLine`: a level and a message; `LogLine.text` is the line in writing.
-/

namespace WhileLang

/-- How urgent a log line is; the greater the more urgent. -/
abbrev Level := Int

namespace Level

def debug : Level := 10
def info : Level := 20
def warning : Level := 30
def error : Level := 40
def critical : Level := 50

/-- The name of a level. -/
def name (l : Level) : String :=
  if l = debug then "DEBUG"
  else if l = info then "INFO"
  else if l = warning then "WARNING"
  else if l = error then "ERROR"
  else if l = critical then "CRITICAL"
  else if l = 0 then "NOTSET"
  else "Level " ++ toString l

end Level

/-- A line of a log. -/
structure LogLine where
  /-- How urgent the line is. -/
  level : Level
  /-- What it says. -/
  message : String
deriving DecidableEq, Repr

/-- The line in writing: the name of its level and its message. -/
def LogLine.text (l : LogLine) : String :=
  l.level.name ++ " " ++ l.message

end WhileLang
