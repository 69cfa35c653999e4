import WhileLang.Log.Files
import WhileLang.Log.Format

/-!
# Loggers

Loggers are named, and the parts of a name between dots make them a forest. A logger passes on
what is at least as urgent as its level, if it is urgent at all; one without a level of its own
takes that of the nearest logger above it that has one, or else that of warnings. What is passed
on goes to the logger's own handlers and no further.

A trace handler writes one line for each record to a file. Only trace handlers are ever replaced
or closed; handlers that others have added stay.

* `Logger`, `Handler`: a logger and where its records go.
* `Journal`: all loggers and files; `JournalError`: what may go wrong with them.
* `Journal.configure`: lets a logger write a fresh trace file.
* `Journal.close`, `Journal.addForeign`, `Journal.log`, `Journal.run`: for loggers that have been
  configured.
-/

namespace WhileLang

/-- Where the records of a logger go. -/
inductive Handler where
  /-- Into a file, from a position on. -/
  | trace (file : Place) (offset : Nat) (format : LineFormat)
  /-- To someone else. -/
  | foreign
deriving DecidableEq, Repr

/-- Whether a handler writes a trace. -/
def Handler.isTrace : Handler → Bool
  | trace .. => true
  | foreign => false

/-- A logger. -/
structure Logger where
  /-- Its level; zero is none of its own. -/
  level : Level := 0
  /-- Its handlers, in the order in which they were added. -/
  handlers : List Handler := []
deriving DecidableEq, Repr

/-- All loggers that were ever changed, and all files. -/
structure Journal where
  /-- The loggers by name. -/
  loggers : List (String × Logger) := []
  /-- The names of the loggers that have been configured. -/
  configured : List String := []
  /-- The files. -/
  files : Files := {}
deriving DecidableEq, Repr

/-- What may go wrong. -/
inductive JournalError where
  /-- The text does not look like a line format. -/
  | notFormat (text : String)
  /-- A path holds a character that no path can. -/
  | nullInPath
  /-- No logger of that name has been configured. -/
  | noLogger (name : String)
deriving DecidableEq, Repr

/-- The wording of the error. -/
def JournalError.message : JournalError → String
  | notFormat text => "Invalid format '" ++ text ++ "' for '%' style"
  | nullInPath => "embedded null byte"
  | noLogger name => Text.quote name

/-- A name and the names above it, from the lowest up. -/
def ancestry (name : String) : List String :=
  let parts := name.splitOn "."
  (List.range parts.length).map fun k => ".".intercalate (parts.take (parts.length - k))

namespace Journal

/-- A logger by name. -/
def logger (j : Journal) (name : String) : Logger :=
  (j.loggers.lookup name).getD {}

/-- Changes a logger. -/
def setLogger (j : Journal) (name : String) (l : Logger) : Journal :=
  { j with loggers := (name, l) :: j.loggers.filter (·.1 ≠ name) }

/-- The level that counts for a logger. -/
def effectiveLevel (j : Journal) (name : String) : Level :=
  (((ancestry name).map fun n => (j.logger n).level).find? (· ≠ 0)).getD .warning

/-- Whether a logger passes on records of a level. -/
def isEnabled (j : Journal) (name : String) (level : Level) : Bool :=
  0 < level && j.effectiveLevel name ≤ level

/-- Refuses names of loggers that have not been configured. -/
def require (j : Journal) (name : String) : Except JournalError Unit :=
  if name ∈ j.configured then .ok () else .error (.noLogger name)

/-- The logger without its trace handlers. -/
def withoutTrace (l : Logger) : Logger :=
  { l with handlers := l.handlers.filter fun h => !h.isTrace }

/-- Detaches the trace handlers of a logger. -/
def close (j : Journal) (name : String) : Except JournalError Journal := do
  j.require name
  return j.setLogger name (withoutTrace (j.logger name))

/-- Lets a logger write a fresh trace file in place of an earlier one, as a format says or else
as a trace. If the file's name is at fault, the logger has its level already and its old file no
longer. -/
def configure (j : Journal) (name path : String) (level : Level) (format : Option String) :
    Journal × Except JournalError Unit :=
  match format.map fun s => (s, LineFormat.read? s) with
  | some (s, none) => (j, .error (.notFormat s))
  | read =>
    let format := (read.bind (·.2)).getD .trace
    let names := pathNames path
    if names.dropLast.any (·.contains (Char.ofNat 0)) then (j, .error .nullInPath) else
      let (files, file) := j.files.makeParents path
      let l := { withoutTrace (j.logger name) with level }
      if path.contains (Char.ofNat 0) then
        ({ j with files }.setLogger name l, .error .nullInPath)
      else
        let l := { l with handlers := l.handlers ++ [.trace file 0 format] }
        ({ j with
            files := files.truncate file
            configured := name :: j.configured }.setLogger name l, .ok ())

/-- Adds a handler of someone else, which writes nothing here. -/
def addForeign (j : Journal) (name : String) : Except JournalError Journal := do
  j.require name
  let l := j.logger name
  return j.setLogger name { l with handlers := l.handlers ++ [.foreign] }

/-- Hands a record to handlers one after the other. -/
def handle (level : Level) (r : LogRecord) : List Handler → Files → List Handler × Files
  | [], files => ([], files)
  | .foreign :: rest, files =>
    let (rest, files) := handle level r rest files
    (.foreign :: rest, files)
  | .trace file offset format :: rest, files =>
    let (files, offset) := match format.line? level r with
      | some line => files.writeAt file offset (line ++ "\n")
      | none => (files, offset)
    let (rest, files) := handle level r rest files
    (.trace file offset format :: rest, files)

/-- Hands a record to the handlers of a logger, if the logger passes it on. -/
def deliver (j : Journal) (name : String) (level : Level) (r : LogRecord) : Journal :=
  if j.isEnabled name level then
    let l := j.logger name
    let (handlers, files) := handle level r l.handlers j.files
    { j with files }.setLogger name { l with handlers }
  else j

/-- Logs a record. -/
def log (j : Journal) (name : String) (level : Level) (r : LogRecord) :
    Except JournalError Journal := do
  j.require name
  return j.deliver name level r

/-- Runs a machine that reports to a logger. -/
def run (j : Journal) (name : String) (m : Machine) (patience : Nat) :
    Except JournalError (Journal × Outcome × State) := do
  j.require name
  let records := m.records patience {}
  return (records.foldl (fun j r => j.deliver name .debug r) j, m.run patience {})

end Journal

end WhileLang
