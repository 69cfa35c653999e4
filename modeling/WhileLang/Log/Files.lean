import WhileLang.Text.Utf8

/-!
# Files of a log

The files that loggers write to, in a tree of directories. A path leads from the working
directory through directories that must be there; two dots lead up, and single dots and doubled
slashes lead nowhere. A writer keeps the position in its file at which it goes on, so two writers
on one file write over each other.

* `Place`: where a path leads; `Files`: the directories and files that there are.
* `Files.makeParents`, `Files.truncate`, `Files.writeAt`, `Files.read?`.
-/

namespace WhileLang

/-- A place in the tree: the names that lead down to it from the working directory, after as many
double dots as lead out of it, or from the root, whose name is a slash. -/
abbrev Place := List String

/-- The names that a path goes through. -/
def pathNames (path : String) : List String :=
  let names := (path.splitOn "/").filter fun n => n ≠ "" && n ≠ "."
  if path.startsWith "/" then "/" :: names else names

namespace Place

/-- The place above. -/
def up (p : Place) : Place :=
  match p.getLast? with
  | none | some ".." => p ++ [".."]
  | some "/" => p
  | some _ => p.dropLast

/-- The place that a name leads to. -/
def step (p : Place) (name : String) : Place :=
  if name = ".." then p.up else p ++ [name]

end Place

/-- The directories that have been made, and the files with their bytes. -/
structure Files where
  /-- The directories. -/
  directories : List Place := []
  /-- The files. -/
  contents : List (Place × List UInt8) := []
deriving DecidableEq, Repr

/-- Writes bytes over a row of bytes from a position on; a gap in between holds zeros. -/
def overwrite (old : List UInt8) (offset : Nat) (new : List UInt8) : List UInt8 :=
  old.take offset ++ List.replicate (offset - old.length) 0 ++ new ++
    old.drop (offset + new.length)

/-- The text with every line end written as a line feed. -/
def unifyLineEnds : List Char → List Char
  | [] => []
  | '\r' :: '\n' :: cs => '\n' :: unifyLineEnds cs
  | '\r' :: cs => '\n' :: unifyLineEnds cs
  | c :: cs => c :: unifyLineEnds cs

namespace Files

/-- Whether there is a directory at a place. -/
def isDirectory (fs : Files) (p : Place) : Bool :=
  p.all (· == "..") || p == ["/"] || fs.directories.contains p

/-- Where names lead, if all of them lead to directories. -/
def walk? (fs : Files) : Place → List String → Option Place
  | p, [] => some p
  | p, name :: rest =>
    let next := p.step name
    if fs.isDirectory next then fs.walk? next rest else none

/-- Where names lead, after the directories that are missing have been made. -/
def walkMaking (fs : Files) : Place → List String → Files × Place
  | p, [] => (fs, p)
  | p, name :: rest =>
    let next := p.step name
    if fs.isDirectory next then fs.walkMaking next rest
    else { fs with directories := next :: fs.directories }.walkMaking next rest

/-- Makes the directories that a path goes through; also gives the place of its file. -/
def makeParents (fs : Files) (path : String) : Files × Place :=
  let names := pathNames path
  let (fs, directory) := fs.walkMaking [] names.dropLast
  (fs, directory.step (names.getLastD ".."))

/-- The bytes of a file; one that is not there has none. -/
def bytes (fs : Files) (p : Place) : List UInt8 :=
  (fs.contents.lookup p).getD []

/-- Gives a file new contents. -/
def store (fs : Files) (p : Place) (bytes : List UInt8) : Files :=
  { fs with contents := (p, bytes) :: fs.contents.filter (·.1 ≠ p) }

/-- Makes a file that is empty. -/
def truncate (fs : Files) (p : Place) : Files :=
  fs.store p []

/-- Writes a text into a file from a position on; also gives the position after it. -/
def writeAt (fs : Files) (p : Place) (offset : Nat) (text : String) : Files × Nat :=
  let new := text.toUTF8.toList
  (fs.store p (overwrite (fs.bytes p) offset new), offset + new.length)

/-- The bytes of the file that a path leads to, if there is one. -/
def find? (fs : Files) (path : String) : Option (List UInt8) := do
  let names := pathNames path
  let directory ← fs.walk? [] names.dropLast
  fs.contents.lookup (directory.step (names.getLastD ".."))

/-- The text of the file that a path leads to, if there is one. -/
def read? (fs : Files) (path : String) : Except Utf8.DecodeError (Option String) :=
  match fs.find? path with
  | none => .ok none
  | some bytes =>
    (Utf8.decode bytes).map fun text => some (String.ofList (unifyLineEnds text.toList))

end Files

end WhileLang
