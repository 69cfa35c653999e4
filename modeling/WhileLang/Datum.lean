import WhileLang.Number.Decimal
import WhileLang.Number.Numeral

/-!
# Open data

Options of a run and the measurements that passes leave behind have no fixed set of fields:
callers add names of their own. They are kept as data of these seven kinds.

* `Datum`: the kinds; `Record`: named data in the order in which the names were first put.
* `Datum.truthy`: whether a datum counts as true.
* `Datum.toInt`: the integer that a datum denotes; `Datum.asInt?`: the one that it is.
* `Datum.kindName`: the name of a datum's kind in messages.
* `Record.get?`, `Record.put`: look up and store by name.
-/

namespace WhileLang

/-- A piece of open data. -/
inductive Datum where
  | null
  | bool (b : Bool)
  | int (n : Int)
  | real (d : Decimal)
  | text (s : String)
  | list (items : List Datum)
  | record (fields : List (String × Datum))
deriving Repr, Inhabited

/-- Named data, in the order in which the names were first put. -/
abbrev Record := List (String × Datum)

namespace Record

/-- The datum stored under a name. -/
def get? (r : Record) (name : String) : Option Datum :=
  r.lookup name

/-- Stores a datum under a name: in the old place if the name is there, else at the end. -/
def put (r : Record) (name : String) (d : Datum) : Record :=
  match r with
  | [] => [(name, d)]
  | (n, old) :: rest => if n = name then (n, d) :: rest else (n, old) :: put rest name d

/-- Stores a datum under a name that is not there yet. -/
def putIfAbsent (r : Record) (name : String) (d : Datum) : Record :=
  if (r.get? name).isSome then r else r.put name d

end Record

namespace Datum

/-- Everything counts as true except nothing, false, zero and what is empty. -/
def truthy : Datum → Bool
  | null => false
  | bool b => b
  | int n => n != 0
  | real d => !d.isZero
  | text s => s != ""
  | list items => !items.isEmpty
  | record fields => !fields.isEmpty

/-- The name of a datum's kind. -/
def kindName : Datum → String
  | null => "NoneType"
  | bool _ => "bool"
  | int _ => "int"
  | real _ => "float"
  | text _ => "str"
  | list _ => "list"
  | record _ => "dict"

/-- The integer that a datum denotes: a truth value counts as one or zero, a fraction is cut
toward zero, and a text is read as a numeral. -/
def toInt : Datum → Except NotInteger Int
  | null => .error (.kind null.kindName)
  | bool b => .ok (if b then 1 else 0)
  | int n => .ok n
  | real d =>
    match d.nearest? with
    | some q => .ok (truncate q)
    | none => .error .infinite
  | text s => Numeral.read s
  | list items => .error (.kind (list items).kindName)
  | record fields => .error (.kind (record fields).kindName)

/-- The integer that a datum is: integers and truth values only. -/
def asInt? : Datum → Option Int
  | bool b => some (if b then 1 else 0)
  | int n => some n
  | _ => none

/-- How an integer or a truth value is written. -/
def intText? : Datum → Option String
  | bool true => some "True"
  | bool false => some "False"
  | int n => some (toString n)
  | _ => none

end Datum

end WhileLang
