import WhileLang.Program.Basic

/-!
# Terms

A term is what straight-line code computes, with the variables resolved: values are built from
numbers, symbols, operators and program arguments. Printing has no value; it is recorded by a
chain of effects, in which `print prior value` stands for the effects of `prior` followed by the
printing of `value`.

* `Term`: the terms.
* `Kind`: their constructors, each with the text that names it.
* `Term.kinds`: the constructors of a term, each node before its children.
* `Term.inWords`: whether all numbers of a term are words; `Term.wordKinds`: the constructors up
  to the first number that is not.
-/

namespace WhileLang

/-- Terms. -/
inductive Term where
  /-- A number. -/
  | num (n : Int)
  /-- A value of which nothing is known but its name. -/
  | symbol (name : String)
  /-- An operator on two values. -/
  | bin (op : BinOp) (left right : Term)
  /-- The program argument at a position. -/
  | arg (index : Term)
  /-- No effect yet. -/
  | silent
  /-- The effects so far, then the printing of a value. -/
  | print (effect value : Term)
deriving DecidableEq, Repr, Inhabited

/-- The constructors of terms. -/
inductive Kind where
  | num
  | symbol
  | bin (op : BinOp)
  | arg
  | silent
  | print
deriving DecidableEq, Repr

namespace Kind

/-- The text that names a constructor. -/
def text : Kind → String
  | num => "num"
  | symbol => "symbol"
  | bin op => op.symbol
  | arg => "args"
  | silent => "[]"
  | print => ">>>"

/-- All constructors, in the order in which they are looked through. -/
def all : List Kind :=
  [num, symbol] ++ BinOp.all.map bin ++ [arg, silent, print]

/-- The constructor that a text names. -/
def ofText? (s : String) : Option Kind :=
  all.find? (·.text == s)

theorem mem_all (k : Kind) : k ∈ all := by
  cases k with
  | bin op => cases op <;> decide
  | _ => decide

end Kind

/-- The constructors of a term, each node before its children, from left to right. -/
def Term.kinds : Term → List Kind
  | num _ => [.num]
  | symbol _ => [.symbol]
  | bin op l r => .bin op :: (l.kinds ++ r.kinds)
  | arg i => .arg :: i.kinds
  | silent => [.silent]
  | print e v => .print :: (e.kinds ++ v.kinds)

/-- Whether all numbers of a term are words. -/
def Term.inWords : Term → Bool
  | num n => decide (Word.IsWord n)
  | symbol _ | silent => true
  | bin _ l r => l.inWords && r.inWords
  | arg i => i.inWords
  | print e v => e.inWords && v.inWords

/-- The constructors of a term, each node before its children, up to the first number that is not
a word. -/
def Term.wordKinds : Term → List Kind
  | num _ => [.num]
  | symbol _ => [.symbol]
  | bin op l r => .bin op :: (l.wordKinds ++ if l.inWords then r.wordKinds else [])
  | arg i => .arg :: i.wordKinds
  | silent => [.silent]
  | print e v => .print :: (e.wordKinds ++ if e.inWords then v.wordKinds else [])

theorem Term.wordKinds_eq_kinds {t : Term} (h : t.inWords = true) : t.wordKinds = t.kinds := by
  induction t with
  | num | symbol | silent => rfl
  | arg i ih => simp_all [inWords, wordKinds, kinds]
  | bin op l r ihl ihr | print l r ihl ihr => simp_all [inWords, wordKinds, kinds]

end WhileLang
