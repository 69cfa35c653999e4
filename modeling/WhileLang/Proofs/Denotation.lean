import WhileLang.EGraph.Basic
import WhileLang.Machine.Exec

/-!
# What terms denote

A term denotes a value or the list of values that have been printed. Symbols and program
arguments are given from outside by a reading. A term that mixes the two kinds of meaning, or
asks for a symbol or an argument that the reading does not have, denotes nothing.

* `Meaning`: values and printed lists; `Meaning.apply`, `Meaning.fetch`, `Meaning.print` are the
  operations that the constructors stand for.
* `Reading`: the values of symbols and arguments; `Reading.ofArgs` has the arguments of a run and
  no symbols, `Reading.total` has all symbols and a default at every other position.
* `Term.denote`: the meaning of a term; `Shape.denote`: that of a shape whose classes have one.
* `Term.sort?`: the sort of a well-sorted term, and `Term.denotes_of_sort`: it denotes something
  of that sort if the reading has all that it asks for.
-/

namespace WhileLang

open Word

/-! ## Meanings -/

/-- What a term may denote. -/
inductive Meaning where
  /-- A value. -/
  | value (n : Int)
  /-- The values printed so far, in order. -/
  | printed (out : List Int)
deriving DecidableEq, Repr

/-- Where symbols and program arguments have their values from. -/
structure Reading where
  /-- The values of the symbols; some may have none. -/
  symbol : String → Option Int
  /-- The values of the arguments; at some positions there may be none. -/
  argument : Int → Option Int

namespace Reading

/-- The arguments of a run, and no symbols. -/
def ofArgs (args : List Int) : Reading :=
  ⟨fun _ => none, argument? args⟩

/-- All symbols, and the arguments of a run with a default at every other position. -/
def total (symbol : String → Int) (args : List Int) (default : Int) : Reading :=
  ⟨fun s => some (symbol s), fun i => some ((argument? args i).getD default)⟩

/-- All values of a reading are words. -/
structure InWords (ρ : Reading) : Prop where
  symbol : ∀ s v, ρ.symbol s = some v → IsWord v
  argument : ∀ i v, ρ.argument i = some v → IsWord v

end Reading

theorem isWord_argument {args : List Int} {i v : Int} (hw : ∀ a ∈ args, IsWord a)
    (h : argument? args i = some v) : IsWord v := by
  unfold argument? at h
  split at h
  · cases h
  · exact hw v (List.mem_of_getElem? h)

theorem Reading.inWords_ofArgs {args : List Int} (hw : ∀ a ∈ args, IsWord a) :
    (ofArgs args).InWords where
  symbol _ _ h := by cases h
  argument _ _ h := isWord_argument hw h

theorem Reading.inWords_total {symbol : String → Int} {args : List Int} {default : Int}
    (hs : ∀ s, IsWord (symbol s)) (hw : ∀ a ∈ args, IsWord a) (hd : IsWord default) :
    (total symbol args default).InWords where
  symbol s v h := by
    obtain rfl : symbol s = v := Option.some.inj h
    exact hs s
  argument i v h := by
    obtain rfl : (argument? args i).getD default = v := Option.some.inj h
    cases ha : argument? args i with
    | none => exact hd
    | some a => exact isWord_argument hw ha

namespace Meaning

/-- An operator on two values. -/
def apply (op : BinOp) : Meaning → Meaning → Option Meaning
  | value a, value b => some (value (op.eval a b))
  | _, _ => none

/-- The argument at a position. -/
def fetch (ρ : Reading) : Meaning → Option Meaning
  | value i => (ρ.argument i).map value
  | printed _ => none

/-- One more value printed. -/
def print : Meaning → Meaning → Option Meaning
  | printed out, value v => some (printed (out ++ [v]))
  | _, _ => none

/-- The value, if there is one, is a word. -/
def InWords : Meaning → Prop
  | value n => IsWord n
  | printed _ => True

@[simp] theorem inWords_value (n : Int) : (value n).InWords ↔ IsWord n := Iff.rfl

@[simp] theorem inWords_printed (out : List Int) : (printed out).InWords := trivial

theorem apply_eq_some {op : BinOp} {a b m : Meaning} (h : apply op a b = some m) :
    ∃ x y, a = value x ∧ b = value y ∧ m = value (op.eval x y) := by
  cases a <;> cases b <;> simp only [apply, Option.some.injEq, reduceCtorEq] at h
  exact ⟨_, _, rfl, rfl, h.symm⟩

theorem fetch_eq_some {ρ : Reading} {a m : Meaning} (h : fetch ρ a = some m) :
    ∃ i v, a = value i ∧ ρ.argument i = some v ∧ m = value v := by
  cases a with
  | printed _ => cases h
  | value i =>
      obtain ⟨v, hv, rfl⟩ := Option.map_eq_some_iff.1 h
      exact ⟨i, v, rfl, hv, rfl⟩

theorem print_eq_some {a b m : Meaning} (h : print a b = some m) :
    ∃ out v, a = printed out ∧ b = value v ∧ m = printed (out ++ [v]) := by
  cases a <;> cases b <;> simp only [print, Option.some.injEq, reduceCtorEq] at h
  exact ⟨_, _, rfl, rfl, h.symm⟩

end Meaning

theorem BinOp.isWord_eval (op : BinOp) (a b : Int) : IsWord (op.eval a b) := by
  cases op with
  | add | sub | mul => exact isWord_wrap _
  | lt =>
      show IsWord (if a < b then 1 else 0)
      split <;> decide
  | gt =>
      show IsWord (if a > b then 1 else 0)
      split <;> decide

theorem Meaning.InWords.of_apply {op : BinOp} {a b m : Meaning} (h : apply op a b = some m) :
    m.InWords := by
  obtain ⟨x, y, -, -, rfl⟩ := apply_eq_some h
  exact op.isWord_eval x y

theorem Meaning.InWords.of_fetch {ρ : Reading} (hρ : ρ.InWords) {a m : Meaning}
    (h : fetch ρ a = some m) : m.InWords := by
  obtain ⟨i, v, -, hv, rfl⟩ := fetch_eq_some h
  exact hρ.argument i v hv

theorem Meaning.InWords.of_print {a b m : Meaning} (h : print a b = some m) : m.InWords := by
  obtain ⟨out, v, -, -, rfl⟩ := print_eq_some h
  trivial

/-! ## Terms and shapes -/

/-- The meaning of a term. -/
def Term.denote (ρ : Reading) : Term → Option Meaning
  | num n => some (.value n)
  | symbol s => (ρ.symbol s).map .value
  | bin op l r => (l.denote ρ).bind fun a => (r.denote ρ).bind fun b => a.apply op b
  | arg i => (i.denote ρ).bind (Meaning.fetch ρ)
  | silent => some (.printed [])
  | print e v => (e.denote ρ).bind fun a => (v.denote ρ).bind fun b => a.print b

/-- The meaning of a shape, when that of each class is known. -/
def Shape.denote (ρ : Reading) (μ : Nat → Meaning) : Shape → Option Meaning
  | num n => some (.value n)
  | symbol s => (ρ.symbol s).map .value
  | bin op l r => (μ l).apply op (μ r)
  | arg i => (μ i).fetch ρ
  | silent => some (.printed [])
  | print e v => (μ e).print (μ v)

theorem Shape.denote_map (ρ : Reading) (μ : Nat → Meaning) (f : Nat → Nat) (s : Shape) :
    (s.map f).denote ρ μ = s.denote ρ fun i => μ (f i) := by
  cases s <;> rfl

theorem Shape.denote_congr {ρ : Reading} {μ μ' : Nat → Meaning} {s : Shape}
    (h : ∀ i ∈ s.children, μ' i = μ i) : s.denote ρ μ' = s.denote ρ μ := by
  cases s <;> simp_all [denote, children]

theorem Term.denote_bin_eq_some {ρ : Reading} {op : BinOp} {l r : Term} {m : Meaning}
    (h : (bin op l r).denote ρ = some m) :
    ∃ a b, l.denote ρ = some a ∧ r.denote ρ = some b ∧ a.apply op b = some m := by
  obtain ⟨a, ha, h⟩ := Option.bind_eq_some_iff.1 h
  obtain ⟨b, hb, h⟩ := Option.bind_eq_some_iff.1 h
  exact ⟨a, b, ha, hb, h⟩

theorem Term.denote_arg_eq_some {ρ : Reading} {i : Term} {m : Meaning}
    (h : (arg i).denote ρ = some m) : ∃ a, i.denote ρ = some a ∧ a.fetch ρ = some m :=
  Option.bind_eq_some_iff.1 h

theorem Term.denote_print_eq_some {ρ : Reading} {e v : Term} {m : Meaning}
    (h : (print e v).denote ρ = some m) :
    ∃ a b, e.denote ρ = some a ∧ v.denote ρ = some b ∧ a.print b = some m := by
  obtain ⟨a, ha, h⟩ := Option.bind_eq_some_iff.1 h
  obtain ⟨b, hb, h⟩ := Option.bind_eq_some_iff.1 h
  exact ⟨a, b, ha, hb, h⟩

/-- The symbols of a term. -/
def Term.symbols : Term → List String
  | num _ | silent => []
  | symbol s => [s]
  | bin _ l r => l.symbols ++ r.symbols
  | arg i => i.symbols
  | print e v => e.symbols ++ v.symbols

/-- A term that denotes something has no symbol without a value. -/
theorem Term.symbol_of_denote {ρ : Reading} {t : Term} {m : Meaning} (h : t.denote ρ = some m)
    {s : String} (hs : s ∈ t.symbols) : ∃ v, ρ.symbol s = some v := by
  induction t generalizing m with
  | num | silent => cases hs
  | symbol s' =>
      obtain rfl := List.mem_singleton.1 hs
      obtain ⟨v, hv, -⟩ := Option.map_eq_some_iff.1 h
      exact ⟨v, hv⟩
  | arg i ih =>
      obtain ⟨a, ha, -⟩ := denote_arg_eq_some h
      exact ih ha hs
  | bin op l r ihl ihr =>
      obtain ⟨a, b, ha, hb, -⟩ := denote_bin_eq_some h
      rcases List.mem_append.1 hs with hs | hs
      · exact ihl ha hs
      · exact ihr hb hs
  | print e v ihe ihv =>
      obtain ⟨a, b, ha, hb, -⟩ := denote_print_eq_some h
      rcases List.mem_append.1 hs with hs | hs
      · exact ihe ha hs
      · exact ihv hb hs

/-! ## Sorts -/

/-- The two sorts of terms. -/
inductive TermSort where
  | value
  | effect
deriving DecidableEq, Repr

/-- The sort of a well-sorted term: operators and argument reads are over values, a print is over
an effect and a value, and numbers are words. -/
def Term.sort? : Term → Option TermSort
  | num n => if IsWord n then some .value else none
  | symbol _ => some .value
  | bin _ l r => if l.sort? = some .value ∧ r.sort? = some .value then some .value else none
  | arg i => if i.sort? = some .value then some .value else none
  | silent => some .effect
  | print e v => if e.sort? = some .effect ∧ v.sort? = some .value then some .effect else none

/-- The sort of a meaning. -/
def Meaning.sort : Meaning → TermSort
  | value _ => .value
  | printed _ => .effect

theorem Meaning.eq_value_of_sort {m : Meaning} (h : m.sort = .value) : ∃ n, m = value n := by
  cases m with
  | value n => exact ⟨n, rfl⟩
  | printed _ => cases h

theorem Meaning.eq_printed_of_sort {m : Meaning} (h : m.sort = .effect) :
    ∃ out, m = printed out := by
  cases m with
  | value _ => cases h
  | printed out => exact ⟨out, rfl⟩

theorem Term.inWords_of_sort {t : Term} {k : TermSort} (h : t.sort? = some k) :
    t.inWords = true := by
  induction t generalizing k with
  | num n => simp_all [sort?, inWords]
  | symbol _ | silent => rfl
  | arg i ih =>
      simp only [sort?, Option.ite_none_right_eq_some] at h
      exact ih h.1
  | bin op l r ihl ihr =>
      simp only [sort?, Option.ite_none_right_eq_some] at h
      simp [inWords, ihl h.1.1, ihr h.1.2]
  | print e v ihe ihv =>
      simp only [sort?, Option.ite_none_right_eq_some] at h
      simp [inWords, ihe h.1.1, ihv h.1.2]

/-- Under a reading that has the symbols of a well-sorted term and an argument at every position,
the term denotes something of its sort. -/
theorem Term.denotes_of_sort {ρ : Reading} (ha : ∀ i, ∃ v, ρ.argument i = some v) {t : Term}
    {k : TermSort} (h : t.sort? = some k) (hs : ∀ s ∈ t.symbols, ∃ v, ρ.symbol s = some v) :
    ∃ m, t.denote ρ = some m ∧ m.sort = k := by
  induction t generalizing k with
  | num n =>
      simp only [sort?, Option.ite_none_right_eq_some, Option.some.injEq] at h
      exact ⟨_, rfl, h.2⟩
  | symbol s =>
      obtain ⟨v, hv⟩ := hs s List.mem_cons_self
      exact ⟨.value v, by simp [denote, hv], Option.some.inj h⟩
  | silent => exact ⟨_, rfl, Option.some.inj h⟩
  | bin op l r ihl ihr =>
      simp only [sort?, Option.ite_none_right_eq_some, Option.some.injEq] at h
      obtain ⟨⟨hl, hr⟩, rfl⟩ := h
      obtain ⟨hsl, hsr⟩ := List.forall_mem_append.1 hs
      obtain ⟨a, hda, hka⟩ := ihl hl hsl
      obtain ⟨b, hdb, hkb⟩ := ihr hr hsr
      obtain ⟨x, rfl⟩ := Meaning.eq_value_of_sort hka
      obtain ⟨y, rfl⟩ := Meaning.eq_value_of_sort hkb
      exact ⟨.value (op.eval x y), by simp [denote, hda, hdb, Meaning.apply], rfl⟩
  | arg i ih =>
      simp only [sort?, Option.ite_none_right_eq_some, Option.some.injEq] at h
      obtain ⟨hi, rfl⟩ := h
      obtain ⟨a, hda, hka⟩ := ih hi hs
      obtain ⟨x, rfl⟩ := Meaning.eq_value_of_sort hka
      obtain ⟨v, hv⟩ := ha x
      exact ⟨.value v, by simp [denote, hda, Meaning.fetch, hv], rfl⟩
  | print e v ihe ihv =>
      simp only [sort?, Option.ite_none_right_eq_some, Option.some.injEq] at h
      obtain ⟨⟨he, hv⟩, rfl⟩ := h
      obtain ⟨hse, hsv⟩ := List.forall_mem_append.1 hs
      obtain ⟨a, hda, hka⟩ := ihe he hse
      obtain ⟨b, hdb, hkb⟩ := ihv hv hsv
      obtain ⟨out, rfl⟩ := Meaning.eq_printed_of_sort hka
      obtain ⟨y, rfl⟩ := Meaning.eq_value_of_sort hkb
      exact ⟨.printed (out ++ [y]), by simp [denote, hda, hdb, Meaning.print], rfl⟩

end WhileLang
