import Std.Data.String.ToInt
import WhileLang.Program.Source
import WhileLang.Text.Alphanumeric
import WhileLang.Text.Digit

/-!
# Expressions can be told from their text

If the variables are identifiers, a text that begins with an expression begins with no other one, so
long as no operator follows: which expression it is can be told from the text, and with it where the
expression ends. A number may begin with the sign of an operator, and a variable may be called like
a keyword.

The text is taken apart from front to back. An operand is a word, or something in parentheses, or
both, so it can be told where it ends; and behind the first operand there is an operator, or the
expression has ended.

* `isIdentifier`: letters, digits and underscores, with no digit in front.
* `Expr.Legible`: no node is misplaced, and all names are identifiers.
* `Expr.text`, `Expr.operandText`: the characters of an expression, as a whole and as an operand;
  `Expr.source_eq`: they are its source text.
* `Delimited`, `Ended`: what can stand behind an operand, and behind an expression.
* `Expr.ReadAsOperand`, `Expr.ReadAsWhole`: an expression can be told from a text that begins with
  it; `Expr.readable`: every expression can.
-/

namespace WhileLang

/-! ## Words -/

/-- The characters of identifiers: letters and numbers of any script, and the underscore. -/
def isNameChar (c : Char) : Bool :=
  Text.isAlphanumeric c || c == '_'

/-- A name that is an identifier: it has characters of identifiers only, at least one of them, and
does not begin with a digit. -/
def isIdentifier (name : String) : Bool :=
  match name.toList with
  | [] => false
  | c :: rest => (Text.digitValue? c).isNone && (c :: rest).all isNameChar

/-- The characters that words are separated by or stand between. -/
def wordBounds : List Char :=
  [' ', '(', ')', ';', '\n']

/-- What stands behind a word or an operand is nothing, or begins with one of these characters. -/
def Delimited (r : List Char) : Prop :=
  ∀ c ∈ r.head?, c ∈ [' ', ')', ';', '\n']

/-- What stands behind an expression is no further operator. -/
def Ended (r : List Char) : Prop :=
  Delimited r ∧ ∀ (op : BinOp) (s : List Char), r ≠ ' ' :: op.symbol.toList ++ s

/-- If each of two texts begins with characters of a class, up to one that is not of the class or up
to the end, then these are the same characters, and what is left is the same as well. -/
theorem append_inj_of_class {P : Char → Prop} {v w r s : List Char} (hv : ∀ c ∈ v, P c)
    (hw : ∀ c ∈ w, P c) (hr : ∀ c ∈ r.head?, ¬ P c) (hs : ∀ c ∈ s.head?, ¬ P c)
    (h : v ++ r = w ++ s) : v = w ∧ r = s := by
  induction v generalizing w with
  | nil =>
      cases w with
      | nil => exact ⟨rfl, h⟩
      | cons d w =>
          rw [List.nil_append] at h
          subst h
          exact absurd (hw d (by simp)) (hr d (by simp))
  | cons c v ih =>
      cases w with
      | nil =>
          rw [List.nil_append] at h
          subst h
          exact absurd (hv c (by simp)) (hs c (by simp))
      | cons d w =>
          simp only [List.cons_append, List.cons.injEq] at h
          obtain ⟨rfl, h⟩ := h
          rw [List.forall_mem_cons] at hv hw
          obtain ⟨rfl, rfl⟩ := ih hv.2 hw.2 h
          exact ⟨rfl, rfl⟩

@[simp] theorem delimited_nil : Delimited [] := by
  simp [Delimited]

@[simp] theorem delimited_cons {c : Char} {r : List Char} :
    Delimited (c :: r) ↔ c ∈ [' ', ')', ';', '\n'] := by
  simp [Delimited]

theorem ended_nil : Ended [] := by
  simp [Ended]

/-- An expression ends at a closing parenthesis. -/
theorem ended_paren (r : List Char) : Ended (')' :: r) := by
  simp [Ended]

theorem Delimited.head_mem_wordBounds {r : List Char} (h : Delimited r) :
    ∀ c ∈ r.head?, c ∈ wordBounds := by
  intro c hc
  have hmem := h c hc
  simp only [wordBounds, List.mem_cons] at hmem ⊢
  grind

/-- If each of two texts begins with a word, and it is the same text, then it is the same word. -/
theorem word_append_inj {v w r s : List Char} (hv : ∀ c ∈ v, c ∉ wordBounds)
    (hw : ∀ c ∈ w, c ∉ wordBounds) (hr : ∀ c ∈ r.head?, c ∈ wordBounds)
    (hs : ∀ c ∈ s.head?, c ∈ wordBounds) (h : v ++ r = w ++ s) : v = w ∧ r = s := by
  apply append_inj_of_class hv hw _ _ h
  · intro c hc
    exact not_not_intro (hr c hc)
  · intro c hc
    exact not_not_intro (hs c hc)

/-- A character of a class that has none of the bounds of words is none of them. -/
theorem not_mem_wordBounds {p : Char → Bool} (hp : wordBounds.any p = false) {c : Char}
    (h : p c = true) : c ∉ wordBounds := by
  intro hc
  exact List.any_eq_false.1 hp c hc h

/-- The first character of an identifier is no digit, no minus sign and no equality sign. -/
theorem head_of_isIdentifier {x : String} (h : isIdentifier x = true) :
    ∃ c rest, x.toList = c :: rest ∧ c.isDigit = false ∧ c ≠ '-' ∧ c ≠ '=' := by
  unfold isIdentifier at h
  split at h
  · cases h
  · next c rest heq =>
      simp only [List.all_cons, Bool.and_eq_true] at h
      obtain ⟨hdigit, hname, -⟩ := h
      refine ⟨c, rest, heq, ?_, ?_, ?_⟩
      · rw [Text.digitValue?, Option.isNone_map, Option.isNone_iff_eq_none, List.find?_eq_none]
          at hdigit
        have hzero := hdigit 0x30 (by decide)
        simp only [Bool.and_eq_true, decide_eq_true_eq, not_and] at hzero
        rw [Bool.eq_false_iff]
        intro hc
        obtain ⟨hlow, hhigh⟩ := Char.isDigit_iff_toNat.1 hc
        exact hzero hlow (Nat.lt_succ_of_le hhigh)
      · rintro rfl
        revert hname
        decide
      · rintro rfl
        revert hname
        decide

theorem word_of_isIdentifier {x : String} (h : isIdentifier x = true) :
    ∀ c ∈ x.toList, c ∉ wordBounds := by
  unfold isIdentifier at h
  split at h
  · cases h
  · next heq =>
      rw [Bool.and_eq_true, List.all_eq_true] at h
      rw [heq]
      intro c hc
      exact not_mem_wordBounds (by decide : wordBounds.any isNameChar = false) (h.2 c hc)

/-- A number is written with digits, and perhaps a minus sign. -/
theorem isDigit_or_minus_of_mem_toString {n : Int} {c : Char} (h : c ∈ (toString n).toList) :
    c.isDigit = true ∨ c = '-' := by
  have hdigits : ∀ m : Nat, c ∈ m.repr.toList → c.isDigit = true := by
    intro m hm
    rw [Nat.toList_repr] at hm
    exact Nat.isDigit_of_mem_toDigits (by decide) (by decide) hm
  rw [Int.toString_eq_repr, Int.repr_eq_if] at h
  split at h
  · exact .inl (hdigits _ h)
  · rw [String.toList_append, List.mem_append] at h
    rcases h with h | h
    · exact .inr (by simpa using h)
    · exact .inl (hdigits _ h)

theorem word_of_toString (n : Int) : ∀ c ∈ (toString n).toList, c ∉ wordBounds := by
  intro c hc
  rcases isDigit_or_minus_of_mem_toString hc with h | rfl
  · exact not_mem_wordBounds (by decide : wordBounds.any Char.isDigit = false) h
  · decide

/-! ## Expressions -/

namespace Expr

/-- No node inside the expression is misplaced, and its variables are identifiers. -/
def Legible : Expr → Prop
  | var x => isIdentifier x = true
  | num _ => True
  | bin _ l r => l.Legible ∧ r.Legible
  | input i => i.Legible
  | stray _ => False

/-- The characters of an operand, from those of the expression that it is. -/
def enclosed (operand : Expr) (text : List Char) : List Char :=
  if operand.isBin then '(' :: text ++ [')'] else text

/-- The characters of an expression. -/
def text : Expr → List Char
  | var x => x.toList
  | num n => (toString n).toList
  | bin op l r => l.enclosed l.text ++ ' ' :: op.symbol.toList ++ ' ' :: r.enclosed r.text
  | input i => ['a', 'r', 'g', 's'] ++ '(' :: i.text ++ [')']
  | stray _ => []

/-- The characters of an expression that is an operand. -/
def operandText (e : Expr) : List Char :=
  e.enclosed e.text

theorem enclose_ofList (e : Expr) (l : List Char) :
    e.enclose (String.ofList l) = String.ofList (e.enclosed l) := by
  unfold enclose enclosed
  split
  · rw [← String.toList_inj]
    simp
  · rfl

/-- A legible expression has a source text. -/
theorem source_eq {e : Expr} (he : e.Legible) : e.source = .ok (String.ofList e.text) := by
  induction e with
  | var x => rw [source, text, String.ofList_toList]
  | num n => rw [source, text, String.ofList_toList]
  | bin op l r ihl ihr =>
      rw [source, ihl he.1, ihr he.2]
      refine congrArg Except.ok ?_
      rw [← String.toList_inj, enclose_ofList, enclose_ofList]
      simp [text]
  | input i ih =>
      rw [source, ih he]
      refine congrArg Except.ok ?_
      rw [← String.toList_inj]
      simp [text]
  | stray d => exact he.elim

/-- The word at the beginning of an operand, if it has one. -/
def lead : Expr → List Char
  | var x => x.toList
  | num n => (toString n).toList
  | input _ => ['a', 'r', 'g', 's']
  | _ => []

/-- The expression that an operand has in parentheses, if it has one. -/
def inner? : Expr → Option Expr
  | bin op l r => some (bin op l r)
  | input i => some i
  | _ => none

/-- The characters of an expression in parentheses, if there is one. -/
def bracketed : Option Expr → List Char
  | some i => '(' :: i.text ++ [')']
  | none => []

theorem operandText_eq (e : Expr) : e.operandText = e.lead ++ bracketed e.inner? := by
  cases e <;> simp [operandText, enclosed, isBin, lead, inner?, bracketed, text]

theorem operandText_of_not_isBin {e : Expr} (he : e.isBin = false) : e.operandText = e.text := by
  simp [operandText, enclosed, he]

theorem text_bin (op : BinOp) (l r : Expr) :
    (bin op l r).text =
      l.operandText ++ ' ' :: op.symbol.toList ++ ' ' :: r.operandText := by
  rw [text, operandText, operandText]

theorem lead_word {e : Expr} (he : e.Legible) : ∀ c ∈ e.lead, c ∉ wordBounds := by
  cases e with
  | var x => exact word_of_isIdentifier he
  | num n => exact word_of_toString n
  | bin op l r => simp [lead]
  | input i => simp [lead, wordBounds]
  | stray d => exact he.elim

theorem Legible.inner {e i : Expr} (he : e.Legible) (hi : e.inner? = some i) : i.Legible := by
  cases e with
  | bin op l r | input j =>
      obtain rfl := Option.some.inj hi
      exact he
  | var x | num n | stray d => cases hi

/-- Behind the first word of an operand there is no further character of a word. -/
theorem head_bracketed (i : Option Expr) {r : List Char} (hr : Delimited r) :
    ∀ c ∈ (bracketed i ++ r).head?, c ∈ wordBounds := by
  cases i with
  | some i => simp [bracketed, wordBounds]
  | none => exact hr.head_mem_wordBounds

/-- No variable is written like a number. -/
theorem toList_ne_toString {x : String} (hx : isIdentifier x = true) (n : Int) :
    x.toList ≠ (toString n).toList := by
  intro h
  obtain ⟨c, rest, hc, hdigit, hminus, -⟩ := head_of_isIdentifier hx
  have hmem : c ∈ (toString n).toList := by
    rw [← h, hc]
    exact List.mem_cons_self
  rcases isDigit_or_minus_of_mem_toString hmem with hc' | hc'
  · rw [hdigit] at hc'
    cases hc'
  · exact hminus hc'

/-- The word and the expression in parentheses are all there is to an operand. -/
theorem eq_of_lead_of_inner {e f : Expr} (he : e.Legible) (hf : f.Legible)
    (hlead : e.lead = f.lead) (hinner : e.inner? = f.inner?) : e = f := by
  cases e with
  | var x =>
      cases f with
      | var y => rw [String.toList_inj.1 hlead]
      | num m => exact absurd hlead (toList_ne_toString he m)
      | bin op l r | input j => cases hinner
      | stray d => exact hf.elim
  | num n =>
      cases f with
      | var y => exact absurd hlead.symm (toList_ne_toString hf n)
      | num m => rw [Int.repr_inj.1 (String.toList_inj.1 hlead)]
      | bin op l r | input j => cases hinner
      | stray d => exact hf.elim
  | bin op l r =>
      cases f with
      | var y | num m | stray d => cases hinner
      | bin op' l' r' => exact Option.some.inj hinner
      | input j => simp [lead] at hlead
  | input i =>
      cases f with
      | var y | num m | stray d => cases hinner
      | bin op' l' r' => simp [lead] at hlead
      | input j => rw [Option.some.inj hinner]
  | stray d => exact he.elim

/-- An operand can be told from a text that begins with it. -/
def ReadAsOperand (e : Expr) : Prop :=
  ∀ (f : Expr) (r s : List Char), f.Legible → Delimited r → Delimited s →
    e.operandText ++ r = f.operandText ++ s → e = f ∧ r = s

/-- An expression can be told from a text that begins with it and goes on with no operator. -/
def ReadAsWhole (e : Expr) : Prop :=
  ∀ (f : Expr) (r s : List Char), f.Legible → Ended r → Ended s →
    e.text ++ r = f.text ++ s → e = f ∧ r = s

/-- An operand can be told from its text if what it has in parentheses can. -/
theorem readAsOperand_of_inner {e : Expr} (he : e.Legible)
    (hinner : ∀ i, e.inner? = some i → i.ReadAsWhole) : e.ReadAsOperand := by
  intro f r s hf hr hs h
  rw [operandText_eq, operandText_eq, List.append_assoc, List.append_assoc] at h
  obtain ⟨hlead, hrest⟩ := word_append_inj (lead_word he) (lead_word hf)
    (head_bracketed _ hr) (head_bracketed _ hs) h
  cases hi : e.inner? with
  | none =>
      cases hj : f.inner? with
      | none =>
          rw [hi, hj] at hrest
          exact ⟨eq_of_lead_of_inner he hf hlead (hi.trans hj.symm), hrest⟩
      | some j =>
          rw [hi, hj] at hrest
          subst hrest
          simp [bracketed] at hr
  | some i =>
      cases hj : f.inner? with
      | none =>
          rw [hi, hj] at hrest
          subst hrest
          simp [bracketed] at hs
      | some j =>
          rw [hi, hj] at hrest
          simp only [bracketed, List.cons_append, List.append_assoc, List.cons.injEq, true_and]
            at hrest
          obtain ⟨rfl, hclose⟩ :=
            hinner i hi j _ _ (hf.inner hj) (ended_paren r) (ended_paren s) hrest
          exact ⟨eq_of_lead_of_inner he hf hlead (hi.trans hj.symm), (List.cons.inj hclose).2⟩

theorem symbol_append_inj {op op' : BinOp} {r s : List Char}
    (h : op.symbol.toList ++ r = op'.symbol.toList ++ s) : op = op' ∧ r = s := by
  cases op <;> cases op' <;> simp_all [BinOp.symbol]

/-- An expression that is no operator node is an operand, and in a text that goes on with no
operator it can be no first operand either. -/
theorem readAsWhole_of_not_isBin {e : Expr} (he : e.isBin = false) (h : e.ReadAsOperand) :
    e.ReadAsWhole := by
  intro f r s hf hr hs heq
  rw [← operandText_of_not_isBin he] at heq
  cases hbin : f.isBin with
  | false =>
      rw [← operandText_of_not_isBin hbin] at heq
      exact h f r s hf hr.1 hs.1 heq
  | true =>
      cases f with
      | bin op l r' =>
          rw [text_bin, List.append_assoc, List.append_assoc] at heq
          obtain ⟨-, hr'⟩ := h l r _ hf.1 hr.1 (by simp) heq
          exact absurd hr' (hr.2 op _)
      | _ => cases hbin

theorem readAsWhole_bin {op : BinOp} {l r : Expr} (hl : l.ReadAsOperand) (hr : r.ReadAsOperand) :
    (bin op l r).ReadAsWhole := by
  intro f t s hf ht hs heq
  rw [text_bin, List.append_assoc, List.append_assoc] at heq
  cases hbin : f.isBin with
  | false =>
      rw [← operandText_of_not_isBin hbin] at heq
      obtain ⟨-, hs'⟩ := hl f _ s hf (by simp) hs.1 heq
      exact absurd hs'.symm (hs.2 op _)
  | true =>
      cases f with
      | bin op' l' r' =>
          rw [text_bin, List.append_assoc, List.append_assoc] at heq
          obtain ⟨rfl, hrest⟩ := hl l' _ _ hf.1 (by simp) (by simp) heq
          obtain ⟨rfl, hright⟩ := symbol_append_inj (List.cons.inj hrest).2
          obtain ⟨rfl, rfl⟩ := hr r' t s hf.2 ht.1 hs.1 (List.cons.inj hright).2
          exact ⟨rfl, rfl⟩
      | _ => cases hbin

/-- Every expression can be told from a text that begins with it, by induction on it: an operand if
what it has in parentheses can, and an operator if its operands can. -/
theorem readable {e : Expr} (he : e.Legible) : e.ReadAsOperand ∧ e.ReadAsWhole := by
  induction e with
  | var x | num n =>
      have h := readAsOperand_of_inner he (by simp [inner?])
      exact ⟨h, readAsWhole_of_not_isBin rfl h⟩
  | bin op l r ihl ihr =>
      have h : (bin op l r).ReadAsWhole := readAsWhole_bin (ihl he.1).1 (ihr he.2).1
      refine ⟨readAsOperand_of_inner he ?_, h⟩
      intro i hi
      rwa [← Option.some.inj hi]
  | input i ih =>
      have h : (input i).ReadAsOperand := by
        apply readAsOperand_of_inner he
        intro j hj
        rw [← Option.some.inj hj]
        exact (ih he).2
      exact ⟨h, readAsWhole_of_not_isBin rfl h⟩
  | stray d => exact he.elim

/-- An expression does not begin with an equality sign. -/
theorem head_text {e : Expr} (he : e.Legible) {r : List Char} (hr : Delimited r) :
    ∀ c ∈ (e.text ++ r).head?, c ≠ '=' := by
  induction e generalizing r with
  | var x =>
      obtain ⟨c, rest, hc, -, -, hne⟩ := head_of_isIdentifier he
      simpa [text, hc] using hne
  | num n =>
      intro c hc
      rw [List.head?_append, Option.mem_def, Option.or_eq_some_iff] at hc
      rcases hc with hc | ⟨-, hc⟩
      · rcases isDigit_or_minus_of_mem_toString (List.mem_of_mem_head? hc) with h | rfl
        · rintro rfl
          cases h
        · decide
      · rintro rfl
        simpa using hr _ hc
  | bin op l r' ihl ihr =>
      rw [text_bin, List.append_assoc, List.append_assoc, operandText, enclosed]
      split
      · simp
      · exact ihl he.1 (by simp)
  | input i ih => simp [text]
  | stray d => exact he.elim

end Expr

end WhileLang
