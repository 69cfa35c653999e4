import WhileLang.Proofs.Denotation
import WhileLang.Proofs.Interpretation

/-!
# The rules of arithmetic are sound

A rule is valid if its conclusion follows from its premises for all meanings of its variables:
the parts of the conclusion then denote something, one after the other, and with these meanings
for the variables of the parts the conclusion holds. All arithmetic of words is congruent to that
of the integers, so every ring identity is valid as long as the values are words.

* `Reading.interpretation`: graphs interpreted by values and printed lists; `Term.means_of_denote`
  and `Interpretation.Means.denote_eq`: terms mean there what they denote.
* `arithmeticRules_valid`: the rules of arithmetic are valid.
-/

namespace WhileLang

/-! ## Arithmetic of words -/

namespace Word

@[simp] theorem wrap_wrap_add (a b : Int) : wrap (wrap a + b) = wrap (a + b) :=
  Int.bmod_add_bmod

@[simp] theorem wrap_add_wrap (a b : Int) : wrap (a + wrap b) = wrap (a + b) :=
  Int.add_bmod_bmod

@[simp] theorem wrap_wrap_sub (a b : Int) : wrap (wrap a - b) = wrap (a - b) :=
  Int.bmod_sub_bmod

@[simp] theorem wrap_sub_wrap (a b : Int) : wrap (a - wrap b) = wrap (a - b) :=
  Int.sub_bmod_bmod

@[simp] theorem wrap_wrap_mul (a b : Int) : wrap (wrap a * b) = wrap (a * b) :=
  Int.bmod_mul_bmod

@[simp] theorem wrap_mul_wrap (a b : Int) : wrap (a * wrap b) = wrap (a * b) :=
  Int.mul_bmod_bmod

end Word

namespace BinOp

open Word

theorem eval_add_comm (a b : Int) : add.eval a b = add.eval b a :=
  congrArg wrap (Int.add_comm a b)

theorem eval_mul_comm (a b : Int) : mul.eval a b = mul.eval b a :=
  congrArg wrap (Int.mul_comm a b)

theorem eval_add_zero {a : Int} (h : IsWord a) : add.eval a 0 = a := by
  show wrap (a + 0) = a
  rw [Int.add_zero, wrap_eq_self h]

theorem eval_mul_one {a : Int} (h : IsWord a) : mul.eval a 1 = a := by
  show wrap (a * 1) = a
  rw [Int.mul_one, wrap_eq_self h]

theorem eval_sub_self (a : Int) : sub.eval a a = 0 := by
  show wrap (a - a) = 0
  rw [Int.sub_self]
  rfl

theorem eval_mul_add (a b c : Int) :
    mul.eval a (add.eval b c) = add.eval (mul.eval a b) (mul.eval a c) := by
  show wrap (a * wrap (b + c)) = wrap (wrap (a * b) + wrap (a * c))
  rw [wrap_mul_wrap, wrap_wrap_add, wrap_add_wrap, Int.mul_add]

theorem eval_sub_sub (a b c : Int) :
    sub.eval (sub.eval a b) c = sub.eval (sub.eval a c) b := by
  show wrap (wrap (a - b) - c) = wrap (wrap (a - c) - b)
  rw [wrap_wrap_sub, wrap_wrap_sub, Int.sub_sub, Int.sub_sub, Int.add_comm b c]

theorem eval_mul_two (a : Int) : mul.eval a 2 = add.eval a a := by
  show wrap (a * 2) = wrap (a + a)
  congr 1
  omega

end BinOp

/-! ## The interpretation by meanings -/

/-- Shapes denote values and printed lists, as a reading says. Only words count as values. -/
def Reading.interpretation (ρ : Reading) : Interpretation Meaning where
  denote μ s := s.denote ρ μ
  Good := Meaning.InWords
  denote_map μ f s := s.denote_map ρ μ f
  denote_congr := Shape.denote_congr

/-- A term whose numbers are words means what it denotes. -/
theorem Term.means_of_denote {ρ : Reading} (hρ : ρ.InWords) {t : Term} {m : Meaning}
    (hw : t.inWords = true) (h : t.denote ρ = some m) : ρ.interpretation.Means t m := by
  induction t generalizing m with
  | num n =>
      refine .num (μ := fun _ => m) h ?_
      obtain rfl : .value n = m := Option.some.inj h
      exact (Meaning.inWords_value n).2 (of_decide_eq_true hw)
  | symbol s =>
      refine .symbol (μ := fun _ => m) h ?_
      obtain ⟨v, hv, rfl⟩ := Option.map_eq_some_iff.1 h
      exact hρ.symbol s v hv
  | silent =>
      refine .silent (μ := fun _ => m) h ?_
      obtain rfl : .printed [] = m := Option.some.inj h
      exact Meaning.inWords_printed []
  | arg i ih =>
      obtain ⟨a, ha, hm⟩ := Term.denote_arg_eq_some h
      exact .arg (μ := fun _ => a) (i := 0) (ih hw ha) hm (.of_fetch hρ hm)
  | bin op l r ihl ihr =>
      rw [Term.inWords, Bool.and_eq_true] at hw
      obtain ⟨a, b, ha, hb, hm⟩ := Term.denote_bin_eq_some h
      exact .bin (μ := fun x => if x = 0 then a else b) (i := 0) (j := 1) (ihl hw.1 ha)
        (ihr hw.2 hb) hm (.of_apply hm)
  | print e v ihe ihv =>
      rw [Term.inWords, Bool.and_eq_true] at hw
      obtain ⟨a, b, ha, hb, hm⟩ := Term.denote_print_eq_some h
      exact .print (μ := fun x => if x = 0 then a else b) (i := 0) (j := 1) (ihe hw.1 ha)
        (ihv hw.2 hb) hm (.of_print hm)

theorem Interpretation.Means.denote_eq {ρ : Reading} {t : Term} {m : Meaning}
    (h : ρ.interpretation.Means t m) : t.denote ρ = some m := by
  induction h with
  | num h | symbol h | silent h => exact h
  | arg _ h _ ih =>
      rw [Term.denote, ih]
      exact h
  | bin _ _ h _ ihl ihr =>
      rw [Term.denote, ihl, ihr]
      exact h
  | print _ _ h _ ihe ihv =>
      rw [Term.denote, ihe, ihv]
      exact h

theorem Interpretation.Means.inWords {ρ : Reading} {t : Term} {m : Meaning}
    (h : ρ.interpretation.Means t m) : t.inWords = true := by
  induction h with
  | num h hm =>
      obtain rfl := Option.some.inj h
      exact decide_eq_true hm
  | symbol | silent => rfl
  | arg _ _ _ ih => exact ih
  | bin _ _ _ _ ihl ihr => exact Bool.and_eq_true_iff.2 ⟨ihl, ihr⟩
  | print _ _ _ _ ihe ihv => exact Bool.and_eq_true_iff.2 ⟨ihe, ihv⟩

/-- A term that means something is well-sorted. -/
theorem Interpretation.Means.sort_eq {ρ : Reading} {t : Term} {m : Meaning}
    (h : ρ.interpretation.Means t m) : t.sort? = some m.sort := by
  induction h with
  | num h hm =>
      obtain rfl := Option.some.inj h
      exact if_pos hm
  | symbol h =>
      obtain ⟨v, -, rfl⟩ := Option.map_eq_some_iff.1 h
      rfl
  | silent h =>
      obtain rfl := Option.some.inj h
      rfl
  | arg _ h _ ih =>
      obtain ⟨i, v, ha, -, rfl⟩ := Meaning.fetch_eq_some h
      rw [ha] at ih
      simp [Term.sort?, ih, Meaning.sort]
  | bin _ _ h _ ihl ihr =>
      obtain ⟨x, y, ha, hb, rfl⟩ := Meaning.apply_eq_some h
      rw [ha] at ihl
      rw [hb] at ihr
      simp [Term.sort?, ihl, ihr, Meaning.sort]
  | print _ _ h _ ihe ihv =>
      obtain ⟨out, v, ha, hb, rfl⟩ := Meaning.print_eq_some h
      rw [ha] at ihe
      rw [hb] at ihv
      simp [Term.sort?, ihe, ihv, Meaning.sort]

/-! ## The rules -/

section Rules

variable {ρ : Reading} {v : Nat → Meaning} {op : BinOp} {x y l : Nat}

theorem Row.Holds.num {n : Int} (h : (⟨.num n, l⟩ : Row).Holds ρ.interpretation v) :
    v l = .value n :=
  (Option.some.inj h).symm

theorem Row.Holds.bin (h : (⟨.bin op x y, l⟩ : Row).Holds ρ.interpretation v) :
    ∃ a b, v x = .value a ∧ v y = .value b ∧ v l = .value (op.eval a b) :=
  Meaning.apply_eq_some h

/-- An operator whose right operand is a number. -/
theorem Row.Holds.bin_num {n : Int} (h : (⟨.bin op x y, l⟩ : Row).Holds ρ.interpretation v)
    (hy : v y = .value n) : ∃ a, v x = .value a ∧ v l = .value (op.eval a n) := by
  obtain ⟨a, b, ha, hb, hl⟩ := h.bin
  obtain rfl : n = b := Meaning.value.inj (hy.symm.trans hb)
  exact ⟨a, ha, hl⟩

theorem Row.holds_bin {a b : Int} (hx : v x = .value a) (hy : v y = .value b)
    (hl : v l = .value (op.eval a b)) : (⟨.bin op x y, l⟩ : Row).Holds ρ.interpretation v := by
  show (v x).apply op (v y) = some (v l)
  rw [hx, hy, hl]
  rfl

/-- A part that is an operator on two values: its variable means the result. -/
theorem Conclusion.Follows.bin {c : Conclusion} {ps : List Row} {a b : Int}
    (hx : v x = .value a) (hy : v y = .value b)
    (h : c.Follows ρ.interpretation ps (Function.update v l (.value (op.eval a b)))) :
    c.Follows ρ.interpretation (⟨.bin op x y, l⟩ :: ps) v := by
  refine ⟨.value (op.eval a b), ?_, op.isWord_eval a b, h⟩
  show (v x).apply op (v y) = _
  rw [hx, hy]
  rfl

end Rules

/-- **The rules of arithmetic are valid**, whatever symbols and arguments stand for. -/
theorem arithmeticRules_valid (ρ : Reading) : ∀ r ∈ arithmeticRules, r.Valid ρ.interpretation := by
  intro r hr
  simp only [arithmeticRules, List.mem_cons, List.not_mem_nil, or_false] at hr
  rcases hr with rfl | rfl | rfl | rfl | rfl | rfl | rfl | rfl
  all_goals
    refine ⟨List.cons_ne_nil _ _, fun v hv hp => ?_⟩
    simp only [List.forall_mem_cons] at hp
  · -- a + b = b + a
    obtain ⟨a, b, ha, hb, hl⟩ := hp.1.bin
    rw [BinOp.eval_add_comm] at hl
    exact Row.holds_bin hb ha hl
  · -- a * b = b * a
    obtain ⟨a, b, ha, hb, hl⟩ := hp.1.bin
    rw [BinOp.eval_mul_comm] at hl
    exact Row.holds_bin hb ha hl
  · -- a + 0 = a
    obtain ⟨a, ha, hl⟩ := hp.2.1.bin_num hp.1.num
    have hw : Word.IsWord a := (Meaning.inWords_value a).1 (ha ▸ hv 0)
    rw [BinOp.eval_add_zero hw] at hl
    exact ha.trans hl.symm
  · -- a * 1 = a
    obtain ⟨a, ha, hl⟩ := hp.2.1.bin_num hp.1.num
    have hw : Word.IsWord a := (Meaning.inWords_value a).1 (ha ▸ hv 0)
    rw [BinOp.eval_mul_one hw] at hl
    exact ha.trans hl.symm
  · -- a - a = 0
    obtain ⟨a, b, ha, hb, hl⟩ := hp.1.bin
    obtain rfl : a = b := Meaning.value.inj (ha.symm.trans hb)
    rw [BinOp.eval_sub_self] at hl
    exact congrArg some hl.symm
  · -- a * (b + c) = a * b + a * c
    obtain ⟨b, c, hb, hc, hm⟩ := hp.1.bin
    obtain ⟨a, ha, hl⟩ := hp.2.1.bin_num hm
    rw [BinOp.eval_mul_add] at hl
    refine Conclusion.Follows.bin ha hb ?_
    refine Conclusion.Follows.bin (a := a) (b := c) ha hc ?_
    exact Row.holds_bin (a := BinOp.mul.eval a b) (b := BinOp.mul.eval a c) rfl rfl hl
  · -- (a - b) - c = (a - c) - b
    obtain ⟨a, b, ha, hb, hm⟩ := hp.1.bin
    obtain ⟨d, c, hd, hc, hl⟩ := hp.2.1.bin
    obtain rfl : BinOp.sub.eval a b = d := Meaning.value.inj (hm.symm.trans hd)
    rw [BinOp.eval_sub_sub] at hl
    refine Conclusion.Follows.bin ha hc ?_
    exact Row.holds_bin (a := BinOp.sub.eval a c) (b := b) rfl hb hl
  · -- a * 2 = a + a
    obtain ⟨a, ha, hl⟩ := hp.2.1.bin_num hp.1.num
    rw [BinOp.eval_mul_two] at hl
    exact Row.holds_bin ha ha hl

end WhileLang
