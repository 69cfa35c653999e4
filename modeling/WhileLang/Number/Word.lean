/-!
# Machine words

The machine computes with signed integers of 64 bits in two's complement. Integers from outside
may have any size; `wrap` reduces one to the word it is congruent to modulo `2 ^ 64`.

* `wrap`: the word congruent to an integer.
* `IsWord`: the integers that are words.
-/

namespace WhileLang.Word

/-- How many words there are: `2 ^ 64`. -/
def span : Nat := 18446744073709551616

/-- The word congruent to `n` modulo `span`. -/
def wrap (n : Int) : Int :=
  n.bmod span

/-- The least word: `-2 ^ 63`. -/
def least : Int := -9223372036854775808

/-- The integers that 64 bits can hold: from `-2 ^ 63` up to, but not including, `2 ^ 63`. -/
def IsWord (n : Int) : Prop :=
  -9223372036854775808 ≤ n ∧ n < 9223372036854775808

instance (n : Int) : Decidable (IsWord n) :=
  inferInstanceAs (Decidable (_ ∧ _))

theorem isWord_wrap (n : Int) : IsWord (wrap n) := by
  have h₁ := Int.le_bmod (x := n) (m := span) (by decide)
  have h₂ := Int.bmod_lt (x := n) (m := span) (by decide)
  simp only [span] at h₁ h₂
  unfold IsWord wrap span
  omega

theorem wrap_eq_self {n : Int} (h : IsWord n) : wrap n = n := by
  obtain ⟨h₁, h₂⟩ := h
  unfold wrap span
  exact Int.bmod_eq_of_le (by omega) (by omega)

end WhileLang.Word
