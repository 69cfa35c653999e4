/-!
# Association lists

Bindings, choices, counts and the bench of the residual program are association lists. These are
the laws of looking up a key that their proofs share.

* `lookup_cons_of_ne`: an entry for another key is passed over.
* `mem_of_lookup`: what is found is an entry; `isSome_lookup`: the keys of entries are found.
* `lookup_concat_of_ne`, `lookup_concat_self`: an entry is added at the end.
* `lookup_filter_ne`: the entries of a key are taken out.
-/

namespace WhileLang

variable {κ α : Type} [DecidableEq κ]

theorem lookup_cons_of_ne {i j : κ} (h : j ≠ i) (a : α) (l : List (κ × α)) :
    List.lookup j ((i, a) :: l) = l.lookup j := by
  rw [List.lookup_cons, beq_false_of_ne h]

theorem mem_of_lookup {l : List (κ × α)} {i : κ} {a : α} (h : l.lookup i = some a) :
    (i, a) ∈ l := by
  obtain ⟨l₁, l₂, rfl, -⟩ := List.lookup_eq_some_iff.1 h
  simp

theorem isSome_lookup {l : List (κ × α)} {i : κ} : (l.lookup i).isSome ↔ i ∈ l.map (·.1) := by
  rw [List.lookup_isSome_iff, List.mem_map]
  exact ⟨fun ⟨c, hc, hi⟩ => ⟨c, hc, (beq_iff_eq.1 hi).symm⟩,
    fun ⟨c, hc, hi⟩ => ⟨c, hc, beq_iff_eq.2 hi.symm⟩⟩

theorem lookup_concat_of_ne {i j : κ} (h : j ≠ i) (l : List (κ × α)) (a : α) :
    List.lookup j (l ++ [(i, a)]) = l.lookup j := by
  rw [List.lookup_append, lookup_cons_of_ne h, List.lookup_nil, Option.or_none]

theorem lookup_concat_self {i : κ} {l : List (κ × α)} (h : l.lookup i = none) (a : α) :
    List.lookup i (l ++ [(i, a)]) = some a := by
  rw [List.lookup_append, h, List.lookup_cons_self, Option.none_or]

theorem lookup_filter_ne (l : List (κ × α)) (i j : κ) :
    (l.filter (·.1 ≠ i)).lookup j = if j = i then none else l.lookup j := by
  induction l with
  | nil => simp
  | cons c l ih =>
      obtain ⟨k, a⟩ := c
      by_cases hk : k = i
      · rw [List.filter_cons_of_neg (by simp [hk]), ih]
        by_cases hj : j = i
        · rw [if_pos hj, if_pos hj]
        · rw [if_neg hj, if_neg hj, lookup_cons_of_ne (hk ▸ hj)]
      · rw [List.filter_cons_of_pos (by simp [hk])]
        by_cases hj : j = k
        · subst hj
          simp [hk]
        · rw [lookup_cons_of_ne hj, lookup_cons_of_ne hj, ih]

end WhileLang
