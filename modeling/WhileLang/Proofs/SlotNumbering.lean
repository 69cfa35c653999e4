import Mathlib.Data.Set.Card
import WhileLang.Proofs.Lookup
import WhileLang.Proofs.VariableReads

/-!
# Slots are numbered by first assignment

Slots are given to the names that a program assigns while the program is gone through from front to
back, and a table that has slots already can go through more programs. This file says what comes of
it in terms of the text alone: which names have a slot, which slots there are, and that a name comes
before another one in the table exactly if its first assignment comes before the other's first
assignment in the text.

The order of the text is that of places. The place of a statement in a block says which statement of
the block it is or stands in, then, if it stands in it, in which of its blocks, then the place
there; places are compared from the front. Programs that are gone through one after the other are
one text.

* `Stmt.HasPlace`: a statement stands at a place; `Block.FirstAssigned`: the place of the first
  assignment to a name.
* `Stmt.places`, `Block.places`: all assignments with their places. They are listed in the order of
  their places, `Block.places_sorted`, and the list is complete,
  `Stmt.HasPlace.mem_places`.
* `idxOf_addSlots_lt_iff`: adding names to a table keeps the order in which they come first.
* `Assembly.foldl_allocateAll`: going through programs one after the other.
* `SlotMap.Numbers`: a map gives the names of a table their positions, and its counter is the size
  of the table; `SlotMap.Numbers.assign`: giving one name a slot keeps that,
  `Block.numbers_assignSlots`: going through a program does.
* `Assembly.slots_by_first_assignment`: what the numbering is.
-/

namespace WhileLang

/-! ## Places in the text -/

/-- A statement stands in a block at a place: the position of the statement that it is, or of the
one that it stands in, followed by `0` for the block that is done if the test is not zero or by `1`
for the other one, and by its place there. -/
inductive Stmt.HasPlace (s : Stmt) : Block → List Nat → Prop where
  | here {b : Block} {k : Nat} : b[k]? = some s → HasPlace s b [k]
  | inBody {b body orelse : Block} {t : Expr} {k : Nat} {p : List Nat} :
      b[k]? = some (.cond t body orelse) → HasPlace s body p → HasPlace s b (k :: 0 :: p)
  | inElse {b body orelse : Block} {t : Expr} {k : Nat} {p : List Nat} :
      b[k]? = some (.cond t body orelse) → HasPlace s orelse p → HasPlace s b (k :: 1 :: p)
  | inLoop {b body : Block} {t : Expr} {k : Nat} {p : List Nat} :
      b[k]? = some (.loop t body) → HasPlace s body p → HasPlace s b (k :: 0 :: p)

/-- The first assignment to a name in a block is the one at a place: no other stands before it. -/
def Block.FirstAssigned (b : Block) (x : String) (p : List Nat) : Prop :=
  (∃ e, (Stmt.assign x e).HasPlace b p) ∧
    ∀ q e, (Stmt.assign x e).HasPlace b q → ¬ q < p

/-- Places further inside, in the block with a given number. -/
def nestPlaces (k : Nat) (l : List (List Nat × String)) : List (List Nat × String) :=
  l.map fun a => (k :: a.1, a.2)

mutual

/-- The assignments of a statement, each with its place inside the statement. -/
def Stmt.places : Stmt → List (List Nat × String)
  | .assign x _ => [([], x)]
  | .print _ => []
  | .cond _ b o => nestPlaces 0 (Block.places 0 b) ++ nestPlaces 1 (Block.places 0 o)
  | .loop _ b => nestPlaces 0 (Block.places 0 b)
  | .stray _ => []

/-- The assignments of a block, whose first statement has position `k`, each with its place. -/
def Block.places (k : Nat) : Block → List (List Nat × String)
  | [] => []
  | s :: rest => nestPlaces k s.places ++ Block.places (k + 1) rest

end

theorem mem_nestPlaces {k : Nat} {l : List (List Nat × String)} {p : List Nat} {x : String} :
    (p, x) ∈ nestPlaces k l ↔ ∃ q, p = k :: q ∧ (q, x) ∈ l := by
  simp [nestPlaces, and_comm, eq_comm]

theorem map_snd_nestPlaces (k : Nat) (l : List (List Nat × String)) :
    (nestPlaces k l).map Prod.snd = l.map Prod.snd := by
  simp [nestPlaces]

mutual

theorem Stmt.map_snd_places : ∀ s : Stmt, s.places.map Prod.snd = s.targets
  | .assign x e => by simp [Stmt.places, Stmt.targets]
  | .print e => by simp [Stmt.places, Stmt.targets]
  | .cond t b o => by
      rw [Stmt.places, Stmt.targets, List.map_append, map_snd_nestPlaces, map_snd_nestPlaces,
        Block.map_snd_places b, Block.map_snd_places o]
  | .loop t b => by
      rw [Stmt.places, Stmt.targets, map_snd_nestPlaces, Block.map_snd_places b]
  | .stray d => by simp [Stmt.places, Stmt.targets]

/-- The names that are assigned, place by place. -/
theorem Block.map_snd_places : ∀ {k : Nat} (b : Block), (Block.places k b).map Prod.snd = b.targets
  | _, [] => by simp [Block.places, Block.targets]
  | _, s :: rest => by
      rw [Block.places, Block.targets, List.map_append, map_snd_nestPlaces, s.map_snd_places,
        Block.map_snd_places rest]

end

/-! ### The list of places is complete -/

/-- An assignment of a block stands in one of its statements. -/
theorem Block.mem_places {k : Nat} {b : Block} {p : List Nat} {x : String} :
    (p, x) ∈ Block.places k b ↔
      ∃ j s q, b[j]? = some s ∧ p = (k + j) :: q ∧ (q, x) ∈ s.places := by
  induction b generalizing k with
  | nil => simp [places]
  | cons s rest ih =>
      rw [places, List.mem_append, mem_nestPlaces, ih]
      constructor
      · rintro (⟨q, rfl, hq⟩ | ⟨j, s', q, hj, rfl, hq⟩)
        · exact ⟨0, s, q, rfl, rfl, hq⟩
        · exact ⟨j + 1, s', q, hj, by rw [Nat.add_assoc, Nat.add_comm 1], hq⟩
      · rintro ⟨j, s', q, hj, rfl, hq⟩
        cases j with
        | zero =>
            obtain rfl : s = s' := Option.some.inj hj
            exact .inl ⟨q, rfl, hq⟩
        | succ j => exact .inr ⟨j, s', q, hj, by rw [Nat.add_assoc, Nat.add_comm 1], hq⟩

/-- An assignment that stands at a place is listed with it. -/
theorem Stmt.HasPlace.mem_places {b : Block} {p : List Nat} {x : String} {e : Expr}
    (h : (Stmt.assign x e).HasPlace b p) : (p, x) ∈ Block.places 0 b := by
  induction h with
  | here hk => exact Block.mem_places.2 ⟨_, _, [], hk, by simp, by simp [Stmt.places]⟩
  | inBody hk _ ih | inElse hk _ ih | inLoop hk _ ih =>
      refine Block.mem_places.2 ⟨_, _, _, hk, by rw [Nat.zero_add], ?_⟩
      simp [Stmt.places, mem_nestPlaces, ih]

mutual

theorem Stmt.hasPlace_of_mem_places {p : List Nat} {x : String} {b : Block} {k : Nat} :
    ∀ s : Stmt, b[k]? = some s → (p, x) ∈ s.places → ∃ e, (Stmt.assign x e).HasPlace b (k :: p)
  | .assign y e, hk, h => by
      simp only [Stmt.places, List.mem_singleton, Prod.mk.injEq] at h
      obtain ⟨rfl, rfl⟩ := h
      exact ⟨e, .here hk⟩
  | .print e, _, h => by simp [Stmt.places] at h
  | .cond t body orelse, hk, h => by
      rw [Stmt.places, List.mem_append, mem_nestPlaces, mem_nestPlaces] at h
      rcases h with ⟨q, rfl, hq⟩ | ⟨q, rfl, hq⟩
      · obtain ⟨e, he⟩ := Block.hasPlace_of_mem_places body hq
        exact ⟨e, .inBody hk he⟩
      · obtain ⟨e, he⟩ := Block.hasPlace_of_mem_places orelse hq
        exact ⟨e, .inElse hk he⟩
  | .loop t body, hk, h => by
      rw [Stmt.places, mem_nestPlaces] at h
      obtain ⟨q, rfl, hq⟩ := h
      obtain ⟨e, he⟩ := Block.hasPlace_of_mem_places body hq
      exact ⟨e, .inLoop hk he⟩
  | .stray d, _, h => by simp [Stmt.places] at h

/-- What is listed with a place is an assignment that stands there. -/
theorem Block.hasPlace_of_mem_places {p : List Nat} {x : String} :
    ∀ b : Block, (p, x) ∈ Block.places 0 b → ∃ e, (Stmt.assign x e).HasPlace b p
  | b, h => by
      obtain ⟨j, s, q, hj, rfl, hq⟩ := Block.mem_places.1 h
      rw [Nat.zero_add]
      exact Stmt.hasPlace_of_mem_places s hj hq

end

/-! ### The list of places is in order -/

/-- Assignments are listed in the order of their places. -/
def PlacesSorted (l : List (List Nat × String)) : Prop :=
  l.Pairwise fun a b => a.1 < b.1

theorem PlacesSorted.nest {l : List (List Nat × String)} (h : PlacesSorted l) (k : Nat) :
    PlacesSorted (nestPlaces k l) := by
  unfold PlacesSorted nestPlaces
  rw [List.pairwise_map]
  apply List.Pairwise.imp _ h
  intro a b hab
  exact List.cons_lt_cons_iff.2 (.inr ⟨rfl, hab⟩)

/-- Places that begin with a smaller number come first. -/
theorem PlacesSorted.append {k : Nat} {l l' : List (List Nat × String)} (h : PlacesSorted l)
    (h' : PlacesSorted l') (hl' : ∀ p x, (p, x) ∈ l' → ∃ j q, p = j :: q ∧ k < j) :
    PlacesSorted (nestPlaces k l ++ l') := by
  refine List.pairwise_append.2 ⟨h.nest k, h', ?_⟩
  rintro ⟨p, x⟩ hp ⟨p', x'⟩ hp'
  obtain ⟨q, rfl, -⟩ := mem_nestPlaces.1 hp
  obtain ⟨j, q', rfl, hj⟩ := hl' p' x' hp'
  exact List.cons_lt_cons_iff.2 (.inl hj)

mutual

theorem Stmt.places_sorted : ∀ s : Stmt, PlacesSorted s.places
  | .assign x e => by simp [Stmt.places, PlacesSorted]
  | .print e => by simp [Stmt.places, PlacesSorted]
  | .cond t b o => by
      rw [Stmt.places]
      refine (Block.places_sorted b).append ((Block.places_sorted o).nest 1) ?_
      intro p x hp
      obtain ⟨q, rfl, -⟩ := mem_nestPlaces.1 hp
      exact ⟨1, q, rfl, Nat.zero_lt_one⟩
  | .loop t b => by
      rw [Stmt.places]
      exact (Block.places_sorted b).nest 0
  | .stray d => by simp [Stmt.places, PlacesSorted]

theorem Block.places_sorted : ∀ {k : Nat} (b : Block), PlacesSorted (Block.places k b)
  | _, [] => by simp [Block.places, PlacesSorted]
  | k, s :: rest => by
      rw [Block.places]
      refine (s.places_sorted).append (Block.places_sorted rest) ?_
      intro p x hp
      obtain ⟨j, s', q, -, rfl, -⟩ := Block.mem_places.1 hp
      exact ⟨k + 1 + j, q, rfl, by omega⟩

end

/-- A name that is listed is listed first at a place before which there is no other with it. -/
theorem PlacesSorted.first {l : List (List Nat × String)} (h : PlacesSorted l) {x : String}
    (hx : x ∈ l.map Prod.snd) :
    ∃ p, l[(l.map Prod.snd).idxOf x]? = some (p, x) ∧ ∀ q, (q, x) ∈ l → ¬ q < p := by
  induction l with
  | nil => simp at hx
  | cons a l ih =>
      obtain ⟨p₀, x₀⟩ := a
      obtain ⟨hfirst, hrest⟩ := List.pairwise_cons.1 h
      by_cases heq : x₀ = x
      · subst heq
        refine ⟨p₀, by simp, ?_⟩
        intro q hq
        rcases List.mem_cons.1 hq with hq | hq
        · rw [(Prod.mk.inj hq).1]
          exact List.lt_irrefl p₀
        · exact List.lt_asymm (hfirst _ hq)
      · have hx' : x ∈ l.map Prod.snd := by
          simpa [Ne.symm heq] using hx
        obtain ⟨p, hp, hmin⟩ := ih hrest hx'
        refine ⟨p, by simp [List.idxOf_cons_ne _ heq, hp], ?_⟩
        intro q hq
        rcases List.mem_cons.1 hq with hq | hq
        · exact absurd (Prod.mk.inj hq).2.symm heq
        · exact hmin q hq

/-- What is listed earlier has the earlier place. -/
theorem PlacesSorted.lt_iff {l : List (List Nat × String)} (h : PlacesSorted l) {i j : Nat}
    {p q : List Nat} {x y : String} (hi : l[i]? = some (p, x)) (hj : l[j]? = some (q, y)) :
    i < j ↔ p < q := by
  obtain ⟨hi', hp⟩ := List.getElem?_eq_some_iff.1 hi
  obtain ⟨hj', hq⟩ := List.getElem?_eq_some_iff.1 hj
  have hsorted := List.pairwise_iff_getElem.1 h
  rcases Nat.lt_trichotomy i j with hlt | rfl | hlt
  · have := hsorted i j hi' hj' hlt
    rw [hp, hq] at this
    simp [hlt, this]
  · rw [hi] at hj
    cases hj
    simp
  · have := hsorted j i hj' hi' hlt
    rw [hp, hq] at this
    simp [Nat.lt_asymm hlt, List.lt_asymm this]

/-- The place of the first assignment to a name is the one that is listed first with it. -/
theorem Block.exists_firstAssigned {b : Block} {x : String} (hx : x ∈ b.targets) :
    ∃ p, (Block.places 0 b)[b.targets.idxOf x]? = some (p, x) ∧ b.FirstAssigned x p := by
  rw [← b.map_snd_places (k := 0)] at hx ⊢
  obtain ⟨p, hp, hmin⟩ := b.places_sorted.first hx
  refine ⟨p, hp, b.hasPlace_of_mem_places (List.mem_of_getElem? hp), ?_⟩
  intro q e h
  exact hmin q h.mem_places

/-- One name comes before another one in the text exactly if its first assignment does. -/
theorem Block.idxOf_targets_lt_iff {b : Block} {x y : String} (hx : x ∈ b.targets)
    (hy : y ∈ b.targets) : ∃ p q, b.FirstAssigned x p ∧ b.FirstAssigned y q ∧
      (b.targets.idxOf x < b.targets.idxOf y ↔ p < q) := by
  obtain ⟨p, hp, hfirst⟩ := exists_firstAssigned hx
  obtain ⟨q, hq, hfirst'⟩ := exists_firstAssigned hy
  exact ⟨p, q, hfirst, hfirst', b.places_sorted.lt_iff hp hq⟩

theorem Block.targets_append (b c : Block) : Block.targets (b ++ c) = b.targets ++ c.targets := by
  induction b with
  | nil => simp [targets]
  | cons s b ih => simp [targets, ih]

/-! ## Tables of names -/

section Tables

variable {slots names : List String} {x y : String}

theorem addSlots_append (slots names names' : List String) :
    addSlots slots (names ++ names') = addSlots (addSlots slots names) names' := by
  simp [addSlots]

theorem addSlots_singleton (slots : List String) (z : String) :
    addSlots slots [z] = if z ∈ slots then slots else slots ++ [z] := rfl

/-- Adding names keeps the table that is there. -/
theorem prefix_addSlots (slots names : List String) : slots <+: addSlots slots names := by
  induction names using List.reverseRecOn with
  | nil => exact List.prefix_refl slots
  | append_singleton names z ih =>
      rw [addSlots_append, addSlots_singleton]
      split
      · exact ih
      · exact ih.trans (List.prefix_append _ _)

/-- **Adding names** to an empty table keeps the order in which they come first. -/
theorem idxOf_addSlots_lt_iff (hx : x ∈ names) (hy : y ∈ names) :
    (addSlots [] names).idxOf x < (addSlots [] names).idxOf y ↔ names.idxOf x < names.idxOf y := by
  induction names using List.reverseRecOn with
  | nil => cases hx
  | append_singleton names z ih =>
      have hmem : ∀ {w}, w ∈ addSlots [] names ↔ w ∈ names := by simp [mem_addSlots]
      rw [addSlots_append, addSlots_singleton]
      by_cases hz : z ∈ names
      · -- the name has a slot already, so neither list has a new first occurrence
        have hold : ∀ {w}, w ∈ names ++ [z] → w ∈ names := by
          intro w hw
          rcases List.mem_append.1 hw with hw | hw
          · exact hw
          · rw [List.mem_singleton.1 hw]
            exact hz
        rw [if_pos (hmem.2 hz), List.idxOf_append_of_mem (hold hx),
          List.idxOf_append_of_mem (hold hy)]
        exact ih (hold hx) (hold hy)
      · -- the name is new, and behind all others in both lists
        rw [if_neg (mt hmem.1 hz)]
        have hlast : ∀ {l : List String}, z ∉ l → (l ++ [z]).idxOf z = l.length := by
          intro l hl
          simp [List.idxOf_append_of_notMem hl]
        have hearlier : ∀ {l : List String} {w : String},
            w ∈ l → (l ++ [z]).idxOf w < l.length := by
          intro l w hw
          rw [List.idxOf_append_of_mem hw]
          exact List.idxOf_lt_length_iff.2 hw
        have hcases : ∀ {w}, w ∈ names ++ [z] → w ∈ names ∨ w = z := by simp
        rcases hcases hx with hx' | rfl <;> rcases hcases hy with hy' | rfl
        · rw [List.idxOf_append_of_mem (hmem.2 hx'), List.idxOf_append_of_mem (hmem.2 hy'),
            List.idxOf_append_of_mem hx', List.idxOf_append_of_mem hy']
          exact ih hx' hy'
        · rw [hlast hz, hlast (mt hmem.1 hz)]
          exact iff_of_true (hearlier (hmem.2 hx')) (hearlier hx')
        · rw [hlast hz, hlast (mt hmem.1 hz)]
          exact iff_of_false (Nat.lt_asymm (hearlier (hmem.2 hy'))) (Nat.lt_asymm (hearlier hy'))
        · simp

end Tables

/-! ## Going through programs -/

namespace Assembly

theorem allocate_of_mem {a : Assembly} {x : String} (h : x ∈ a.slots) : a.allocate x = a :=
  if_pos h

/-- The slots after a program. -/
theorem slots_allocateAll (a : Assembly) (b : Block) :
    (a.allocateAll b).slots = addSlots a.slots b.targets :=
  foldl_allocate_slots b.targets a

/-- Going through programs one after the other is going through their statements. -/
theorem foldl_allocateAll (a : Assembly) (ps : List Block) :
    ps.foldl allocateAll a = a.allocateAll ps.flatten := by
  induction ps generalizing a with
  | nil => simp [allocateAll, Block.targets]
  | cons b ps ih =>
      rw [List.foldl_cons, ih]
      simp [allocateAll, Block.targets_append]

/-- A program whose names all have slots changes nothing. -/
theorem allocateAll_of_subset {a : Assembly} {b : Block} (h : b.targets ⊆ a.slots) :
    a.allocateAll b = a := by
  unfold allocateAll
  generalize b.targets = names at h
  induction names with
  | nil => rfl
  | cons x names ih =>
      obtain ⟨hx, hnames⟩ := List.cons_subset.1 h
      rw [List.foldl_cons, allocate_of_mem hx]
      exact ih hnames

/-- **Slots that have been given stay**, whatever the table goes through next. -/
theorem slotOf?_foldl_allocateAll {a : Assembly} {x : String} {n : Nat} (h : a.slotOf? x = some n)
    (ps : List Block) : (ps.foldl allocateAll a).slotOf? x = some n := by
  rw [foldl_allocateAll, slotOf?, slots_allocateAll]
  obtain ⟨added, hadded⟩ := prefix_addSlots a.slots (Block.targets ps.flatten)
  have hx : a.slots.findIdx? (· == x) = some n := h
  rw [← hadded, List.idxOf?, List.findIdx?_append, hx, Option.some_or]

/-- The slot of a name is its position in a table without repetitions. -/
theorem slotOf?_eq_some_iff {a : Assembly} (h : a.slots.Nodup) {x : String} {n : Nat} :
    a.slotOf? x = some n ↔ a.slots[n]? = some x := by
  rw [slotOf?, List.idxOf?_eq_some_iff, List.getElem?_eq_some_iff]
  refine exists_congr fun hn => and_iff_left_of_imp ?_
  rintro rfl j hj heq
  exact absurd ((h.getElem_inj_iff).1 heq) (Nat.ne_of_lt hj)

end Assembly

theorem Block.mem_targets_flatten {ps : List Block} {x : String} :
    x ∈ Block.targets ps.flatten ↔ ∃ b ∈ ps, b.Assigns x := by
  simp only [← mem_targets_iff_assigns, mem_targets, List.mem_flatten]
  constructor
  · rintro ⟨s, ⟨b, hb, hs⟩, hx⟩
    exact ⟨b, hb, s, hs, hx⟩
  · rintro ⟨b, hb, s, hs, hx⟩
    exact ⟨s, ⟨b, hb, hs⟩, hx⟩

/-! ## The map and the counter -/

/-- The entries of a map are the names of a table with their positions, and its counter is the size
of the table. -/
structure SlotMap.Numbers (m : SlotMap) (slots : List String) : Prop where
  entries : m.entries = slots.zipIdx
  next : m.next = slots.length

/-- A name is found among names with their positions where it comes first. -/
theorem lookup_zipIdx (slots : List String) (x : String) (k : Nat) :
    (slots.zipIdx k).lookup x = (slots.idxOf? x).map (· + k) := by
  induction slots generalizing k with
  | nil => rfl
  | cons y slots ih =>
      rw [List.zipIdx_cons, List.idxOf?_cons]
      by_cases hy : y = x
      · subst hy
        rw [List.lookup_cons_self, if_pos (beq_self_eq_true y), Option.map_some, Nat.zero_add]
      · rw [lookup_cons_of_ne (Ne.symm hy), ih, if_neg (by simpa using hy), Option.map_map]
        congr 1
        funext n
        simp only [Function.comp_apply]
        omega

namespace SlotMap.Numbers

variable {m : SlotMap} {slots : List String}

theorem empty : Numbers {} [] :=
  ⟨rfl, rfl⟩

theorem slotOf?_eq (h : m.Numbers slots) (x : String) : m.slotOf? x = slots.idxOf? x := by
  rw [slotOf?, h.entries, lookup_zipIdx]
  simp

/-- **Giving one name a slot** in the map is adding it to the table. -/
theorem assign (h : m.Numbers slots) (x : String) : (m.assign x).Numbers (addSlot slots x) := by
  have hx : (m.slotOf? x).isSome ↔ x ∈ slots := by
    rw [h.slotOf?_eq, List.isSome_idxOf?]
  unfold SlotMap.assign addSlot
  by_cases hmem : x ∈ slots
  · rw [if_pos (hx.2 hmem), if_pos hmem]
    exact h
  · rw [if_neg (mt hx.1 hmem), if_neg hmem]
    refine ⟨?_, ?_⟩
    · simp [h.entries, h.next, List.zipIdx_append]
    · simp [h.next]

end SlotMap.Numbers

mutual

theorem Stmt.numbers_assignSlots {m : SlotMap} {slots : List String} (h : m.Numbers slots) :
    ∀ s : Stmt, (s.assignSlots m).Numbers (addSlots slots s.targets)
  | .assign x e => by
      rw [Stmt.assignSlots, Stmt.targets]
      exact h.assign x
  | .print e | .stray e => by
      rw [Stmt.assignSlots, Stmt.targets]
      exact h
  | .cond t b o => by
      rw [Stmt.assignSlots, Stmt.targets, addSlots_append]
      exact Block.numbers_assignSlots (Block.numbers_assignSlots h b) o
  | .loop t b => by
      rw [Stmt.assignSlots, Stmt.targets]
      exact Block.numbers_assignSlots h b

/-- **Going through a program** block by block is adding the names that it assigns to the table. -/
theorem Block.numbers_assignSlots {m : SlotMap} {slots : List String} (h : m.Numbers slots) :
    ∀ b : Block, (Block.assignSlots b m).Numbers (addSlots slots b.targets)
  | [] => by
      rw [Block.assignSlots, Block.targets]
      exact h
  | s :: rest => by
      rw [Block.assignSlots, Block.targets, addSlots_append]
      exact Block.numbers_assignSlots (Stmt.numbers_assignSlots h s) rest

end

/-- The map after programs, one after the other, numbers the names of the table after them. -/
theorem SlotMap.Numbers.foldl_assignSlots {m : SlotMap} {a : Assembly} (h : m.Numbers a.slots)
    (ps : List Block) :
    (ps.foldl (fun m b => b.assignSlots m) m).Numbers (ps.foldl Assembly.allocateAll a).slots := by
  induction ps generalizing m a with
  | nil => exact h
  | cons b ps ih =>
      refine ih ?_
      rw [Assembly.slots_allocateAll]
      exact Block.numbers_assignSlots h b

/-! ## The numbering -/

/-- The table after a fresh one has gone through programs, one after the other. -/
def Assembly.ofPrograms (ps : List Block) : Assembly :=
  ps.foldl Assembly.allocateAll {}

namespace Assembly

theorem slots_ofPrograms (ps : List Block) :
    (ofPrograms ps).slots = addSlots [] (Block.targets ps.flatten) := by
  rw [ofPrograms, foldl_allocateAll, slots_allocateAll]

theorem nodup_slots (ps : List Block) : (ofPrograms ps).slots.Nodup := by
  rw [slots_ofPrograms]
  exact nodup_addSlots List.nodup_nil

theorem mem_slots_iff {ps : List Block} {x : String} :
    x ∈ (ofPrograms ps).slots ↔ ∃ b ∈ ps, b.Assigns x := by
  rw [slots_ofPrograms, mem_addSlots, ← Block.mem_targets_flatten]
  simp

theorem length_slots (ps : List Block) :
    (ofPrograms ps).slots.length = {x | ∃ b ∈ ps, b.Assigns x}.ncard := by
  have hset : {x | ∃ b ∈ ps, b.Assigns x} = ↑(ofPrograms ps).slots.toFinset := by
    ext x
    simp [mem_slots_iff]
  rw [hset, Set.ncard_coe_finset, List.toFinset_card_of_nodup (nodup_slots ps)]

/-- The order of two slots is the order of the first assignments. -/
theorem slots_lt_iff {ps : List Block} {x y : String} {i j : Nat}
    (hx : (ofPrograms ps).slotOf? x = some i) (hy : (ofPrograms ps).slotOf? y = some j) :
    ∃ p q, Block.FirstAssigned ps.flatten x p ∧ Block.FirstAssigned ps.flatten y q ∧
      (i < j ↔ p < q) := by
  have hidx : ∀ {z k}, (ofPrograms ps).slotOf? z = some k → z ∈ Block.targets ps.flatten ∧
      k = (addSlots [] (Block.targets ps.flatten)).idxOf z := by
    intro z k hz
    have hmem : z ∈ (ofPrograms ps).slots :=
      List.mem_of_getElem? ((slotOf?_eq_some_iff (nodup_slots ps)).1 hz)
    rw [slotOf?_of_mem hmem, slots_ofPrograms] at hz
    exact ⟨Block.mem_targets_flatten.2 (mem_slots_iff.1 hmem), (Option.some.inj hz).symm⟩
  obtain ⟨hx', rfl⟩ := hidx hx
  obtain ⟨hy', rfl⟩ := hidx hy
  obtain ⟨p, q, hp, hq, hlt⟩ := Block.idxOf_targets_lt_iff hx' hy'
  exact ⟨p, q, hp, hq, (idxOf_addSlots_lt_iff hx' hy').trans hlt⟩

/-- **Slots are numbered by first assignment.** Let a fresh table go through any programs, one after
the other. A map with a counter that goes through them block by block has the same slots, and its
counter is the size of the table. The names that have a slot are those that the programs assign
somewhere, at any depth; the slots are the numbers below the size of the table, each that of exactly
one name; so there are as many as there are such names. Of two names the one with the smaller slot
is the one whose first assignment comes first in the text. Slots that have been given stay when the
table goes through more programs, and a program that it has gone through already changes nothing. -/
theorem slots_by_first_assignment (ps : List Block) :
    let a : Assembly := ps.foldl allocateAll {}
    let m : SlotMap := ps.foldl (fun m b => b.assignSlots m) {}
    ((∀ x, m.slotOf? x = a.slotOf? x) ∧ m.next = a.slots.length) ∧
    (∀ x, (∃ n, a.slotOf? x = some n) ↔ ∃ b ∈ ps, b.Assigns x) ∧
    (∀ x n, a.slotOf? x = some n → n < a.slots.length) ∧
    (∀ n < a.slots.length, ∃! x, a.slotOf? x = some n) ∧
    a.slots.length = {x | ∃ b ∈ ps, b.Assigns x}.ncard ∧
    (∀ x y i j, a.slotOf? x = some i → a.slotOf? y = some j →
      ∃ p q, Block.FirstAssigned ps.flatten x p ∧ Block.FirstAssigned ps.flatten y q ∧
        (i < j ↔ p < q)) ∧
    (∀ (later : List Block) (x : String) (n : Nat), a.slotOf? x = some n →
      (later.foldl allocateAll a).slotOf? x = some n) ∧
    ∀ b ∈ ps, a.allocateAll b = a := by
  intro a m
  have hslot : ∀ {x n}, a.slotOf? x = some n ↔ a.slots[n]? = some x :=
    slotOf?_eq_some_iff (nodup_slots ps)
  have hmap : m.Numbers a.slots := SlotMap.Numbers.empty.foldl_assignSlots ps
  refine ⟨⟨hmap.slotOf?_eq, hmap.next⟩, fun x => ?_, fun x n hx => ?_, fun n hn => ?_,
    length_slots ps, fun x y i j => slots_lt_iff,
    fun later x n hx => slotOf?_foldl_allocateAll hx later, fun b hb => ?_⟩
  · rw [← mem_slots_iff, List.mem_iff_getElem?]
    exact exists_congr fun n => hslot
  · exact (List.getElem?_eq_some_iff.1 (hslot.1 hx)).1
  · refine ⟨a.slots[n], hslot.2 (List.getElem?_eq_getElem hn), ?_⟩
    intro y hy
    have hy' := hslot.1 hy
    rw [List.getElem?_eq_getElem hn] at hy'
    exact (Option.some.inj hy').symm
  · refine allocateAll_of_subset fun x hx => ?_
    exact mem_slots_iff.2 ⟨b, hb, Block.mem_targets_iff_assigns.1 hx⟩

/-- Assigns one name on each side of a conditional, and then both. -/
def bothSides : Block :=
  [.cond (.num 0) [.loop (.num 1) [.assign "late" (.num 1)]] [.assign "early" (.num 2)],
   .assign "early" (.num 3), .assign "late" (.num 4)]

/-- Assigns a name that the other program does not, before one that it does. -/
def oneMore : Block :=
  [.loop (.num 0) [.assign "more" (.num 5)], .assign "early" (.num 6)]

/-- The side for the nonzero case comes first, and the second program adds one slot at the end. -/
theorem bothSides_numbered :
    let a : Assembly := [bothSides, oneMore].foldl allocateAll {}
    a.slotOf? "late" = some 0 ∧ a.slotOf? "early" = some 1 ∧ a.slotOf? "more" = some 2 ∧
      (∃ p q, Block.FirstAssigned (bothSides ++ oneMore) "late" p ∧
        Block.FirstAssigned (bothSides ++ oneMore) "early" q ∧ p < q) ∧
      (∃! x, a.slotOf? x = some 2) ∧ a.allocateAll bothSides = a := by
  intro a
  obtain ⟨-, -, -, hunique, -, horder, -, hrepeat⟩ := slots_by_first_assignment [bothSides, oneMore]
  have hlate : a.slotOf? "late" = some 0 := by decide
  have hearly : a.slotOf? "early" = some 1 := by decide
  obtain ⟨p, q, hp, hq, hlt⟩ := horder "late" "early" 0 1 hlate hearly
  refine ⟨hlate, hearly, by decide, ⟨p, q, by simpa using hp, by simpa using hq, ?_⟩,
    hunique 2 (by decide), hrepeat bothSides (by simp)⟩
  exact hlt.1 Nat.zero_lt_one

end Assembly

end WhileLang
