import WhileLang.Proofs.StackDepth

/-!
# The frame pointer, and cells that are not there

A slot is checked against its sign and against the upper end of the locals. That is enough as long
as the frame pointer is not negative. Opening a frame makes it positive, but closing one loads it
from a cell, and the cell is the saved frame pointer only if the frame that is closed is the one
that is open. Code that closes a smaller frame can load any value that it has stored in a slot: the
next slot then names a cell counted from the end, or no cell at all, which the machine does not
notice.

Code that closes no frame but its own keeps the saved frame pointers apart from the slots, so the
frame pointer is never negative, and every access is within the locals.

* `Instr.slot?`: the slot that an instruction uses; `Instr.UsesCell`: the cell that it reads or
  writes.
* `Instr.exec_fault`: why an instruction fails; `Instr.usesCell_of_exec`: the cell that it uses;
  `Instr.locals_cases`: all that it can do to the locals and the frame pointer.
* `Nested`: frames that lie in the locals one inside the other; `Nested.exec`: what one instruction
  does to them, `Machine.Visits.nested`: what a whole run does.
* `Machine.access_within_locals`: what can fail in any code, and what cannot in code that closes its
  own frames; `Block.closesOwnFrames`: compiled code does.
-/

namespace WhileLang

/-! ## Slots and cells -/

namespace Instr

/-- The slot that an instruction uses. -/
def slot? : Instr → Option Int
  | getLocal slot | setLocal slot => some slot
  | _ => none

/-- From `s` to `t`, an instruction uses the cell at position `k`: it pushes what is there, or it
stores there what it pops. -/
def UsesCell (s t : State) (k : Nat) : Instr → Prop
  | getLocal _ =>
    ∃ v, s.locals[k]? = some v ∧ t.stack = v :: s.stack ∧ t.locals = s.locals ∧ t.fp = s.fp
  | setLocal _ => ∃ v, s.stack = v :: t.stack ∧ t.locals = s.locals.set k v ∧ t.fp = s.fp
  | _ => False

end Instr

/-- A slot that passes the check is not negative, and leads to a position below the upper end. -/
theorem State.cell_eq_ok {s : State} {slot index : Int} (h : s.cell slot = .ok index) :
    0 ≤ slot ∧ s.fp + slot < s.locals.length ∧ index = s.fp + slot := by
  unfold State.cell at h
  split at h
  · cases h
  · next hcheck =>
      cases h
      omega

/-- The two ways in which an integer means a cell. -/
theorem position?_eq_some {length k : Nat} {i : Int} (h : position? length i = some k) :
    (k : Int) = i ∨ i < 0 ∧ (k : Int) = i + length := by
  unfold position? at h
  split at h <;> split at h <;> simp only [Option.some.injEq, reduceCtorEq] at h <;> omega

theorem State.hasPlace_of_cell_eq_error {s : State} {slot : Int} {f : Fault}
    (h : s.cell slot = .error f) : f.hasPlace = true := by
  unfold State.cell at h
  split at h
  · cases h; rfl
  · cases h

namespace Instr

variable {setting : Setting} {s t : State} {i : Instr}

/-- Why an instruction fails. The two causes that the machine does not notice itself are a slot that
passes the check and still names no cell, and a frame of a size that no frame can have. -/
theorem exec_fault {f : Fault} (h : i.exec setting s = .fault f t) :
    f.hasPlace = true ∨
      (∃ slot, i.slot? = some slot ∧ 0 ≤ slot ∧ s.fp + slot < -(s.locals.length : Int)) ∨
      ∃ count, i = .enter count ∧ setting.admits count = false := by
  cases i with
  | halt | literal n | branch d => cases h
  | binary op | print | branchIfZero d =>
      left
      simp only [exec] at h
      split at h <;> cases h <;> rfl
  | inputRead =>
      left
      simp only [exec] at h
      split at h
      · cases h; rfl
      · split at h <;> cases h
        rfl
  | enter count =>
      right; right
      simp only [exec] at h
      split at h
      · cases h
      · next hadm => exact ⟨count, rfl, by simpa using hadm⟩
  | exit count =>
      left
      simp only [exec] at h
      split at h <;> cases h
      rfl
  | getLocal slot =>
      simp only [exec] at h
      split at h
      · next hcell => cases h; exact .inl (State.hasPlace_of_cell_eq_error hcell)
      · next index hcell =>
          obtain ⟨h₀, hlt, rfl⟩ := State.cell_eq_ok hcell
          split at h
          · cases h
          · next hnone =>
              right; left
              refine ⟨slot, rfl, h₀, ?_⟩
              cases hp : position? s.locals.length (s.fp + slot) with
              | none =>
                  rcases position?_eq_none_iff.1 hp with hlow | hhigh
                  · exact hlow
                  · omega
              | some k =>
                  rw [hp, Option.bind_some, List.getElem?_eq_none_iff] at hnone
                  have := lt_of_position?_eq_some hp
                  omega
  | setLocal slot =>
      simp only [exec] at h
      split at h
      · next hcell => cases h; exact .inl (State.hasPlace_of_cell_eq_error hcell)
      · next index hcell =>
          obtain ⟨h₀, hlt, rfl⟩ := State.cell_eq_ok hcell
          split at h
          · cases h; exact .inl rfl
          · split at h
            · cases h
            · next hp =>
                right; left
                refine ⟨slot, rfl, h₀, ?_⟩
                rcases position?_eq_none_iff.1 hp with hlow | hhigh
                · exact hlow
                · omega

/-- An instruction that is carried out uses the cell at the frame pointer plus its slot, which is
counted from the end of the locals if it is negative. -/
theorem usesCell_of_exec {effect : Effect} {slot : Int} (hi : i.slot? = some slot)
    (h : i.exec setting s = .done effect t) :
    0 ≤ slot ∧ ∃ k : Nat, k < s.locals.length ∧ i.UsesCell s t k ∧
      ((k : Int) = s.fp + slot ∨ s.fp + slot < 0 ∧ (k : Int) = s.fp + slot + s.locals.length) := by
  cases i with
  | getLocal slot' =>
      obtain rfl : slot' = slot := Option.some.inj hi
      simp only [exec] at h
      split at h
      · cases h
      · next index hcell =>
          obtain ⟨h₀, -, rfl⟩ := State.cell_eq_ok hcell
          split at h
          · next v hv =>
              cases h
              obtain ⟨k, hk, hv⟩ := Option.bind_eq_some_iff.1 hv
              exact ⟨h₀, k, lt_of_position?_eq_some hk, ⟨v, hv, rfl, rfl, rfl⟩,
                position?_eq_some hk⟩
          · cases h
  | setLocal slot' =>
      obtain rfl : slot' = slot := Option.some.inj hi
      simp only [exec] at h
      split at h
      · cases h
      · next index hcell =>
          obtain ⟨h₀, -, rfl⟩ := State.cell_eq_ok hcell
          split at h
          · cases h
          · next v rest hstack =>
              split at h
              · next k hk =>
                  cases h
                  exact ⟨h₀, k, lt_of_position?_eq_some hk, ⟨v, hstack, rfl, rfl⟩,
                    position?_eq_some hk⟩
              · cases h
  | _ => cases hi

/-- All that an instruction can do to the locals and the frame pointer: nothing, store a value in a
cell, open a frame, or close one. -/
theorem locals_cases {effect : Effect} (h : i.exec setting s = .done effect t) :
    (t.locals = s.locals ∧ t.fp = s.fp ∧ ∀ count, i ≠ .enter count ∧ i ≠ .exit count) ∨
    (∃ slot v, ∃ k : Nat, i = .setLocal slot ∧ 0 ≤ slot ∧
      ((k : Int) = s.fp + slot ∨ s.fp + slot < 0) ∧ k < s.locals.length ∧
      t.locals = s.locals.set k v ∧ t.fp = s.fp) ∨
    (∃ count, i = .enter count ∧ t.locals = s.locals ++ s.fp :: List.replicate count.toNat 0 ∧
      t.fp = s.locals.length + 1) ∨
    ∃ count : Nat, i = .exit count ∧ count < s.locals.length ∧
      t.locals = s.locals.take (s.locals.length - (count + 1)) ∧
      t.fp = s.locals.getD (s.locals.length - (count + 1)) 0 := by
  cases i with
  | halt | literal n | branch d => cases h; exact .inl ⟨rfl, rfl, by simp⟩
  | binary op | print | branchIfZero d =>
      simp only [exec] at h
      split at h <;> cases h
      exact .inl ⟨rfl, rfl, by simp⟩
  | inputRead =>
      simp only [exec] at h
      split at h
      · cases h
      · split at h <;> cases h
        exact .inl ⟨rfl, rfl, by simp⟩
  | getLocal slot =>
      obtain ⟨-, k, -, ⟨v, -, -, hlocals, hfp⟩, -⟩ := usesCell_of_exec rfl h
      exact .inl ⟨hlocals, hfp, by simp⟩
  | setLocal slot =>
      obtain ⟨h₀, k, hlt, ⟨v, -, hlocals, hfp⟩, hk⟩ := usesCell_of_exec rfl h
      exact .inr (.inl ⟨slot, v, k, rfl, h₀, hk.imp_right And.left, hlt, hlocals, hfp⟩)
  | enter count =>
      simp only [exec] at h
      split at h <;> cases h
      exact .inr (.inr (.inl ⟨count, rfl, by simp [State.saveFrame], rfl⟩))
  | exit count =>
      simp only [exec] at h
      split at h <;> cases h
      next hcheck =>
        obtain ⟨n, rfl⟩ : ∃ n : Nat, count = n := ⟨count.toNat, by omega⟩
        exact .inr (.inr (.inr ⟨n, rfl, by omega, rfl, rfl⟩))

end Instr

/-! ## Frames inside frames -/

/-- Frames lie in the locals one inside the other, and the pointer is that of the innermost: below
it is the cell in which the pointer of the next one is saved. -/
inductive Nested : List Int → Int → Prop where
  | outer (locals : List Int) : Nested locals 0
  | frame {below : List Int} {saved : Int} (slots : List Int) : Nested below saved →
      Nested (below ++ saved :: slots) (below.length + 1)

namespace Nested

variable {locals : List Int} {fp : Int}

theorem nonneg (h : Nested locals fp) : 0 ≤ fp := by
  cases h with
  | outer => exact Int.le_refl 0
  | frame slots h => omega

/-- Storing a value in a slot leaves the saved frame pointers as they are. -/
theorem set {k : Nat} (h : Nested locals fp) (hk : fp ≤ k) (v : Int) :
    Nested (locals.set k v) fp := by
  cases h with
  | outer => exact .outer _
  | @frame below saved slots h =>
      obtain ⟨j, rfl⟩ : ∃ j, k = below.length + (j + 1) := ⟨k - below.length - 1, by omega⟩
      rw [List.set_append_right _ _ (Nat.le_add_right _ _), Nat.add_sub_cancel_left,
        List.set_cons_succ]
      exact .frame _ h

/-- Closing the innermost frame leaves the next one. -/
theorem close {count : Nat} (h : Nested locals fp) (hlen : (locals.length : Int) = fp + count)
    (hcount : count < locals.length) :
    Nested (locals.take (locals.length - (count + 1)))
      (locals.getD (locals.length - (count + 1)) 0) := by
  cases h with
  | outer => omega
  | @frame below saved slots h =>
      rw [List.length_append, List.length_cons] at hlen
      obtain rfl : count = slots.length := by omega
      have hsaved : (below ++ saved :: slots).length - (slots.length + 1) = below.length := by
        rw [List.length_append, List.length_cons, Nat.add_sub_cancel]
      rw [hsaved, List.take_left, List.getD_eq_getElem?_getD,
        List.getElem?_append_right (Nat.le_refl _), Nat.sub_self]
      exact h

end Nested

/-- **One instruction** keeps the frames one inside the other, if it closes no frame or the
innermost. -/
theorem Nested.exec {setting : Setting} {s t : State} {i : Instr} {effect : Effect}
    (h : Nested s.locals s.fp) (he : i.exec setting s = .done effect t)
    (hclose : ∀ count, i = .exit count → (s.locals.length : Int) = s.fp + count) :
    Nested t.locals t.fp := by
  rcases Instr.locals_cases he with ⟨hlocals, hfp, -⟩ |
    ⟨slot, v, k, -, h₀, hk, -, hlocals, hfp⟩ | ⟨count, -, hlocals, hfp⟩ |
    ⟨count, rfl, hlt, hlocals, hfp⟩
  · rwa [hlocals, hfp]
  · -- the frame pointer is not negative, so the cell is not below it
    have hpos := h.nonneg
    rw [hlocals, hfp]
    exact h.set (by omega) v
  · rw [hlocals, hfp]
    exact .frame _ h
  · rw [hlocals, hfp]
    exact h.close (hclose count rfl) hlt

/-! ## Steps, and runs of code that closes its own frames -/

namespace Machine

variable {m : Machine} {s t : State}

/-- Why a step fails. -/
theorem failed_cases {f : Failure} (h : m.step s = .failed f t) : f.fault.hasPlace = true ∨
    ∃ i, m.instrAt? s.pc = some i ∧
      ((∃ slot, i.slot? = some slot ∧ 0 ≤ slot ∧ s.fp + slot < -(s.locals.length : Int)) ∨
        ∃ count, i = .enter count ∧ m.admits count = false) := by
  rcases step_eq_failed h with hf | ⟨l, hf⟩ | ⟨i, hi, he⟩
  · rw [hf]; exact .inl rfl
  · rw [hf]; exact .inl rfl
  · exact (Instr.exec_fault he).imp_right fun h => ⟨i, hi, h⟩

theorem usesCell_of_step {i : Instr} {slot : Int} (hi : m.instrAt? s.pc = some i)
    (hslot : i.slot? = some slot) (h : m.step s = .running t) :
    0 ≤ slot ∧ ∃ k : Nat, k < s.locals.length ∧ i.UsesCell s t k ∧
      ((k : Int) = s.fp + slot ∨ s.fp + slot < 0 ∧ (k : Int) = s.fp + slot + s.locals.length) := by
  obtain ⟨j, d, u, -, hj, -, he, rfl⟩ := step_eq_running h
  obtain rfl : i = j := Option.some.inj (hi.symm.trans hj)
  obtain ⟨h₀, k, hlt, huse, hk⟩ := Instr.usesCell_of_exec hslot he
  refine ⟨h₀, k, hlt, ?_, hk⟩
  cases i with
  | getLocal _ | setLocal _ => exact huse
  | _ => cases hslot

/-- Whenever the machine closes a frame, it is the one that is open, with all its slots. -/
def ClosesOwnFrames (m : Machine) : Prop :=
  ∀ s count t, m.Visits s → m.instrAt? s.pc = some (.exit count) → m.step s = .running t →
    (s.locals.length : Int) = s.fp + count

/-- **A run** of code that closes its own frames keeps them one inside the other. -/
theorem Visits.nested (hm : m.ClosesOwnFrames) (h : m.Visits s) : Nested s.locals s.fp := by
  induction h with
  | start => exact .outer []
  | @running s t hs hstep ih =>
      obtain ⟨i, d, u, -, hi, -, he, rfl⟩ := step_eq_running hstep
      show Nested u.locals u.fp
      exact ih.exec he fun count hexit => hm s count _ hs (hexit ▸ hi) hstep
  | @stopped s t hs hstep ih =>
      obtain ⟨-, rfl⟩ | ⟨i, u, -, -, -, he, rfl⟩ := step_eq_stopped hstep
      · exact ih
      · show Nested u.locals u.fp
        refine ih.exec he fun count hexit => ?_
        subst hexit
        simp only [Instr.exec] at he
        split at he <;> cases he

/-- **Where accesses can go astray.** In any code, a step fails with a fault of the machine's own,
or because a slot that is not negative leads so far below the locals that there is no cell, or
because no frame can have the size asked for. An instruction that is carried out uses the cell at
the frame pointer plus its slot, counted from the end of the locals if that is negative. If the
code closes its own frames, the frame pointer is never negative, so that none of this happens: only
the size of a frame is left to fail on, and every cell is the one at the frame pointer plus the
slot. -/
theorem access_within_locals (hs : m.Visits s) :
    (∀ f t, m.step s = .failed f t → f.fault.hasPlace = true ∨
      ∃ i, m.instrAt? s.pc = some i ∧
        ((∃ slot, i.slot? = some slot ∧ 0 ≤ slot ∧ s.fp + slot < -(s.locals.length : Int)) ∨
          ∃ count, i = .enter count ∧ m.admits count = false)) ∧
    (∀ i slot t, m.instrAt? s.pc = some i → i.slot? = some slot → m.step s = .running t →
      ∃ k : Nat, k < s.locals.length ∧ i.UsesCell s t k ∧
        ((k : Int) = s.fp + slot ∨ s.fp + slot < 0 ∧ (k : Int) = s.fp + slot + s.locals.length)) ∧
    (m.ClosesOwnFrames →
      0 ≤ s.fp ∧
      (∀ f t, m.step s = .failed f t → f.fault.hasPlace = true ∨
        ∃ count, m.instrAt? s.pc = some (.enter count) ∧ m.admits count = false) ∧
      ∀ i slot t, m.instrAt? s.pc = some i → i.slot? = some slot → m.step s = .running t →
        ∃ k : Nat, (k : Int) = s.fp + slot ∧ k < s.locals.length ∧ i.UsesCell s t k) := by
  refine ⟨fun f t => failed_cases, fun i slot t hi hslot hstep => ?_, fun hm => ?_⟩
  · obtain ⟨-, k, hlt, huse, hk⟩ := usesCell_of_step hi hslot hstep
    exact ⟨k, hlt, huse, hk⟩
  · have hfp : 0 ≤ s.fp := (hs.nested hm).nonneg
    refine ⟨hfp, fun f t hstep => ?_, fun i slot t hi hslot hstep => ?_⟩
    · rcases failed_cases hstep with hplace | ⟨i, hi, ⟨slot, -, h₀, hlow⟩ | ⟨count, rfl, hadm⟩⟩
      · exact .inl hplace
      · omega
      · exact .inr ⟨count, hi, hadm⟩
    · obtain ⟨h₀, k, hlt, huse, hk⟩ := usesCell_of_step hi hslot hstep
      exact ⟨k, by omega, hlt, huse⟩

end Machine

/-- Compiled code closes its own frame, and no other. -/
theorem Block.closesOwnFrames {b : Block} {m : Machine} (hcode : m.code = b.programCode)
    (hadm : m.admits b.slotTable.length = true) (hb : Block.refusal? b.slotTable b = none) :
    m.ClosesOwnFrames := by
  intro s count t hs hi hstep
  cases Safe.of_visits hcode hadm hb hs with
  | entering hpc =>
      rw [hpc] at hi
      simp [Machine.instrAt?, hcode, programCode] at hi
  | leaving hpc =>
      rw [hpc, Machine.instrAt?_natCast, hcode, b.programCode_getElem?] at hi
      simp at hi
  | inside k hpc _ hframe =>
      rw [hpc, Machine.instrAt?_natCast, hcode, b.programCode_getElem?] at hi
      by_cases hk : k < (Block.code b.slotTable b).length
      · -- inside the block nothing closes a frame
        rw [List.getElem?_append_left hk] at hi
        obtain ⟨d, next, -, hnext, -⟩ := consistent_of_accepted hb k _ hi
        cases hnext
      · rw [List.getElem?_append_right (Nat.le_of_not_lt hk)] at hi
        obtain ⟨vs, hvs, hlen⟩ := hframe.locals
        obtain rfl : count = b.slotTable.length := by
          generalize k - (Block.code b.slotTable b).length = j at hi
          rcases j with _ | _ | j
          · simpa using hi.symm
          · simp at hi
          · simp at hi
        rw [hvs, hframe.fp, List.length_cons, hlen]
        omega

/-! ## Two programs -/

/-- Stores a value in a slot and prints it. -/
def storeAndPrint : Block :=
  [.assign "x" (.num 7), .print (.var "x")]

theorem storeAndPrint_within_locals :
    let m : Machine := .unlimited storeAndPrint.programCode []
    let s : State := { pc := 3, fp := 1, steps := 3, locals := [0, 7] }
    m.Visits s ∧ m.ClosesOwnFrames ∧ 0 ≤ s.fp ∧ ∃ t, m.step s = .running t ∧
      ∃ k : Nat, (k : Int) = s.fp + 0 ∧ k < s.locals.length ∧
        (Instr.getLocal 0).UsesCell s t k := by
  intro m s
  have hs : m.Visits s := Machine.Visits.start.runFor (n := 3) rfl
  have hm : m.ClosesOwnFrames := Block.closesOwnFrames rfl rfl rfl
  obtain ⟨hfp, -, huse⟩ := (Machine.access_within_locals hs).2.2 hm
  exact ⟨hs, hm, hfp, _, rfl, huse (.getLocal 0) 0 _ rfl rfl rfl⟩

/-- Closes a frame but not its slot, so that the value stored there becomes the frame pointer, and
reads a slot. -/
def strayFrame (v : Int) : List Instr :=
  [.enter 1, .literal v, .setLocal 0, .exit 0, .getLocal 0, .halt]

/-- A frame pointer that has gone astray leads to a failure which the machine does not notice
itself, or to a cell that is counted from the end of the locals. -/
theorem strayFrame_escapes :
    (∃ s t f, (Machine.unlimited (strayFrame (-5)) []).Visits s ∧
      (Machine.unlimited (strayFrame (-5)) []).step s = .failed f t ∧ f.fault.hasPlace = false) ∧
    ∃ s t, (Machine.unlimited (strayFrame (-1)) []).Visits s ∧
      (Machine.unlimited (strayFrame (-1)) []).instrAt? s.pc = some (.getLocal 0) ∧
      (Machine.unlimited (strayFrame (-1)) []).step s = .running t ∧ s.fp + 0 < 0 := by
  refine ⟨⟨_, _, _, Machine.Visits.start.runFor (n := 4) rfl, rfl, rfl⟩,
    ⟨_, _, Machine.Visits.start.runFor (n := 4) rfl, rfl, rfl, by decide⟩⟩

end WhileLang
