import WhileLang.Proofs.Denotation
import WhileLang.Proofs.FailedSteps
import WhileLang.Proofs.StackDepth

/-!
# Values stay in 64 bits

The machine reduces to a word what a literal pushes and what arithmetic gives, and nothing else:
not an argument that is read, not a value that moves between the stack and the locals, not a value
that is printed. So whether all values are words is a question about whole runs. New values come
from literals, operators, arguments and fresh slots, which are words if the arguments are; and from
the frame pointer, which opening a frame puts among the locals.

In compiled code a frame is opened only once, before anything else, so the frame pointer that is
saved there is zero.

* `State.InWords`: all values on the stack, in the locals and in the output are words.
* `State.InWords.exec`: what one instruction keeps, `State.InWords.step`: what one step keeps,
  `Machine.Visits.inWords`: what a run of compiled code keeps.
* `Block.compile_stays_in_words`: the values of compiled code stay in 64 bits.
-/

namespace WhileLang

open Word

/-! ## What one instruction keeps -/

/-- All values on the operand stack, in the locals and in the output are words. -/
structure State.InWords (s : State) : Prop where
  stack : ∀ v ∈ s.stack, IsWord v
  locals : ∀ v ∈ s.locals, IsWord v
  output : ∀ v ∈ s.output, IsWord v

namespace State.InWords

variable {s : State}

theorem withStack (h : s.InWords) {vs : List Int} (hvs : ∀ v ∈ vs, IsWord v) :
    ({ s with stack := vs } : State).InWords :=
  ⟨hvs, h.locals, h.output⟩

theorem push (h : s.InWords) {v : Int} (hv : IsWord v) : (s.push v).InWords :=
  h.withStack (List.forall_mem_cons.2 ⟨hv, h.stack⟩)

/-- The values of a stack below its top are words too. -/
theorem below (h : s.InWords) {v : Int} {rest : List Int} (hs : s.stack = v :: rest) :
    IsWord v ∧ ∀ w ∈ rest, IsWord w := by
  have hstack := h.stack
  rw [hs] at hstack
  exact List.forall_mem_cons.1 hstack

/-- Saving the frame pointer adds a word to the locals if the frame pointer is one. -/
theorem saveFrame (h : s.InWords) (hfp : IsWord s.fp) : s.saveFrame.InWords := by
  refine ⟨h.stack, ?_, h.output⟩
  show ∀ v ∈ s.locals ++ [s.fp], IsWord v
  simpa [or_imp, forall_and, hfp] using h.locals

/-- **One instruction** keeps all values in 64 bits, if the arguments are words and the frame
pointer, which it may save, is one. -/
theorem exec (h : s.InWords) {setting : Setting} (hargs : ∀ a ∈ setting.args, IsWord a)
    (hfp : IsWord s.fp) (i : Instr) : (i.exec setting s).state.InWords := by
  cases i with
  | halt | branch d => exact h
  | literal n => exact h.push (isWord_wrap n)
  | binary op =>
      simp only [Instr.exec]
      split
      · next right left rest hs =>
          have hrest := (List.forall_mem_cons.1 (h.below hs).2).2
          exact h.withStack (List.forall_mem_cons.2 ⟨op.isWord_eval left right, hrest⟩)
      · exact h.withStack (by simp)
      · exact h
  | print =>
      simp only [Instr.exec]
      split
      · next v rest hs =>
          refine ⟨(h.below hs).2, h.locals, ?_⟩
          intro w hw
          rcases List.mem_append.1 hw with hw | hw
          · exact h.output w hw
          · rw [List.mem_singleton.1 hw]
            exact (h.below hs).1
      · exact h
  | enter count =>
      simp only [Instr.exec]
      split
      · refine ⟨h.stack, ?_, h.output⟩
        intro v hv
        rcases List.mem_append.1 hv with hv | hv
        · exact (h.saveFrame hfp).locals v hv
        · rw [List.eq_of_mem_replicate hv]
          decide
      · exact h.saveFrame hfp
  | exit count =>
      simp only [Instr.exec]
      split
      · exact h
      · exact ⟨h.stack, fun v hv => h.locals v (List.mem_of_mem_take hv), h.output⟩
  | getLocal slot =>
      simp only [Instr.exec]
      split
      · exact h
      · split
        · next v hv =>
            obtain ⟨k, -, hk⟩ := Option.bind_eq_some_iff.1 hv
            exact h.push (h.locals v (List.mem_of_getElem? hk))
        · exact h
  | setLocal slot =>
      simp only [Instr.exec]
      split
      · exact h
      · split
        · exact h
        · next v rest hs =>
            split
            · refine ⟨(h.below hs).2, ?_, h.output⟩
              intro w hw
              rcases List.mem_or_eq_of_mem_set hw with hw | rfl
              · exact h.locals w hw
              · exact (h.below hs).1
            · exact h.withStack (h.below hs).2
  | inputRead =>
      simp only [Instr.exec]
      split
      · exact h
      · next index rest hs =>
          split
          · next v hv =>
              exact h.withStack (List.forall_mem_cons.2 ⟨isWord_argument hargs hv, (h.below hs).2⟩)
          · exact h.withStack (h.below hs).2
  | branchIfZero d =>
      simp only [Instr.exec]
      split
      · exact h
      · next v rest hs => exact h.withStack (h.below hs).2

/-- **One step** keeps all values in 64 bits, also if it fails. -/
theorem step (h : s.InWords) {m : Machine} (hargs : ∀ a ∈ m.args, IsWord a)
    (hfp : IsWord s.fp) : (m.step s).state.InWords := by
  rcases m.state_step s with hs | ⟨i, pc, steps, halted, -, hs⟩
  · rw [hs]
    exact h
  · have hexec := h.exec hargs hfp i
    rw [hs]
    exact ⟨hexec.stack, hexec.locals, hexec.output⟩

end State.InWords

/-! ## What a run of compiled code keeps -/

/-- The frame pointer of compiled code is a word: it is one inside the frame, and zero outside. -/
theorem Safe.isWord_fp {b : Block} {s : State} (h : Safe b s) : IsWord s.fp := by
  cases h with
  | entering _ _ hfp => rw [hfp]; decide
  | inside _ _ _ hframe => rw [hframe.fp]; decide
  | leaving _ _ hfp => rw [hfp]; decide

/-- **A run of compiled code** keeps all values in 64 bits. -/
theorem Machine.Visits.inWords {b : Block} {m : Machine} (hcode : m.code = b.programCode)
    (hadm : m.admits b.slotTable.length = true) (hb : Block.refusal? b.slotTable b = none)
    (hargs : ∀ a ∈ m.args, IsWord a) {s : State} (h : m.Visits s) : s.InWords := by
  induction h with
  | start => exact ⟨by simp, by simp, by simp⟩
  | @running s t hs hstep ih | @stopped s t hs hstep ih =>
      have hnext := ih.step hargs (Safe.of_visits hcode hadm hb hs).isWord_fp
      rw [hstep] at hnext
      exact hnext

/-- **Values stay in 64 bits.** Take any state that a fresh machine comes to with the code of a
program, whose literals may have any size, on arguments that are words and under any limit; or the
state in which it fails. Every value on the operand stack, in the locals and in the output is a
word. -/
theorem Block.compile_stays_in_words {b : Block} {a : Assembly} (h : b.compile = .ok a)
    (args : List Int) (hargs : ∀ v ∈ args, IsWord v) (limit : Option CountLimit) :
    let m : Machine := { code := a.code, args := args, stepLimit := limit }
    ∀ s, (m.Visits s ∨ ∃ r f, m.Visits r ∧ m.step r = .failed f s) →
      ∀ v, v ∈ s.stack ∨ v ∈ s.locals ∨ v ∈ s.output → IsWord v := by
  intro m s hs v hv
  obtain ⟨hb, hcode, -⟩ := compile_eq_ok h
  have hadm : m.admits b.slotTable.length = true := by
    simp [m, Setting.admits, least]
  have hwords : s.InWords := by
    rcases hs with hs | ⟨r, f, hr, hstep⟩
    · exact hs.inWords hcode hadm hb hargs
    · have hnext := (hr.inWords hcode hadm hb hargs).step (m := m) hargs
        (Safe.of_visits hcode hadm hb hr).isWord_fp
      rw [hstep] at hnext
      exact hnext
  rcases hv with hv | hv | hv
  · exact hwords.stack v hv
  · exact hwords.locals v hv
  · exact hwords.output v hv

/-- Doubles a literal that is no word, and multiplies by an argument in a loop. -/
def growing : Block :=
  [.assign "x" (.num 36893488147419103231),
   .loop (.num 1)
    [.assign "x" (.bin .mul (.bin .add (.var "x") (.var "x")) (.input (.num 0))),
     .print (.var "x")]]

theorem growing_stays_in_words : ∃ a, growing.compile = .ok a ∧
    ∀ s, Machine.Visits { code := a.code, args := [9223372036854775807] } s →
      (∀ v ∈ s.locals, IsWord v) ∧ ∀ v ∈ s.output, IsWord v := by
  obtain ⟨a, ha⟩ : ∃ a, growing.compile = .ok a := ⟨_, rfl⟩
  refine ⟨a, ha, fun s hs => ?_⟩
  have hwords := Block.compile_stays_in_words ha [9223372036854775807] (by decide) none s (.inl hs)
  exact ⟨fun v hv => hwords v (.inr (.inl hv)), fun v hv => hwords v (.inr (.inr hv))⟩

end WhileLang
