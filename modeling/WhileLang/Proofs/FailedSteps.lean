import WhileLang.Proofs.StepLimit

/-!
# What a failed step leaves behind

A machine that has failed can be looked at. Whatever state it was in, and whatever code it runs, the
failed step has moved nothing and printed nothing: at most it has taken the topmost value from the
operand stack, because some instructions take a value before they find out that they cannot use it.

There is one exception. Opening a frame saves the frame pointer first and makes room for the slots
afterwards. If there can be no frame of that size, the step fails in between, and the machine is
left with a frame begun that was never opened.

* `State.LosesAtMostTop`: a state is as another one was, but for the top of its operand stack.
* `Instr.state_of_fault`: what a failed instruction leaves.
* `State.Prints`: the printer has received what was added to the output;
  `Instr.exec_prints`: what one instruction does to both, `Machine.step_prints`: what one step does,
  `Machine.runFor_prints`: what a whole run does.
* `Machine.failure_leaves_state`: a failed step leaves the machine as it was.
-/

namespace WhileLang

/-! ## Instructions that fail -/

/-- The state `t` is as `s` was, but the topmost value may be gone from the operand stack. -/
structure State.LosesAtMostTop (s t : State) : Prop where
  rest : t = { s with stack := t.stack }
  stack : t.stack = s.stack ∨ ∃ v, s.stack = v :: t.stack

theorem State.LosesAtMostTop.refl (s : State) : s.LosesAtMostTop s :=
  ⟨rfl, .inl rfl⟩

theorem State.LosesAtMostTop.pop {s : State} {v : Int} {rest : List Int} (h : s.stack = v :: rest) :
    s.LosesAtMostTop { s with stack := rest } :=
  ⟨rfl, .inr ⟨v, h⟩⟩

/-- **What a failed instruction leaves.** An instruction that opens a frame saves the frame pointer
before it fails; any other has at most taken one value from the stack. -/
theorem Instr.state_of_fault {setting : Setting} {s t : State} {i : Instr} {f : Fault}
    (h : i.exec setting s = .fault f t) :
    s.LosesAtMostTop t ∨
      ∃ count, i = .enter count ∧ setting.admits count = false ∧ t = s.saveFrame := by
  cases i with
  | halt | literal n | branch d => cases h
  | enter count =>
      right
      simp only [exec] at h
      split at h
      · cases h
      · next hadm =>
          cases h
          exact ⟨count, rfl, by simpa using hadm, rfl⟩
  | exit count =>
      left
      simp only [exec] at h
      split at h <;> cases h
      exact .refl s
  | print | branchIfZero d =>
      left
      simp only [exec] at h
      split at h <;> cases h
      exact .refl s
  | binary op =>
      left
      simp only [exec] at h
      split at h
      · cases h
      · next hstack =>
          cases h
          exact .pop hstack
      · cases h
        exact .refl s
  | getLocal slot =>
      left
      simp only [exec] at h
      split at h
      · cases h
        exact .refl s
      · split at h <;> cases h
        exact .refl s
  | setLocal slot =>
      left
      simp only [exec] at h
      split at h
      · cases h
        exact .refl s
      · split at h
        · cases h
          exact .refl s
        · next hstack =>
            split at h <;> cases h
            exact .pop hstack
  | inputRead =>
      left
      simp only [exec] at h
      split at h
      · cases h
        exact .refl s
      · next hstack =>
          split at h <;> cases h
          exact .pop hstack

/-! ## The printer and the output -/

/-- From `s` to `t` the printer has received what was added to the output, in the same order. -/
def State.Prints (s t : State) : Prop :=
  ∃ vs, t.output = s.output ++ vs ∧ t.printed = s.printed ++ vs

theorem State.Prints.refl (s : State) : s.Prints s :=
  ⟨[], by simp, by simp⟩

theorem State.Prints.trans {s t u : State} (h : s.Prints t) (h' : t.Prints u) : s.Prints u := by
  obtain ⟨vs, hout, hprinted⟩ := h
  obtain ⟨ws, hout', hprinted'⟩ := h'
  exact ⟨vs ++ ws, by simp [hout, hout'], by simp [hprinted, hprinted']⟩

/-- **One instruction** gives the printer what it adds to the output. -/
theorem Instr.exec_prints (setting : Setting) (s : State) (i : Instr) :
    s.Prints (i.exec setting s).state := by
  have hkeep : ∀ t : State, t.output = s.output → t.printed = s.printed → s.Prints t := by
    intro t hout hprinted
    exact ⟨[], by simp [hout], by simp [hprinted]⟩
  cases i with
  | halt | literal n | branch d => exact .refl s
  | print =>
      simp only [exec]
      split
      · next v rest _ => exact ⟨[v], rfl, rfl⟩
      · exact .refl s
  | binary op | branchIfZero d | enter n | exit n =>
      simp only [exec]
      split <;> exact hkeep _ rfl rfl
  | inputRead | getLocal n =>
      simp only [exec]
      split
      · exact .refl s
      · split <;> exact hkeep _ rfl rfl
  | setLocal n =>
      simp only [exec]
      split
      · exact .refl s
      · split
        · exact .refl s
        · split <;> exact hkeep _ rfl rfl

/-! ## Steps and runs -/

/-- The state that a step leaves. -/
def StepResult.state : StepResult → State
  | running t | stopped t | failed _ t => t

namespace Machine

variable {m : Machine} {s t : State}

/-- A step leaves the state as it was, or as the instruction leaves it; apart from that it only
writes down where the machine goes on, how many steps it has taken and whether it has stopped. -/
theorem state_step (m : Machine) (s : State) :
    (m.step s).state = s ∨ ∃ i pc steps halted, m.instrAt? s.pc = some i ∧
      (m.step s).state = { (i.exec m.toSetting s).state with pc, steps, halted } := by
  rcases m.step_cases s with ⟨-, hs⟩ | ⟨-, ⟨-, hs⟩ | ⟨i, hi, ⟨l, -, hs⟩ | ⟨-, hs⟩⟩⟩
  · exact .inl (by rw [hs]; rfl)
  · exact .inl (by rw [hs]; rfl)
  · exact .inl (by rw [hs]; rfl)
  · right
    rcases hs with ⟨f, u, he, hs⟩ | ⟨u, he, hs⟩ | ⟨d, u, he, hs⟩
    · exact ⟨i, u.pc, u.steps, u.halted, hi, by rw [hs, he]; rfl⟩
    · exact ⟨i, u.pc, u.steps + 1, true, hi, by rw [hs, he]; rfl⟩
    · exact ⟨i, u.pc + d, u.steps + 1, u.halted, hi, by rw [hs, he]; rfl⟩

/-- **One step** gives the printer what it adds to the output. -/
theorem step_prints (m : Machine) (s : State) : s.Prints (m.step s).state := by
  rcases m.state_step s with hs | ⟨i, pc, steps, halted, -, hs⟩
  · rw [hs]
    exact .refl s
  · rw [hs]
    exact i.exec_prints m.toSetting s

/-- **A run** gives the printer what it adds to the output, however it ends. -/
theorem runFor_prints (m : Machine) (n : Nat) (s : State) : s.Prints (m.runFor n s).2 := by
  induction n generalizing s with
  | zero => exact .refl s
  | succ n ih =>
      have hstep := m.step_prints s
      rw [runFor]
      cases hs : m.step s with
      | running t =>
          rw [hs] at hstep
          exact hstep.trans (ih t)
      | stopped t => rw [hs] at hstep; exact hstep
      | failed f t => rw [hs] at hstep; exact hstep

/-- What a failed step leaves. -/
theorem state_of_failed {f : Failure} (h : m.step s = .failed f t) :
    s.LosesAtMostTop t ∨ ∃ count, m.instrAt? s.pc = some (.enter count) ∧
      m.admits count = false ∧ t = s.saveFrame := by
  rcases m.step_cases s with ⟨-, hs⟩ | ⟨-, ⟨-, hs⟩ | ⟨i, hi, ⟨l, -, hs⟩ | ⟨-, hs⟩⟩⟩
  · rw [hs] at h; cases h
  · rw [hs] at h; cases h; exact .inl (.refl s)
  · rw [hs] at h; cases h; exact .inl (.refl s)
  · rcases hs with ⟨f, u, he, hs⟩ | ⟨u, -, hs⟩ | ⟨d, u, -, hs⟩
    · rw [hs] at h
      cases h
      rcases Instr.state_of_fault he with hkeep | ⟨count, rfl, hadm, ht⟩
      · exact .inl hkeep
      · exact .inr ⟨count, hi, hadm, ht⟩
    · rw [hs] at h; cases h
    · rw [hs] at h; cases h

/-- **A failed step leaves the machine as it was.** Take any machine in any state. If a step fails,
the program counter, the output, the count of steps and the mark of a stopped machine are as before,
the printer has received nothing, and at most the topmost value is gone from the operand stack. The
frame pointer and the locals are as before too, unless the step was to open a frame of a size that
no frame can have: then the frame pointer has been saved already, and nothing else has changed. And
whatever the machine does from that state on, the printer receives exactly what is added to the
output, in the same order. -/
theorem failure_leaves_state (m : Machine) (s : State) :
    (∀ f t, m.step s = .failed f t →
      (t.pc = s.pc ∧ t.output = s.output ∧ t.steps = s.steps ∧ t.halted = s.halted ∧
        t.printed = s.printed ∧ (t.stack = s.stack ∨ ∃ v, s.stack = v :: t.stack)) ∧
      (t.fp = s.fp ∧ t.locals = s.locals ∨
        ∃ count, m.instrAt? s.pc = some (.enter count) ∧ m.admits count = false ∧
          t.fp = s.locals.length + 1 ∧ t.locals = s.locals ++ [s.fp] ∧ t.stack = s.stack)) ∧
    (∀ n, ∃ vs, (m.runFor n s).2.output = s.output ++ vs ∧
      (m.runFor n s).2.printed = s.printed ++ vs) ∧
    ∀ patience, ∃ vs, (m.run patience s).2.output = s.output ++ vs ∧
      (m.run patience s).2.printed = s.printed ++ vs := by
  refine ⟨?_, fun n => m.runFor_prints n s, fun patience => m.runFor_prints _ _⟩
  intro f t h
  rcases state_of_failed h with hkeep | ⟨count, hi, hadm, rfl⟩
  · have hstack := hkeep.stack
    rw [hkeep.rest]
    exact ⟨⟨rfl, rfl, rfl, rfl, rfl, hstack⟩, .inl ⟨rfl, rfl⟩⟩
  · exact ⟨⟨rfl, rfl, rfl, rfl, rfl, .inl rfl⟩, .inr ⟨count, hi, hadm, rfl, rfl, rfl⟩⟩

/-- A value is to be stored in a slot, but the frame pointer has gone astray. -/
def storeAstray : State :=
  { pc := 1, fp := -5, steps := 9, stack := [7, 8], locals := [0], output := [3], printed := [3] }

/-- The value is lost, and the machine is left as it was otherwise. -/
theorem storeAstray_leaves_state :
    let m : Machine := { code := [.halt, .setLocal 0] }
    ∃ f t, m.step storeAstray = .failed f t ∧ t.stack = [8] ∧ t.fp = -5 ∧ t.locals = [0] ∧
      t.pc = 1 ∧ t.steps = 9 ∧ t.output = [3] ∧ t.printed = [3] := by
  intro m
  refine ⟨_, _, rfl, rfl, ?_⟩
  obtain ⟨⟨⟨hpc, hout, hsteps, -, hprinted, -⟩, hframe⟩, -⟩ :=
    (failure_leaves_state m storeAstray).imp_left fun h => h _ _ rfl
  rcases hframe with ⟨hfp, hlocals⟩ | ⟨count, hi, -⟩
  · exact ⟨hfp, hlocals, hpc, hsteps, hout, hprinted⟩
  · cases hi

/-- Opening a frame of a size that no frame can have fails when the frame pointer is saved already,
and leaves a frame that was not there before. -/
theorem impossible_frame_is_begun :
    let m : Machine := .unlimited [.enter (-9223372036854775809)] []
    ∃ f t, m.step {} = .failed f t ∧ t.fp ≠ ({} : State).fp ∧ t.locals ≠ ({} : State).locals := by
  intro m
  exact ⟨_, _, rfl, by decide, by decide⟩

end Machine

end WhileLang
