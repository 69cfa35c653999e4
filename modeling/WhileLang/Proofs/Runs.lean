import Mathlib.Tactic.Common
import WhileLang.Machine.Run

/-!
# Runs of the machine

What the proofs about running code have in common: how runs are put together from parts, how they
can end, and which states they pass.

* `Instr.exec_eq_done`: where the machine goes on after an instruction.
* `Machine.Reaches`: the machine gets from one state to another in a number of steps.
* `Machine.Halts`, `Machine.FaultsOnAddress`, `Machine.RunsForever`: how a machine that is started
  afresh behaves, if its steps are not limited. Each excludes the others.
* `Machine.step_cases`: all that a step can do.
* `Machine.Visits`: the states that it comes to on the way, with or without a limit.
-/

namespace WhileLang

/-- Whether a fault is about a slot or an argument that is not there. -/
def Fault.isAddress : Fault → Bool
  | badSlot .. | badArgument .. => true
  | _ => false

/-- An instruction does not move the program counter by itself. If the machine goes on, it does so
at the next position or at the offset of a branch. -/
theorem Instr.exec_eq_done {setting : Setting} {s t : State} {i : Instr} {effect : Effect}
    (h : i.exec setting s = .done effect t) :
    t.pc = s.pc ∧
      ∀ d, effect = .advance d → d = 1 ∨ i = .branch d ∨ i = .branchIfZero d := by
  have next : ∀ d, Effect.advance 1 = .advance d → d = 1 ∨ i = .branch d ∨ i = .branchIfZero d :=
    fun d hd => .inl (Effect.advance.inj hd).symm
  cases i with
  | halt => cases h; exact ⟨rfl, fun d hd => by cases hd⟩
  | literal n => cases h; exact ⟨rfl, next⟩
  | branch e =>
      cases h
      exact ⟨rfl, fun d hd => .inr (.inl (by rw [Effect.advance.inj hd]))⟩
  | branchIfZero e =>
      simp only [exec] at h
      split at h <;> cases h
      split
      · exact ⟨rfl, fun d hd => .inr (.inr (by rw [Effect.advance.inj hd]))⟩
      · exact ⟨rfl, next⟩
  | binary op | print | enter n | exit n =>
      simp only [exec] at h
      split at h <;> cases h
      exact ⟨rfl, next⟩
  | inputRead | getLocal n =>
      simp only [exec] at h
      split at h
      · cases h
      · split at h <;> cases h
        exact ⟨rfl, next⟩
  | setLocal n =>
      simp only [exec] at h
      split at h
      · cases h
      · split at h
        · cases h
        · split at h <;> cases h
          exact ⟨rfl, next⟩

namespace Machine

variable {m : Machine} {s t u : State} {n k : Nat}

/-! ## Putting runs together -/

/-- The machine takes `n` steps from `s` to `t`: what it does from `s` in more than `n` steps is
what it does from `t` in the others. -/
def Reaches (m : Machine) (n : Nat) (s t : State) : Prop :=
  ∀ k, m.runFor (n + k) s = m.runFor k t

theorem Reaches.refl (m : Machine) (s : State) : m.Reaches 0 s s := by
  intro k
  rw [Nat.zero_add]

theorem Reaches.trans (h₁ : m.Reaches n s t) (h₂ : m.Reaches k t u) : m.Reaches (n + k) s u := by
  intro j
  rw [Nat.add_assoc, h₁, h₂]

theorem reaches_of_step (h : m.step s = .running t) : m.Reaches 1 s t := by
  intro k
  rw [Nat.add_comm, runFor, h]

theorem runFor_of_stopped (h : m.step s = .stopped t) : m.runFor 1 s = (.halted, t) := by
  rw [Machine.runFor, h]

theorem runFor_of_failed {f : Failure} (h : m.step s = .failed f t) :
    m.runFor 1 s = (.failed f, t) := by
  rw [Machine.runFor, h]

theorem Reaches.runFor (h : m.Reaches n s t) : m.runFor n s = (.unfinished, t) := h 0

/-- A run that has not ended goes on from where it stands. -/
theorem reaches_of_runFor (h : m.runFor n s = (.unfinished, t)) : m.Reaches n s t := by
  induction n generalizing s with
  | zero =>
      obtain rfl : s = t := (Prod.mk.inj h).2
      exact .refl m s
  | succ n ih =>
      rw [Machine.runFor] at h
      cases hs : m.step s with
      | running u =>
          rw [hs] at h
          rw [Nat.add_comm]
          exact (reaches_of_step hs).trans (ih h)
      | stopped u => rw [hs] at h; cases h
      | failed f u => rw [hs] at h; cases h

/-- A run that has ended stays as it ended, however long one waits. -/
theorem runFor_add_of_ended {o : Outcome} (h : m.runFor n s = (o, t)) (ho : o ≠ .unfinished)
    (k : Nat) : m.runFor (n + k) s = (o, t) := by
  induction n generalizing s with
  | zero =>
      rw [Machine.runFor, Prod.mk.injEq] at h
      exact absurd h.1.symm ho
  | succ n ih =>
      rw [Nat.succ_add]
      rw [Machine.runFor] at h ⊢
      cases hs : m.step s with
      | running s' => rw [hs] at h; exact ih h
      | stopped s' => rw [hs] at h; exact h
      | failed f s' => rw [hs] at h; exact h

/-- A run that has not ended passes all states on the way. -/
theorem exists_of_runFor_add (h : m.runFor (n + k) s = (.unfinished, t)) :
    ∃ u, m.runFor n s = (.unfinished, u) ∧ m.runFor k u = (.unfinished, t) := by
  cases hn : m.runFor n s with
  | mk o u =>
      by_cases ho : o = .unfinished
      · subst ho
        exact ⟨u, rfl, (reaches_of_runFor hn k).symm.trans h⟩
      · rw [runFor_add_of_ended hn ho] at h
        exact absurd (Prod.mk.inj h).1 ho

theorem step_of_runFor_one (h : m.runFor 1 s = (.unfinished, t)) : m.step s = .running t := by
  rw [Machine.runFor] at h
  cases hs : m.step s with
  | running u =>
      rw [hs] at h
      rw [(Prod.mk.inj h).2]
  | stopped u => rw [hs] at h; cases h
  | failed f u => rw [hs] at h; cases h

theorem runFor_unique {o o' : Outcome} (h : m.runFor n s = (o, t)) (ho : o ≠ .unfinished)
    (h' : m.runFor k s = (o', u)) (ho' : o' ≠ .unfinished) : (o, t) = (o', u) := by
  have h₁ := runFor_add_of_ended h ho k
  have h₂ := runFor_add_of_ended h' ho' n
  rw [Nat.add_comm] at h₂
  exact h₁.symm.trans h₂

/-- As long as the machine has steps to take, it is not at an end. -/
theorem Reaches.unfinished_of_le (h : m.Reaches n s t) (hk : k ≤ n) :
    (m.runFor k s).1 = .unfinished := by
  by_contra hne
  cases hr : m.runFor k s with
  | mk o u =>
      rw [hr] at hne
      have h' := runFor_add_of_ended hr hne (n - k)
      rw [Nat.add_sub_cancel' hk, h.runFor] at h'
      exact hne (Prod.mk.inj h').1.symm

/-! ## How runs end -/

/-- A machine with a code and arguments, and no limit to its steps. -/
def unlimited (code : List Instr) (args : List Int) : Machine :=
  { code, args }

/-- Started afresh, the machine comes to a halt, having printed `out`. -/
def Halts (m : Machine) (out : List Int) : Prop :=
  ∃ n s, m.run n {} = (.halted, s) ∧ s.output = out

/-- Started afresh, the machine fails on a slot or an argument that is not there, having printed
`out`. -/
def FaultsOnAddress (m : Machine) (out : List Int) : Prop :=
  ∃ n f s, m.run n {} = (.failed f, s) ∧ f.fault.isAddress = true ∧ s.output = out

/-- Started afresh, the machine runs for ever. -/
def RunsForever (m : Machine) : Prop :=
  ∀ n, (m.run n {}).1 = .unfinished

theorem run_eq_runFor (hm : m.stepLimit = none) (n : Nat) : m.run n {} = m.runFor n {} := by
  simp [run, allowance, hm]

variable {out out' : List Int}

theorem Halts.unique (hm : m.stepLimit = none) (h : m.Halts out) (h' : m.Halts out') :
    out = out' := by
  obtain ⟨n, s, hs, rfl⟩ := h
  obtain ⟨k, t, ht, rfl⟩ := h'
  rw [run_eq_runFor hm] at hs ht
  have := runFor_unique hs (by simp) ht (by simp)
  rw [(Prod.mk.inj this).2]

theorem FaultsOnAddress.unique (hm : m.stepLimit = none) (h : m.FaultsOnAddress out)
    (h' : m.FaultsOnAddress out') : out = out' := by
  obtain ⟨n, f, s, hs, _, rfl⟩ := h
  obtain ⟨k, f', t, ht, _, rfl⟩ := h'
  rw [run_eq_runFor hm] at hs ht
  have := runFor_unique hs (by simp) ht (by simp)
  rw [(Prod.mk.inj this).2]

theorem Halts.not_faultsOnAddress (hm : m.stepLimit = none) (h : m.Halts out) :
    ¬ m.FaultsOnAddress out' := by
  rintro ⟨k, f, t, ht, _, _⟩
  obtain ⟨n, s, hs, _⟩ := h
  rw [run_eq_runFor hm] at hs ht
  have := runFor_unique hs (by simp) ht (by simp)
  exact absurd (Prod.mk.inj this).1 (by simp)

theorem Halts.not_runsForever (h : m.Halts out) : ¬ m.RunsForever := by
  obtain ⟨n, s, hs, _⟩ := h
  intro hr
  have := hr n
  rw [hs] at this
  exact absurd this (by simp)

theorem FaultsOnAddress.not_runsForever (h : m.FaultsOnAddress out) : ¬ m.RunsForever := by
  obtain ⟨n, f, s, hs, _⟩ := h
  intro hr
  have := hr n
  rw [hs] at this
  exact absurd this (by simp)

/-! ## One step -/

theorem instrAt?_natCast (m : Machine) (p : Nat) : m.instrAt? p = m.code[p]? := by
  rw [instrAt?, if_neg (by omega), Int.toNat_natCast]

theorem exhausted_of_no_limit (hm : m.stepLimit = none) (s : State) : m.exhausted s = none := by
  simp [exhausted, hm]

/-- The step of an instruction that goes on elsewhere. -/
theorem step_of_advance {i : Instr} {d : Int} (hs : s.halted = false)
    (hi : m.instrAt? s.pc = some i) (hx : m.exhausted s = none)
    (he : i.exec m.toSetting s = .done (.advance d) t) :
    m.step s = .running { t with steps := t.steps + 1, pc := t.pc + d } := by
  simp [step, fetch, hs, hi, hx, he]

/-- The step of the instruction that stops the machine. -/
theorem step_of_halt (hs : s.halted = false) (hi : m.instrAt? s.pc = some .halt)
    (hx : m.exhausted s = none) :
    m.step s = .stopped { s with steps := s.steps + 1, halted := true } := by
  simp [step, fetch, hs, hi, hx, Instr.exec]

/-- The step of an instruction that fails. -/
theorem step_of_fault {i : Instr} {f : Fault} (hs : s.halted = false)
    (hi : m.instrAt? s.pc = some i) (hx : m.exhausted s = none)
    (he : i.exec m.toSetting s = .fault f t) : m.step s = .failed ⟨f, s.pc, some i⟩ t := by
  simp [step, fetch, hs, hi, hx, he]

/-- A step beyond the limit. -/
theorem step_of_exhausted {i : Instr} {l : CountLimit} (hs : s.halted = false)
    (hi : m.instrAt? s.pc = some i) (hx : m.exhausted s = some l) :
    m.step s = .failed ⟨.stepLimit l, s.pc, some i⟩ s := by
  simp [step, fetch, hs, hi, hx]

/-- All that a step can do: nothing, if the machine has stopped; fail before an instruction is
executed; or whatever the instruction does. -/
theorem step_cases (m : Machine) (s : State) :
    s.halted = true ∧ m.step s = .stopped s ∨
    s.halted = false ∧
      (m.instrAt? s.pc = none ∧ m.step s = .failed ⟨.pcOutside m.code.length, s.pc, none⟩ s ∨
      ∃ i, m.instrAt? s.pc = some i ∧
        ((∃ l, m.exhausted s = some l ∧ m.step s = .failed ⟨.stepLimit l, s.pc, some i⟩ s) ∨
        m.exhausted s = none ∧
          ((∃ f t, i.exec m.toSetting s = .fault f t ∧ m.step s = .failed ⟨f, s.pc, some i⟩ t) ∨
          (∃ t, i.exec m.toSetting s = .done .halt t ∧
            m.step s = .stopped { t with steps := t.steps + 1, halted := true }) ∨
          ∃ d t, i.exec m.toSetting s = .done (.advance d) t ∧
            m.step s = .running { t with steps := t.steps + 1, pc := t.pc + d }))) := by
  cases hh : s.halted with
  | true => exact .inl ⟨rfl, by simp [step, hh]⟩
  | false =>
      refine .inr ⟨rfl, ?_⟩
      cases hi : m.instrAt? s.pc with
      | none => exact .inl ⟨rfl, by simp [step, fetch, hh, hi]⟩
      | some i =>
          refine .inr ⟨i, rfl, ?_⟩
          cases hx : m.exhausted s with
          | some l => exact .inl ⟨l, rfl, step_of_exhausted hh hi hx⟩
          | none =>
              refine .inr ⟨rfl, ?_⟩
              cases he : i.exec m.toSetting s with
              | fault f t => exact .inl ⟨f, t, rfl, step_of_fault hh hi hx he⟩
              | done effect t =>
                  cases effect with
                  | halt => exact .inr (.inl ⟨t, rfl, by simp [step, fetch, hh, hi, hx, he]⟩)
                  | advance d => exact .inr (.inr ⟨d, t, rfl, step_of_advance hh hi hx he⟩)

/-- A step that goes on has executed an instruction. -/
theorem step_eq_running (h : m.step s = .running t) :
    ∃ i d u, s.halted = false ∧ m.instrAt? s.pc = some i ∧ m.exhausted s = none ∧
      i.exec m.toSetting s = .done (.advance d) u ∧
      t = { u with steps := u.steps + 1, pc := u.pc + d } := by
  rcases m.step_cases s with ⟨-, hs⟩ | ⟨hh, ⟨-, hs⟩ | ⟨i, hi, ⟨l, -, hs⟩ | ⟨hx, hs⟩⟩⟩
  · rw [hs] at h; cases h
  · rw [hs] at h; cases h
  · rw [hs] at h; cases h
  · rcases hs with ⟨f, u, -, hs⟩ | ⟨u, -, hs⟩ | ⟨d, u, he, hs⟩
    · rw [hs] at h; cases h
    · rw [hs] at h; cases h
    · rw [hs] at h; exact ⟨i, d, u, hh, hi, hx, he, (StepResult.running.inj h).symm⟩

/-- A step after which the machine stands still has stopped it, unless it stood still before. -/
theorem step_eq_stopped (h : m.step s = .stopped t) :
    s.halted = true ∧ t = s ∨
      ∃ i u, s.halted = false ∧ m.instrAt? s.pc = some i ∧ m.exhausted s = none ∧
        i.exec m.toSetting s = .done .halt u ∧
        t = { u with steps := u.steps + 1, halted := true } := by
  rcases m.step_cases s with ⟨hh, hs⟩ | ⟨hh, ⟨-, hs⟩ | ⟨i, hi, ⟨l, -, hs⟩ | ⟨hx, hs⟩⟩⟩
  · rw [hs] at h; exact .inl ⟨hh, (StepResult.stopped.inj h).symm⟩
  · rw [hs] at h; cases h
  · rw [hs] at h; cases h
  · rcases hs with ⟨f, u, -, hs⟩ | ⟨u, he, hs⟩ | ⟨d, u, -, hs⟩
    · rw [hs] at h; cases h
    · rw [hs] at h; exact .inr ⟨i, u, hh, hi, hx, he, (StepResult.stopped.inj h).symm⟩
    · rw [hs] at h; cases h

/-- A step fails because there is no instruction, because the limit is used up, or because the
instruction fails. -/
theorem step_eq_failed {f : Failure} (h : m.step s = .failed f t) :
    f.fault = .pcOutside m.code.length ∨ (∃ l, f.fault = .stepLimit l) ∨
      ∃ i, m.instrAt? s.pc = some i ∧ i.exec m.toSetting s = .fault f.fault t := by
  rcases m.step_cases s with ⟨-, hs⟩ | ⟨-, ⟨-, hs⟩ | ⟨i, hi, ⟨l, -, hs⟩ | ⟨-, hs⟩⟩⟩
  · rw [hs] at h; cases h
  · rw [hs] at h; cases h; exact .inl rfl
  · rw [hs] at h; cases h; exact .inr (.inl ⟨l, rfl⟩)
  · rcases hs with ⟨f, u, he, hs⟩ | ⟨u, -, hs⟩ | ⟨d, u, -, hs⟩
    · rw [hs] at h; cases h; exact .inr (.inr ⟨i, hi, he⟩)
    · rw [hs] at h; cases h
    · rw [hs] at h; cases h

end Machine

/-! ## States on the way -/

/-- The states that the machine comes to, step by step, when it is started afresh. -/
inductive Machine.Visits (m : Machine) : State → Prop where
  | start : Visits m {}
  | running {s t : State} : Visits m s → m.step s = .running t → Visits m t
  | stopped {s t : State} : Visits m s → m.step s = .stopped t → Visits m t

/-- The machine comes to where a run stands that has not ended. -/
theorem Machine.Visits.runFor {m : Machine} {n : Nat} {s t : State} (h : m.Visits s)
    (hrun : m.runFor n s = (.unfinished, t)) : m.Visits t := by
  induction n generalizing s with
  | zero =>
      cases hrun
      exact h
  | succ n ih =>
      rw [Machine.runFor] at hrun
      cases hs : m.step s with
      | running s' => rw [hs] at hrun; exact ih (h.running hs) hrun
      | stopped s' => rw [hs] at hrun; cases hrun
      | failed f s' => rw [hs] at hrun; cases hrun

/-- What holds of the fresh state and is kept by every step holds of all states on the way. -/
theorem Machine.Visits.invariant {m : Machine} {P : State → Prop} (hstart : P {})
    (hrunning : ∀ {s t}, P s → m.step s = .running t → P t)
    (hstopped : ∀ {s t}, P s → m.step s = .stopped t → P t) {s : State} (h : m.Visits s) :
    P s := by
  induction h with
  | start => exact hstart
  | running _ hstep ih => exact hrunning ih hstep
  | stopped _ hstep ih => exact hstopped ih hstep

end WhileLang
