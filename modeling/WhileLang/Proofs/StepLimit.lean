import WhileLang.Proofs.Runs

/-!
# A limit on steps cuts a run short and changes nothing else

A machine with a limit on its steps and one without go through the same states as long as the limit
has not been reached, because the limit is only looked at and never written down. When it is reached
the limited machine fails before the next instruction is executed, unless there is no instruction:
the program counter is looked at first.

So what a limited run comes to can be told from the free one. If that ends early enough, they end
alike. If not, the limited run stands where the free one stood after that many instructions.

* `Machine.withLimit`: the same machine with another limit, or with none.
* `Machine.StandsAfter`, `Machine.HaltsAfter`, `Machine.FailsAfter`: how far a run comes and how it
  ends, with the number of instructions that have been executed.
* `Machine.run_ne_unfinished`: a run with a limit comes to an end.
* `Machine.runFor_withLimit`: runs agree up to the limit.
* `Machine.run_withLimit_of_ended`, `Machine.run_withLimit_of_standsAfter`: what a limited run
  comes to, by what the free one has come to.
* `Machine.run_withLimit_truncates`: a limit is exact truncation.
-/

namespace WhileLang

/-! ## What an instruction leaves alone -/

/-- The state that an instruction leaves. -/
def ExecResult.state : ExecResult → State
  | done _ t => t
  | fault _ t => t

/-- Whether a fault says that the program counter has left the code. -/
def Fault.isOutside : Fault → Bool
  | pcOutside _ => true
  | _ => false

/-- Whether a fault is found before an instruction is executed. -/
def Fault.isEarly : Fault → Bool
  | pcOutside _ | stepLimit _ => true
  | _ => false

/-- A state comes after another by what instructions do: they count no steps, do not stop the
machine by themselves, and take back nothing that was printed. -/
structure State.Follows (s t : State) : Prop where
  steps : t.steps = s.steps
  halted : t.halted = s.halted
  output : s.output <+: t.output

theorem State.cell_eq_error {s : State} {slot : Int} {f : Fault} (h : s.cell slot = .error f) :
    f = .badSlot slot s.fp s.locals.length := by
  unfold State.cell at h
  split at h
  · exact (Except.error.inj h).symm
  · cases h

namespace Instr

variable {setting : Setting} {s : State}

theorem exec_follows (setting : Setting) (s : State) (i : Instr) :
    s.Follows (i.exec setting s).state := by
  have hrefl : ∀ t : State, t.steps = s.steps → t.halted = s.halted → t.output = s.output →
      s.Follows t := by
    intro t hsteps hhalted hout
    exact ⟨hsteps, hhalted, hout ▸ List.prefix_refl _⟩
  cases i with
  | halt | literal n | branch d => exact hrefl _ rfl rfl rfl
  | print =>
      simp only [exec]
      split
      · exact ⟨rfl, rfl, List.prefix_append _ _⟩
      · exact hrefl _ rfl rfl rfl
  | binary op | branchIfZero d | enter n | exit n =>
      simp only [exec]
      split <;> exact hrefl _ rfl rfl rfl
  | inputRead | getLocal n =>
      simp only [exec]
      split
      · exact hrefl _ rfl rfl rfl
      · split <;> exact hrefl _ rfl rfl rfl
  | setLocal n =>
      simp only [exec]
      split
      · exact hrefl _ rfl rfl rfl
      · split
        · exact hrefl _ rfl rfl rfl
        · split <;> exact hrefl _ rfl rfl rfl

/-- An instruction that is executed fails for a reason of its own. -/
theorem isEarly_of_exec {i : Instr} {f : Fault} {t : State}
    (h : i.exec setting s = .fault f t) : f.isEarly = false := by
  cases i with
  | halt | literal n | branch d => cases h
  | print | binary op | branchIfZero d | enter n | exit n =>
      simp only [exec] at h
      split at h <;> cases h <;> rfl
  | inputRead =>
      simp only [exec] at h
      split at h
      · cases h; rfl
      · split at h <;> cases h
        rfl
  | getLocal n =>
      simp only [exec] at h
      split at h
      · next hcell => cases h; rw [State.cell_eq_error hcell]; rfl
      · split at h <;> cases h
        rfl
  | setLocal n =>
      simp only [exec] at h
      split at h
      · next hcell => cases h; rw [State.cell_eq_error hcell]; rfl
      · split at h
        · cases h; rfl
        · split at h <;> cases h
          rfl

theorem isOutside_of_exec {i : Instr} {f : Fault} {t : State}
    (h : i.exec setting s = .fault f t) : f.isOutside = false := by
  have hearly := isEarly_of_exec h
  cases f with
  | pcOutside n => cases hearly
  | _ => rfl

end Instr

/-! ## Runs with the instructions counted -/

namespace Machine

variable {m : Machine} {s t : State} {n k : Nat}

/-- The same machine with another limit, or with none. -/
def withLimit (m : Machine) (limit : Option CountLimit) : Machine :=
  { m with stepLimit := limit }

/-- Started afresh, the machine has executed `k` instructions, has not ended and is in state `t`. -/
def StandsAfter (m : Machine) (k : Nat) (t : State) : Prop :=
  m.runFor k {} = (.unfinished, t)

/-- Started afresh, the machine stops with the `k`-th instruction that it executes. -/
def HaltsAfter (m : Machine) (k : Nat) (s : State) : Prop :=
  ∃ j t, k = j + 1 ∧ m.StandsAfter j t ∧ m.step t = .stopped s

/-- Started afresh, the machine executes `k` instructions and then fails. -/
def FailsAfter (m : Machine) (k : Nat) (f : Failure) (s : State) : Prop :=
  ∃ t, m.StandsAfter k t ∧ m.step t = .failed f s

theorem StandsAfter.runFor_succ (h : m.StandsAfter k t) : m.runFor (k + 1) {} = m.runFor 1 t :=
  reaches_of_runFor h 1

theorem HaltsAfter.runFor (h : m.HaltsAfter k s) : m.runFor k {} = (.halted, s) := by
  obtain ⟨j, t, rfl, ht, hs⟩ := h
  rw [ht.runFor_succ, runFor_of_stopped hs]

theorem FailsAfter.runFor {f : Failure} (h : m.FailsAfter k f s) :
    m.runFor (k + 1) {} = (.failed f, s) := by
  obtain ⟨t, ht, hs⟩ := h
  rw [ht.runFor_succ, runFor_of_failed hs]

/-- A step that goes on has counted one instruction, and has not stopped the machine. -/
theorem follows_of_running (h : m.step s = .running t) :
    t.steps = s.steps + 1 ∧ t.halted = s.halted ∧ s.output <+: t.output := by
  obtain ⟨i, d, u, -, -, -, he, rfl⟩ := step_eq_running h
  have hf := i.exec_follows m.toSetting s
  rw [he] at hf
  exact ⟨congrArg (· + 1) hf.steps, hf.halted, hf.output⟩

/-- As long as a run has not ended, its steps are counted and the machine has not stopped. -/
theorem steps_of_runFor (h : m.runFor n s = (.unfinished, t)) :
    t.steps = s.steps + n ∧ t.halted = s.halted := by
  induction n generalizing s with
  | zero =>
      obtain rfl : s = t := (Prod.mk.inj h).2
      simp
  | succ n ih =>
      rw [Machine.runFor] at h
      cases hs : m.step s with
      | running u =>
          rw [hs] at h
          obtain ⟨hsteps, hhalted, -⟩ := follows_of_running hs
          obtain ⟨hsteps', hhalted'⟩ := ih h
          refine ⟨?_, hhalted'.trans hhalted⟩
          rw [hsteps', hsteps]
          push_cast
          omega
      | stopped u => rw [hs] at h; cases h
      | failed f u => rw [hs] at h; cases h

/-- **A run with a step limit comes to an end**, however little patience there is. -/
theorem run_ne_unfinished {l : CountLimit} (h : m.stepLimit = some l) (patience : Nat) (s : State) :
    (m.run patience s).1 ≠ .unfinished := by
  intro hrun
  have hrun : m.runFor ((l.count - s.steps).toNat + 1) { s with pc := 0 } =
      (.unfinished, (m.run patience s).2) := by
    rw [← hrun]
    simp [run, allowance, h]
  obtain ⟨u, hu, hlast⟩ := exists_of_runFor_add hrun
  have hsteps := (steps_of_runFor hu).1
  -- all the steps that the limit allows have been taken, so the next one cannot be
  obtain ⟨-, -, -, -, -, hleft, -⟩ := step_eq_running (step_of_runFor_one hlast)
  have hexhausted : m.exhausted u = some l := by
    simp only [exhausted, h, Option.filter_some, decide_eq_true_eq]
    rw [if_pos]
    simp only at hsteps
    omega
  cases hexhausted.symm.trans hleft

/-- Whatever a run does, it takes back nothing that was printed. -/
theorem output_prefix_runFor (m : Machine) (n : Nat) (s : State) :
    s.output <+: (m.runFor n s).2.output := by
  induction n generalizing s with
  | zero => exact List.prefix_refl _
  | succ n ih =>
      rw [Machine.runFor]
      rcases m.step_cases s with ⟨-, hs⟩ | ⟨-, ⟨-, hs⟩ | ⟨i, -, ⟨l, -, hs⟩ | ⟨-, hs⟩⟩⟩
      · simp [hs]
      · simp [hs]
      · simp [hs]
      · have hf := i.exec_follows m.toSetting s
        rcases hs with ⟨f, u, he, hs⟩ | ⟨u, he, hs⟩ | ⟨d, u, he, hs⟩
        · rw [he] at hf; rw [hs]; exact hf.output
        · rw [he] at hf; rw [hs]; exact hf.output
        · rw [he] at hf
          rw [hs]
          have hout : s.output <+: u.output := hf.output
          exact hout.trans (ih { u with steps := u.steps + 1, pc := u.pc + d })

/-- Within `n` instructions the machine has stopped or failed, or it has executed them all. -/
theorem standsAfter_or_ended (m : Machine) (n : Nat) :
    (∃ t, m.StandsAfter n t) ∨ (∃ k s, k ≤ n ∧ m.HaltsAfter k s) ∨
      ∃ k f s, k < n ∧ m.FailsAfter k f s := by
  induction n with
  | zero => exact .inl ⟨{}, rfl⟩
  | succ n ih =>
      rcases ih with ⟨t, ht⟩ | ⟨k, s, hk, h⟩ | ⟨k, f, s, hk, h⟩
      · cases hs : m.step t with
        | running u =>
            refine .inl ⟨u, ?_⟩
            show m.runFor (n + 1) {} = _
            rw [ht.runFor_succ, (reaches_of_step hs).runFor]
        | stopped u => exact .inr (.inl ⟨n + 1, u, Nat.le_refl _, n, t, rfl, ht, hs⟩)
        | failed f u => exact .inr (.inr ⟨n, f, u, n.lt_succ_self, t, ht, hs⟩)
      · exact .inr (.inl ⟨k, s, by omega, h⟩)
      · exact .inr (.inr ⟨k, f, s, by omega, h⟩)

/-! ## With and without a limit -/

variable {l : CountLimit}

/-- Before the limit is reached, it does not matter. -/
theorem step_withLimit (h : s.steps < l.count) :
    (m.withLimit (some l)).step s = (m.withLimit none).step s := by
  have hexhausted : (m.withLimit (some l)).exhausted s = none := by
    simp [exhausted, withLimit, h]
  have hfetch : (m.withLimit (some l)).fetch s = (m.withLimit none).fetch s := by
    unfold fetch
    rw [hexhausted, exhausted_of_no_limit rfl]
    rfl
  unfold step
  rw [hfetch]
  rfl

/-- **Runs agree up to the limit.** -/
theorem runFor_withLimit (h : n ≤ (l.count - s.steps).toNat) :
    (m.withLimit (some l)).runFor n s = (m.withLimit none).runFor n s := by
  induction n generalizing s with
  | zero => rfl
  | succ n ih =>
      rw [Machine.runFor, Machine.runFor, step_withLimit (by omega)]
      cases hs : (m.withLimit none).step s with
      | running t =>
          have hsteps := (follows_of_running hs).1
          exact ih (by omega)
      | stopped t => rfl
      | failed f t => rfl

/-- With the limit reached, the machine does not execute an instruction that is there. -/
theorem step_at_limit {i : Instr} (hh : s.halted = false) (h : l.count ≤ s.steps)
    (hi : m.instrAt? s.pc = some i) :
    (m.withLimit (some l)).step s = .failed ⟨.stepLimit l, s.pc, some i⟩ s := by
  have hi' : (m.withLimit (some l)).instrAt? s.pc = some i := hi
  apply step_of_exhausted hh hi'
  simp [exhausted, withLimit, h]

/-- Where there is no instruction, a limit does not matter: this is found out first. -/
theorem step_outside (limit : Option CountLimit) (hh : s.halted = false)
    (hi : m.instrAt? s.pc = none) :
    (m.withLimit limit).step s = .failed ⟨.pcOutside m.code.length, s.pc, none⟩ s := by
  rcases (m.withLimit limit).step_cases s with ⟨hh', -⟩ | ⟨-, ⟨-, hs⟩ | ⟨i, hi', -⟩⟩
  · rw [hh] at hh'; cases hh'
  · exact hs
  · cases hi.symm.trans hi'

/-- A step that fails for want of an instruction has found none. -/
theorem instrAt?_eq_none_of_step {f : Failure} (h : m.step s = .failed f t)
    (hf : f.fault.isOutside = true) : m.instrAt? s.pc = none := by
  rcases m.step_cases s with ⟨-, hs⟩ | ⟨-, ⟨hi, -⟩ | ⟨i, -, ⟨l, -, hs⟩ | ⟨-, hs⟩⟩⟩
  · rw [hs] at h; cases h
  · exact hi
  · rw [hs] at h; cases h; cases hf
  · rcases hs with ⟨f, u, he, hs⟩ | ⟨u, -, hs⟩ | ⟨d, u, -, hs⟩
    · rw [hs] at h
      cases h
      rw [Instr.isOutside_of_exec he] at hf
      cases hf
    · rw [hs] at h; cases h
    · rw [hs] at h; cases h

/-- The instructions that the limit allows, and the step in which it is noticed. -/
theorem run_withLimit (m : Machine) (l : CountLimit) (patience : Nat) :
    (m.withLimit (some l)).run patience {} =
      (m.withLimit (some l)).runFor (l.count.toNat + 1) {} := by
  show (m.withLimit (some l)).runFor ((l.count - 0).toNat + 1) {} = _
  rw [Int.sub_zero]

/-- A run that ends within the limit ends in the same way with it. -/
theorem run_withLimit_of_ended {o : Outcome} (h : (m.withLimit none).runFor n {} = (o, s))
    (ho : o ≠ .unfinished) (hn : n ≤ l.count.toNat) (patience : Nat) :
    (m.withLimit (some l)).run patience {} = (o, s) := by
  have hlimited : (m.withLimit (some l)).runFor n {} = (o, s) := by
    rw [runFor_withLimit (by simpa using hn), h]
  rw [run_withLimit, show l.count.toNat + 1 = n + (l.count.toNat + 1 - n) by omega]
  exact runFor_add_of_ended hlimited ho _

/-- Where the machine stands when the limit is used up, its next step decides. -/
theorem run_withLimit_of_standsAfter (h : (m.withLimit none).StandsAfter l.count.toNat t)
    (patience : Nat) :
    (m.withLimit (some l)).run patience {} = (m.withLimit (some l)).runFor 1 t := by
  have hlimited : (m.withLimit (some l)).StandsAfter l.count.toNat t := by
    show (m.withLimit (some l)).runFor l.count.toNat {} = (.unfinished, t)
    rw [runFor_withLimit (by simp)]
    exact h
  rw [run_withLimit, hlimited.runFor_succ]

/-- **A step limit is exact truncation.** Let the limit allow `N` instructions, where a negative
limit allows none. What the machine does without a limit decides what it does with it: a run that
halts with its `N`-th instruction or before halts all the same, and a run that fails after fewer
than `N` instructions, or after `N` because there is no further instruction, fails all the same.
Any other run is cut off by the limit in the very state in which it stands after `N` instructions,
and what it printed until then is the beginning of what it prints. -/
theorem run_withLimit_truncates (m : Machine) (l : CountLimit) (patience : Nat) :
    (∀ k s, (m.withLimit none).HaltsAfter k s → k ≤ l.count.toNat →
      (m.withLimit (some l)).run patience {} = (.halted, s)) ∧
    (∀ k f s, (m.withLimit none).FailsAfter k f s →
      (k < l.count.toNat ∨ k = l.count.toNat ∧ f.fault.isOutside = true) →
      (m.withLimit (some l)).run patience {} = (.failed f, s)) ∧
    ((∀ k s, (m.withLimit none).HaltsAfter k s → l.count.toNat < k) →
      (∀ k f s, (m.withLimit none).FailsAfter k f s →
        l.count.toNat < k ∨ k = l.count.toNat ∧ f.fault.isOutside = false) →
      ∃ i t, (m.withLimit none).StandsAfter l.count.toNat t ∧ m.instrAt? t.pc = some i ∧
        (m.withLimit (some l)).run patience {} = (.failed ⟨.stepLimit l, t.pc, some i⟩, t) ∧
        t.steps = l.count.toNat ∧
        ∀ n, t.output <+: ((m.withLimit none).runFor (l.count.toNat + n) {}).2.output) := by
  refine ⟨?_, ?_, ?_⟩
  · intro k s h hk
    exact run_withLimit_of_ended h.runFor (by simp) hk patience
  · rintro k f s h (hk | ⟨rfl, hf⟩)
    · exact run_withLimit_of_ended h.runFor (by simp) hk patience
    · obtain ⟨t, ht, hstep⟩ := h
      have hhalted : t.halted = false := (steps_of_runFor ht).2
      have hi : m.instrAt? t.pc = none :=
        instrAt?_eq_none_of_step (m := m.withLimit none) hstep hf
      rw [step_outside none hhalted hi] at hstep
      rw [run_withLimit_of_standsAfter ht, runFor_of_failed (step_outside (some l) hhalted hi)]
      cases hstep
      rfl
  · intro hhalts hfails
    rcases (m.withLimit none).standsAfter_or_ended l.count.toNat with
      ⟨t, ht⟩ | ⟨k, s, hk, h⟩ | ⟨k, f, s, hk, h⟩
    · have hhalted : t.halted = false := (steps_of_runFor ht).2
      have hsteps : t.steps = l.count.toNat := by simpa using (steps_of_runFor ht).1
      cases hi : m.instrAt? t.pc with
      | none =>
          have := hfails _ _ _ ⟨t, ht, step_outside none hhalted hi⟩
          simp [Fault.isOutside] at this
      | some i =>
          refine ⟨i, t, ht, hi, ?_, hsteps, fun n => ?_⟩
          · rw [run_withLimit_of_standsAfter ht]
            exact runFor_of_failed (step_at_limit hhalted (by omega) hi)
          · rw [reaches_of_runFor ht n]
            exact output_prefix_runFor _ n t
    · have := hhalts k s h
      omega
    · have := hfails k f s h
      omega

/-- Prints 7 and stops, with its third instruction. -/
def printSeven : Machine :=
  { code := [.literal 7, .print, .halt], args := [] }

/-- Three instructions are enough for it. After two it has printed, and is cut off. -/
theorem printSeven_truncated :
    (∃ s, (printSeven.withLimit (some ⟨3, "3"⟩)).run 0 {} = (.halted, s) ∧ s.output = [7]) ∧
    ∃ t, (printSeven.withLimit (some ⟨2, "2"⟩)).run 0 {} =
        (.failed ⟨.stepLimit ⟨2, "2"⟩, 2, some .halt⟩, t) ∧ t.output = [7] := by
  refine ⟨⟨_, (run_withLimit_truncates printSeven ⟨3, "3"⟩ 0).1 3 _ ⟨2, _, rfl, rfl, rfl⟩
    (by decide), rfl⟩, ?_⟩
  obtain ⟨i, t, ht, hi, hrun, -, -⟩ := (run_withLimit_truncates printSeven ⟨2, "2"⟩ 0).2.2
    (by
      intro k s h
      have hrun := h.runFor
      rcases k with _ | _ | _ | k
      · cases hrun
      · cases hrun
      · cases hrun
      · simp)
    (by
      rintro k f s h
      have hrun := h.runFor
      rcases k with _ | _ | _ | k
      · cases hrun
      · cases hrun
      · cases hrun
      · simp)
  cases ht
  cases hi
  exact ⟨_, hrun, rfl⟩

end Machine

end WhileLang
