import WhileLang.Proofs.Relocation
import WhileLang.Proofs.StackDepth
import WhileLang.Proofs.StepLimit
import WhileLang.Proofs.StraightLine

/-!
# Loop-free programs run in one pass

The only branch that leads back is the last one of a loop. Without loops every branch leads
forward, also around a body or an alternative that is empty, so the program counter only grows. It
cannot leave the code, and so the run is over after as many steps as there are instructions.

The number of steps is counted by the machine itself, which turns the argument into an invariant:
as long as the machine has not stopped, it has taken no more steps than its program counter says,
and exactly as many if there are no branches at all.

* `Stmt.LoopFree`, `Block.LoopFree`: no loop stands inside.
* `LeadsForward`: all branches of a code lead forward; `Block.leadsForward`: those of a loop-free
  block do.
* `Machine.pc_of_running`: how one step moves the program counter.
* `Machine.Visits.steps_le_pc`, `Machine.Visits.pc_eq_steps`: what a run does to it.
* `Block.compile_one_pass`: loop-free programs run in one pass.
-/

namespace WhileLang

/-! ## Programs without loops -/

mutual

/-- No loop stands inside the statement. -/
def Stmt.LoopFree : Stmt → Prop
  | .cond _ b o => Block.LoopFree b ∧ Block.LoopFree o
  | .loop _ _ => False
  | _ => True

/-- No loop stands inside the block. -/
def Block.LoopFree : Block → Prop
  | [] => True
  | s :: rest => s.LoopFree ∧ Block.LoopFree rest

end

/-- All branches of a code lead forward. -/
def LeadsForward (code : List Instr) : Prop :=
  ∀ i ∈ code, ∀ d, i.offset? = some d → 0 < d

namespace LeadsForward

variable {i : Instr} {c c₁ c₂ : List Instr}

theorem append (h₁ : LeadsForward c₁) (h₂ : LeadsForward c₂) : LeadsForward (c₁ ++ c₂) := by
  intro i hi
  rcases List.mem_append.1 hi with hi | hi
  · exact h₁ i hi
  · exact h₂ i hi

theorem cons (hi : ∀ d, i.offset? = some d → 0 < d) (hc : LeadsForward c) :
    LeadsForward (i :: c) :=
  List.forall_mem_cons.2 ⟨hi, hc⟩

/-- Code without branches. -/
theorem of_forall (h : ∀ i ∈ c, i.offset? = none) : LeadsForward c := by
  intro i hi d hd
  rw [h i hi] at hd
  cases hd

/-- Both branches of a conditional lead forward, however short its two sides are. -/
theorem condCode {test body orelse : List Instr} (htest : ∀ i ∈ test, i.offset? = none)
    (hbody : LeadsForward body) (horelse : LeadsForward orelse) :
    LeadsForward (condCode test body orelse) := by
  refine (of_forall htest).append (.cons ?_ (hbody.append (.cons ?_ horelse)))
  · intro d hd
    obtain rfl : (body.length + 2 : Int) = d := Option.some.inj hd
    omega
  · intro d hd
    obtain rfl : (orelse.length + 1 : Int) = d := Option.some.inj hd
    omega

end LeadsForward

/-- An assignment or a print has no branches. -/
theorem Stmt.offset?_of_isSimple {slots : List String} {s : Stmt} (hs : s.IsSimple) :
    ∀ i ∈ s.code slots, i.offset? = none := by
  cases s with
  | assign x e | print e =>
      intro i hi
      rw [Stmt.code] at hi
      rcases List.mem_append.1 hi with hi | hi
      · exact Expr.offset?_of_mem_code i hi
      · rw [List.mem_singleton.1 hi]
        rfl
  | cond t b o | loop t b | stray d => cases hs

mutual

theorem Stmt.leadsForward (slots : List String) :
    ∀ s : Stmt, s.LoopFree → LeadsForward (s.code slots)
  | .assign x e, _ => .of_forall (Stmt.offset?_of_isSimple trivial)
  | .print e, _ => .of_forall (Stmt.offset?_of_isSimple trivial)
  | .cond t b o, h => by
      rw [Stmt.LoopFree] at h
      rw [Stmt.code]
      exact .condCode Expr.offset?_of_mem_code (Block.leadsForward slots b h.1)
        (Block.leadsForward slots o h.2)
  | .loop t b, h => by
      rw [Stmt.LoopFree] at h
      exact h.elim
  | .stray d, _ => by
      rw [Stmt.code]
      exact .of_forall (by simp)

/-- The branches of a loop-free block lead forward. -/
theorem Block.leadsForward (slots : List String) :
    ∀ b : Block, b.LoopFree → LeadsForward (Block.code slots b)
  | [], _ => by
      rw [Block.code]
      exact .of_forall (by simp)
  | s :: rest, h => by
      rw [Block.LoopFree] at h
      rw [Block.code]
      exact (s.leadsForward slots h.1).append (Block.leadsForward slots rest h.2)

end

/-- A straight-line block has no branches. -/
theorem Block.offset?_of_straightLine {slots : List String} {b : Block} (hb : b.StraightLine) :
    ∀ i ∈ Block.code slots b, i.offset? = none := by
  induction b with
  | nil => simp [Block.code]
  | cons s rest ih =>
      obtain ⟨hs, hrest⟩ := List.forall_mem_cons.1 hb
      rw [Block.code]
      intro i hi
      rcases List.mem_append.1 hi with hi | hi
      · exact Stmt.offset?_of_isSimple hs i hi
      · exact ih hrest i hi

/-- The branches of a whole program are those of its block. -/
theorem Block.mem_code_of_offset? {b : Block} {i : Instr} {d : Int} (hi : i ∈ b.programCode)
    (hd : i.offset? = some d) : i ∈ Block.code b.slotTable b := by
  rcases List.mem_cons.1 hi with rfl | hi
  · cases hd
  · rcases List.mem_append.1 hi with hi | hi
    · exact hi
    · simp only [List.mem_cons, List.not_mem_nil, or_false] at hi
      rcases hi with rfl | rfl <;> cases hd

theorem Block.leadsForward_programCode {b : Block} (hb : b.LoopFree) :
    LeadsForward b.programCode := by
  intro i hi d hd
  exact b.leadsForward b.slotTable hb i (mem_code_of_offset? hi hd) d hd

theorem Block.offset?_programCode_of_straightLine {b : Block} (hb : b.StraightLine) :
    ∀ i ∈ b.programCode, i.offset? = none := by
  intro i hi
  by_contra hne
  obtain ⟨d, hd⟩ := Option.ne_none_iff_exists'.1 hne
  exact hne (offset?_of_straightLine hb i (mem_code_of_offset? hi hd))

/-! ## What one step does to the program counter -/

namespace Machine

variable {m : Machine} {s t : State}

/-- **One step** moves the program counter to the next position, or by the offset of a branch. -/
theorem pc_of_running (h : m.step s = .running t) :
    ∃ d, t.pc = s.pc + d ∧ (d = 1 ∨ ∃ i ∈ m.code, i.offset? = some d) := by
  obtain ⟨i, d, u, -, hi, -, he, rfl⟩ := step_eq_running h
  obtain ⟨hpc, hd⟩ := Instr.exec_eq_done he
  have hmem : i ∈ m.code := by
    unfold instrAt? at hi
    split at hi
    · cases hi
    · exact List.mem_of_getElem? hi
  refine ⟨d, congrArg (· + d) hpc, ?_⟩
  rcases hd d rfl with hd | rfl | rfl
  · exact .inl hd
  · exact .inr ⟨_, hmem, rfl⟩
  · exact .inr ⟨_, hmem, rfl⟩

/-- The step that stops the machine leaves the program counter where it is. -/
theorem pc_of_stopped (h : m.step s = .stopped t) : t.pc = s.pc := by
  rcases step_eq_stopped h with ⟨-, rfl⟩ | ⟨i, u, -, -, -, he, rfl⟩
  · rfl
  · exact (Instr.exec_eq_done he).1

theorem pc_lt_of_running (hm : LeadsForward m.code) (h : m.step s = .running t) :
    s.pc < t.pc := by
  obtain ⟨d, hpc, rfl | ⟨i, hi, hd⟩⟩ := pc_of_running h
  · omega
  · have := hm i hi d hd
    omega

/-- A step that fails under no limit does not fail because of one. -/
theorem ne_stepLimit_of_failed {f : Failure} (hm : m.stepLimit = none)
    (h : m.step s = .failed f t) (l : CountLimit) : f.fault ≠ .stepLimit l := by
  rcases m.step_cases s with ⟨-, hs⟩ | ⟨-, ⟨-, hs⟩ | ⟨i, -, ⟨l', hx, -⟩ | ⟨-, hs⟩⟩⟩
  · rw [hs] at h; cases h
  · rw [hs] at h; cases h; simp
  · rw [exhausted_of_no_limit hm] at hx; cases hx
  · rcases hs with ⟨f, u, he, hs⟩ | ⟨u, -, hs⟩ | ⟨d, u, -, hs⟩
    · rw [hs] at h
      cases h
      rintro rfl
      cases Instr.isEarly_of_exec he
    · rw [hs] at h; cases h
    · rw [hs] at h; cases h

/-! ## What a run does to the program counter -/

/-- What holds of the fresh state and is kept by every step that goes on holds until the machine
stops. -/
theorem Visits.until_stopped {P : State → Prop} (hstart : P {})
    (hrunning : ∀ {s t}, P s → m.step s = .running t → P t) (h : m.Visits s)
    (hs : s.halted = false) : P s := by
  refine Visits.invariant (P := fun s => s.halted = false → P s) (fun _ => hstart) ?_ ?_ h hs
  · intro s t ih hstep ht
    obtain ⟨-, hhalted, -⟩ := follows_of_running hstep
    exact hrunning (ih (hhalted.symm.trans ht)) hstep
  · intro s t ih hstep ht
    rcases step_eq_stopped hstep with ⟨-, rfl⟩ | ⟨i, u, -, -, -, -, rfl⟩
    · exact ih ht
    · cases ht

/-- If all branches lead forward, no more steps have been taken than the program counter says. -/
theorem Visits.steps_le_pc (hm : LeadsForward m.code) (h : m.Visits s) (hs : s.halted = false) :
    s.steps ≤ s.pc := by
  refine until_stopped (P := fun s => s.steps ≤ s.pc) (Int.le_refl 0) ?_ h hs
  intro s t ih hstep
  have hsteps := (follows_of_running hstep).1
  have hpc := pc_lt_of_running hm hstep
  omega

/-- If there are no branches, the program counter says how many steps have been taken. -/
theorem Visits.pc_eq_steps (hm : ∀ i ∈ m.code, i.offset? = none) (h : m.Visits s)
    (hs : s.halted = false) : s.pc = s.steps := by
  refine until_stopped (P := fun s => s.pc = s.steps) rfl ?_ h hs
  intro s t ih hstep
  have hsteps := (follows_of_running hstep).1
  obtain ⟨d, hpc, rfl | ⟨i, hi, hd⟩⟩ := pc_of_running hstep
  · omega
  · rw [hm i hi] at hd
    cases hd

theorem pc_of_event? {e : Event} (h : m.event? s = some e) : e.pc = s.pc := by
  unfold event? at h
  split at h
  · cases h
  · split at h <;> cases h
    rfl

/-- If all branches lead forward, the instructions that are executed stand in the order in which
they are executed. -/
theorem events_ascending (hm : LeadsForward m.code) (n : Nat) (s : State) :
    (∀ e ∈ m.events n s, s.pc ≤ e.pc) ∧
      (m.events n s).Pairwise fun e e' => e.pc < e'.pc := by
  induction n generalizing s with
  | zero => exact ⟨by simp [events], .nil⟩
  | succ n ih =>
      have hfirst : ∀ e ∈ (m.event? s).toList, e.pc = s.pc := by
        intro e he
        exact pc_of_event? (Option.mem_toList.1 he)
      have hsingle : (m.event? s).toList.Pairwise fun e e' => e.pc < e'.pc := by
        cases m.event? s <;> simp
      rw [events]
      cases hs : m.step s with
      | running t =>
          obtain ⟨hle, hpair⟩ := ih t
          have hlt := pc_lt_of_running hm hs
          constructor
          · intro e he
            rcases List.mem_append.1 he with he | he
            · exact Int.le_of_eq (hfirst e he).symm
            · have := hle e he
              omega
          · refine List.pairwise_append.2 ⟨hsingle, hpair, ?_⟩
            intro e he e' he'
            have := hfirst e he
            have := hle e' he'
            omega
      | stopped t | failed f t =>
          rw [List.append_nil]
          exact ⟨fun e he => Int.le_of_eq (hfirst e he).symm, hsingle⟩

end Machine

/-! ## The theorem -/

/-- **Loop-free programs run in one pass.** Take a program without loops that is compiled, and any
arguments. Every step before the last moves the program counter forward, and no instruction is
executed twice. The run ends after at most as many steps as the code has instructions: it halts, or
fails at the reading of an argument that is not there. Without conditionals, a run that halts takes
exactly as many steps as the code has instructions. -/
theorem Block.compile_one_pass {b : Block} {a : Assembly} (h : b.compile = .ok a)
    (hloop : b.LoopFree) (args : List Int) :
    let m := Machine.unlimited a.code args
    (∀ s t, m.Visits s → m.step s = .running t → s.pc < t.pc) ∧
    (∀ n, ((m.runEvents n {}).map (·.pc)).Nodup) ∧
    ((∃ k s, k ≤ a.code.length ∧ m.HaltsAfter k s) ∨
      ∃ k f s, k < a.code.length ∧ m.FailsAfter k f s ∧ f.instr = some .inputRead ∧
        ∃ index, f.fault = .badArgument index args.length) ∧
    (b.StraightLine → ∀ k s, m.HaltsAfter k s → k = a.code.length) := by
  intro m
  obtain ⟨hb, hcode, -⟩ := compile_eq_ok h
  have hm : m.code = b.programCode := hcode
  have hadm : m.admits b.slotTable.length = true := by
    simp [m, Machine.unlimited, Setting.admits, Word.least]
  have hforward : LeadsForward m.code := hm ▸ leadsForward_programCode hloop
  have hsafe : ∀ {k t}, m.StandsAfter k t → Safe b t := fun ht =>
    .of_visits hm hadm hb (Machine.Visits.start.runFor ht)
  refine ⟨fun s t _ => Machine.pc_lt_of_running hforward, ?_, ?_, ?_⟩
  · intro n
    have hpair := (m.events_ascending hforward (m.allowance n {}) {}).2
    exact List.pairwise_map.2 (hpair.imp fun hlt => Int.ne_of_lt hlt)
  · rcases m.standsAfter_or_ended a.code.length with ⟨t, ht⟩ | hhalts | ⟨k, f, s, hk, hfails⟩
    · -- the program counter would have left the code
      obtain ⟨hsteps, hhalted⟩ := Machine.steps_of_runFor ht
      have hle := (Machine.Visits.start.runFor ht).steps_le_pc hforward hhalted
      have hlt := (hsafe ht).pc_lt.2
      rw [← hcode] at hlt
      simp only [Int.zero_add] at hsteps
      omega
    · exact .inl hhalts
    · obtain ⟨t, ht, hstep⟩ := hfails
      have hkeep := (hsafe ht).step hm hadm hb
      rw [hstep] at hkeep
      rcases hkeep with ⟨hread, hfault⟩ | ⟨l, hl⟩
      · exact .inr ⟨k, f, s, hk, ⟨t, ht, hstep⟩, hread, hfault⟩
      · exact absurd hl (Machine.ne_stepLimit_of_failed rfl hstep l)
  · rintro hstraight k s ⟨j, t, rfl, ht, hstep⟩
    have hplain : ∀ i ∈ m.code, i.offset? = none :=
      hm ▸ offset?_programCode_of_straightLine hstraight
    obtain ⟨hsteps, hhalted⟩ := Machine.steps_of_runFor ht
    have hpc := (Machine.Visits.start.runFor ht).pc_eq_steps hplain hhalted
    -- a machine that has stopped stands at the last instruction, as it did before it stopped
    have hkeep := (hsafe ht).step hm hadm hb
    rw [hstep] at hkeep
    have hlast := (hkeep.1.halted hkeep.2).2.2.2
    rw [← hcode, Machine.pc_of_stopped hstep] at hlast
    simp only [Int.zero_add] at hsteps
    omega

/-- Prints an argument that is not zero; otherwise chooses between two ways to do nothing. -/
def printUnlessZero : Block :=
  [.cond (.input (.num 0)) [.print (.input (.num 0))] [.cond (.num 0) [] []]]

/-- Prints the successor of an argument. -/
def printSuccessor : Block :=
  [.assign "x" (.input (.num 0)), .print (.bin .add (.var "x") (.num 1))]

/-- On any arguments the conditionals are through after thirteen steps at most, whichever way they
go; the straight-line program takes exactly ten. -/
theorem printUnlessZero_one_pass :
    (∃ a, printUnlessZero.compile = .ok a ∧ printUnlessZero.LoopFree ∧ ∀ args,
      (∃ k s, k ≤ 13 ∧ (Machine.unlimited a.code args).HaltsAfter k s) ∨
        ∃ k f s, k < 13 ∧ (Machine.unlimited a.code args).FailsAfter k f s ∧
          f.instr = some .inputRead) ∧
    ∃ a, printSuccessor.compile = .ok a ∧ printSuccessor.StraightLine ∧
      ∀ k s, (Machine.unlimited a.code [41]).HaltsAfter k s → k = 10 := by
  have hfree : printUnlessZero.LoopFree ∧ printSuccessor.LoopFree := by
    simp [printUnlessZero, printSuccessor, Block.LoopFree, Stmt.LoopFree]
  have hstraight : printSuccessor.StraightLine := by
    simp [printSuccessor, Block.StraightLine, Stmt.IsSimple]
  constructor
  · obtain ⟨a, ha, hcode⟩ := Block.compile_of_accepted (b := printUnlessZero) rfl
    have hlen : a.code.length = 13 := by rw [hcode]; rfl
    refine ⟨a, ha, hfree.1, fun args => ?_⟩
    have hends := (Block.compile_one_pass ha hfree.1 args).2.2.1
    rw [hlen] at hends
    rcases hends with hhalts | ⟨k, f, s, hk, hfails, hread, -⟩
    · exact .inl hhalts
    · exact .inr ⟨k, f, s, hk, hfails, hread⟩
  · obtain ⟨a, ha, hcode⟩ := Block.compile_of_accepted (b := printSuccessor) rfl
    have hlen : a.code.length = 10 := by rw [hcode]; rfl
    refine ⟨a, ha, hstraight, fun k s hk => ?_⟩
    rw [← hlen]
    exact (Block.compile_one_pass ha hfree.2 [41]).2.2.2 hstraight k s hk

end WhileLang
