import Mathlib.Tactic.NormNum
import WhileLang.Pipeline.Passes
import WhileLang.Proofs.PassRuns
import WhileLang.Proofs.StepLimit

/-!
# Runs of the pipeline under different options

What is asked of the optimizer must not show in what is said about the program as given. Two
sessions that differ in the options for optimization only are taken through the passes side by side:
the passes that are run first do not look at these options, and those that are run last leave alone
what the others have found. The clock is looked at by the optimizer only, so it may show something
else for each of the two.

* `Session.codeResult`: what running code comes to; `Session.runCode_spec`: the rest are reports.
* `Session.Twin`: sessions that differ in the options for optimization only;
  `Session.Twin.compilePass`, `Session.Twin.runPass`: the first passes do the same to twins.
* `Session.Leaves`: what the first passes have found is still there.
* `Session.Declines`: optimization is left out; `Session.AllSet`, `Session.AllNone`: what there is,
  or is not, of the optimized program.
-/

namespace WhileLang

/-! ## What running code does to a session -/

/-- The options for optimization. -/
def optimizerOptions : List String :=
  ["optimize", "iteration_limit", "strict_budget", "inline_literals"]

namespace Session

/-- The sessions differ in what was echoed and traced only. -/
inductive Reported (s : Session) : Session → Prop where
  | intro (echoed : String) (trace : Option String) : Reported s { s with echoed, trace }

namespace Reported

variable {s t u : Session}

theorem refl (s : Session) : Reported s s := .intro s.echoed s.trace

theorem trans (h : Reported s t) (h' : Reported t u) : Reported s u := by
  cases h with
  | intro => cases h' with
    | intro echoed trace => exact .intro echoed trace

theorem echoLine (h : Reported s t) (line : String) : Reported s (t.echoLine line) := by
  refine h.trans ?_
  unfold Session.echoLine
  by_cases he : t.echo = true
  · rw [if_pos he]
    exact .intro _ t.trace
  · rw [if_neg he]
    exact .refl t

theorem echoLines (h : Reported s t) (vs : List Int) :
    Reported s (vs.foldl (fun s v => s.echoLine (toString v)) t) := by
  induction vs generalizing t with
  | nil => exact h
  | cons v vs ih => exact ih (h.echoLine _)

theorem traced (h : Reported s t) (trace : Option String) :
    Reported s { t with trace } :=
  h.trans (.intro t.echoed trace)

end Reported

/-- What a run of code comes to, the reports apart. -/
def codeResult (s : Session) (code : List Instr) (patience : Nat) : Except PassError State :=
  match s.checkTraceFile, s.stepLimit with
  | .error e, _ => .error (.option e)
  | .ok _, .error e => .error (.option e)
  | .ok _, .ok stepLimit =>
    match ({ code, args := s.args, stepLimit } : Machine).run patience {} with
    | (.failed f, _) => .error (.machine f)
    | (.unfinished, _) => .error .unfinished
    | (.halted, final) => .ok final

/-- Running code reports something, and comes to a result that does not depend on the reports. -/
theorem runCode_spec (s : Session) (code : List Instr) (title : String) (patience : Nat) :
    ∃ t, Reported s t ∧ s.runCode code title patience = (t, s.codeResult code patience) := by
  have h := ((((Reported.refl s).echoLine title).echoLine "--- Compiled bytecode: ---").echoLine
    (listing code)).echoLine "--- Results: ---"
  unfold runCode
  dsimp only
  generalize (((s.echoLine title).echoLine "--- Compiled bytecode: ---").echoLine
    (listing code)).echoLine "--- Results: ---" = t at h ⊢
  have hsame : s.codeResult code patience = t.codeResult code patience := by
    cases h with
    | intro => rfl
  rw [hsame, codeResult]
  cases t.checkTraceFile with
  | error e => exact ⟨t, h, rfl⟩
  | ok _ =>
      cases t.stepLimit with
      | error e => exact ⟨_, h.traced _, rfl⟩
      | ok stepLimit =>
          dsimp only
          generalize ({ code, args := t.args, stepLimit } : Machine).trace patience {} = trace
          obtain ⟨outcome, final⟩ := ({ code, args := t.args, stepLimit } : Machine).run patience {}
          have hprinted := h.echoLines final.printed
          dsimp only
          generalize final.printed.foldl (fun s v => s.echoLine (toString v)) t = u at hprinted ⊢
          have htraced : Reported s (if u.tracing then { u with trace := some trace } else u) := by
            split
            · exact hprinted.traced _
            · exact hprinted
          cases outcome with
          | failed f => exact ⟨_, htraced, rfl⟩
          | unfinished => exact ⟨_, htraced, rfl⟩
          | halted => exact ⟨_, htraced.echoLine _, rfl⟩

/-! ## The passes that are run first -/

/-- The sessions differ in the options for optimization, in what is known of the optimized program
and in the reports at most. -/
structure Twin (s t : Session) : Prop where
  program : s.program = t.program
  args : s.args = t.args
  tracing : s.tracing = t.tracing
  given : s.given = t.given
  metadata : s.metadata = t.metadata
  options : Record.AgreeBut optimizerOptions s.options t.options

namespace Twin

variable {s s' t t' : Session}

theorem of_create {program : Block} {args : List Datum} {options options' : Record}
    {tracing : Bool} (h : Record.AgreeBut optimizerOptions options options')
    (hs : Session.create program args options tracing = .ok s)
    (ht : Session.create program args options' tracing = .ok t) : Twin s t := by
  unfold Session.create at hs ht
  cases ha : args.mapM Datum.toInt with
  | error e => rw [ha] at hs; cases hs
  | ok as =>
      rw [ha] at hs ht
      cases hs
      cases ht
      exact ⟨rfl, rfl, rfl, rfl, rfl, (h.putIfAbsent _ _).putIfAbsent _ _⟩

theorem reported (h : Twin s t) (hs : Reported s s') (ht : Reported t t') : Twin s' t' := by
  cases hs with
  | intro => cases ht with
    | intro => exact ⟨h.program, h.args, h.tracing, h.given, h.metadata, h.options⟩

theorem codeResult_eq (h : Twin s t) (code : List Instr) (patience : Nat) :
    s.codeResult code patience = t.codeResult code patience := by
  unfold codeResult checkTraceFile stepLimit
  rw [h.args, h.tracing, h.options "trace_path" (by decide), h.options "step_limit" (by decide)]

theorem compilePass (h : Twin s t) :
    Twin (compilePass s).state (compilePass t).state ∧
      (compilePass s).error = (compilePass t).error := by
  cases hs : s.program.compile with
  | error r =>
      have ht : t.program.compile = .error r := h.program ▸ hs
      simp only [WhileLang.compilePass, hs, ht]
      exact ⟨h, trivial⟩
  | ok a =>
      have ht : t.program.compile = .ok a := h.program ▸ hs
      simp only [WhileLang.compilePass, hs, ht]
      refine ⟨⟨h.program, h.args, h.tracing, ?_, ?_, h.options⟩, trivial⟩
      · simp [note, h.given]
      · simp [note, h.metadata]

theorem runPass (h : Twin s t) (patience : Nat) :
    Twin (runPass patience s).state (runPass patience t).state ∧
      (runPass patience s).error = (runPass patience t).error := by
  cases hcode : s.given.code with
  | none =>
      have hcode' : t.given.code = none := h.given ▸ hcode
      simp only [WhileLang.runPass, hcode, hcode']
      exact ⟨h, trivial⟩
  | some code =>
      have hcode' : t.given.code = some code := h.given ▸ hcode
      obtain ⟨s', hs', hs⟩ := s.runCode_spec code "Original program:" patience
      obtain ⟨t', ht', ht⟩ := t.runCode_spec code "Original program:" patience
      have h' := h.reported hs' ht'
      simp only [WhileLang.runPass, hcode, hcode', hs, ht, ← h.codeResult_eq]
      cases s.codeResult code patience with
      | error e => exact ⟨h', rfl⟩
      | ok final =>
          refine ⟨⟨h'.program, h'.args, h'.tracing, ?_, ?_, h'.options⟩, rfl⟩
          · simp [note, h'.given]
          · simp [note, h'.metadata]

end Twin

/-! ## The passes that are run last -/

/-- What the first passes have found is still there. -/
structure Leaves (s t : Session) : Prop where
  given : t.given = s.given
  compiled : t.metadata.get? "compile" = s.metadata.get? "compile"
  executed : t.metadata.get? "execute" = s.metadata.get? "execute"

namespace Leaves

variable {s t u : Session}

theorem refl (s : Session) : Leaves s s := ⟨rfl, rfl, rfl⟩

theorem note (h : Leaves s t) {pass : String} (hc : pass ≠ "compile") (he : pass ≠ "execute")
    (fields : Record) : Leaves s (t.note pass fields) := by
  refine ⟨h.given, ?_, ?_⟩
  · rw [Session.note, Record.get?_put, if_neg hc.symm]
    exact h.compiled
  · rw [Session.note, Record.get?_put, if_neg he.symm]
    exact h.executed

theorem reported (h : Leaves s t) (ht : Reported t u) : Leaves s u := by
  cases ht with
  | intro => exact ⟨h.given, h.compiled, h.executed⟩

theorem optimizePass (h : Leaves s t) (clock : Clock) (patience : Nat) :
    Leaves s (optimizePass clock patience t).state := by
  unfold WhileLang.optimizePass
  split
  · exact h.note (by decide) (by decide) _
  · dsimp only
    split
    · exact h.note (by decide) (by decide) _
    · exact h
    · next o _ =>
        have ho : Leaves s
            { t with optimized := some o.program, extraction := some o.extraction } :=
          ⟨h.given, h.compiled, h.executed⟩
        exact ho.note (by decide) (by decide) _

theorem compileOptimizedPass (h : Leaves s t) : Leaves s (compileOptimizedPass t).state := by
  unfold WhileLang.compileOptimizedPass
  split
  · exact h.note (by decide) (by decide) _
  · split
    · exact h
    · next a _ =>
        have ha : Leaves s { t with improved.code := some a.code } :=
          ⟨h.given, h.compiled, h.executed⟩
        exact ha.note (by decide) (by decide) _

theorem runOptimizedPass (h : Leaves s t) (patience : Nat) :
    Leaves s (runOptimizedPass patience t).state := by
  unfold WhileLang.runOptimizedPass
  split
  · exact h.note (by decide) (by decide) _
  · next code _ =>
      have hecho := h.reported ((Reported.refl t).echoLine "")
      obtain ⟨u, hu, hrun⟩ := (t.echoLine "").runCode_spec code "Optimized program:" patience
      have hu := hecho.reported hu
      rw [hrun]
      cases (t.echoLine "").codeResult code patience with
      | error e => exact hu
      | ok final =>
          have hfinish : Leaves s { u with improved := u.improved.finish final } :=
            ⟨hu.given, hu.compiled, hu.executed⟩
          exact hfinish.note (by decide) (by decide) _

end Leaves

/-- Optimization is left out. -/
def Declines (s : Session) : Prop :=
  s.isSet "optimize" = false ∨
    ∃ construct, (s.program.symbolic []).2 = .error (.controlFlow construct)

/-- There is an optimized program, and all that is made from it. -/
def AllSet (s : Session) : Prop :=
  s.optimized.isSome ∧ s.extraction.isSome ∧ s.improved.code.isSome ∧ s.improved.output.isSome

/-- There is no optimized program, and nothing made from one. -/
def AllNone (s : Session) : Prop :=
  s.optimized = none ∧ s.extraction = none ∧ s.improved.code = none ∧ s.improved.output = none

theorem AllSet.not_allNone {s : Session} (h : s.AllSet) : ¬ s.AllNone := by
  intro hnone
  have hset := h.1
  rw [hnone.1] at hset
  cases hset

end Session

/-- Optimization is refused for the reason for which the program has no term. -/
theorem Block.optimizeWithin_eq_refused {b : Block} {budget : Except OptionError Budget}
    {options : ResidualOptions} {clock : Clock} {patience : Nat} {r : Refusal} :
    b.optimizeWithin budget options clock patience = .error (.optimize (.refused r)) ↔
      (b.symbolic []).2 = .error r := by
  unfold optimizeWithin
  cases budget with
  | error e =>
      dsimp only
      split <;> simp_all
  | ok budget =>
      dsimp only
      unfold optimize optimizeUsing
      split
      · simp_all [Except.mapError]
      · next run hrun =>
          simp only [hrun, reduceCtorEq, iff_false]
          split
          · simp [Except.mapError]
          · split <;> simp [Except.mapError]

namespace Session

variable {s : Session} {clock : Clock} {patience : Nat}

/-- The optimizing pass leaves the rest alone, and finds an optimized program unless optimization is
left out. -/
theorem optimizePass_spec (h : (optimizePass clock patience s).error = none) :
    (optimizePass clock patience s).state.improved = s.improved ∧
      (s.Declines ∧ (optimizePass clock patience s).state.optimized = s.optimized ∧
          (optimizePass clock patience s).state.extraction = s.extraction ∨
        ¬ s.Declines ∧ (optimizePass clock patience s).state.optimized.isSome ∧
          (optimizePass clock patience s).state.extraction.isSome) := by
  unfold optimizePass at h ⊢
  split
  · next hset => exact ⟨rfl, .inl ⟨.inl (by simpa using hset), rfl, rfl⟩⟩
  · next hset =>
      rw [if_neg hset] at h
      dsimp only at h ⊢
      split
      · next construct hr =>
          exact ⟨rfl, .inl ⟨.inr ⟨construct, Block.optimizeWithin_eq_refused.1 hr⟩, rfl, rfl⟩⟩
      · next e hother hr =>
          rw [hr] at h
          split at h
          · next construct heq => exact absurd (Except.error.inj heq) (hother construct)
          · cases h
          · next heq => cases heq
      · next o ho =>
          refine ⟨rfl, .inr ⟨?_, rfl, rfl⟩⟩
          rintro (hoff | ⟨construct, hr⟩)
          · simp [hoff] at hset
          · rw [Block.optimizeWithin_eq_refused.2 hr] at ho
            cases ho

/-- The optimized program is compiled if there is one. -/
theorem compileOptimizedPass_spec (h : (compileOptimizedPass s).error = none) :
    (compileOptimizedPass s).state.optimized = s.optimized ∧
      (compileOptimizedPass s).state.extraction = s.extraction ∧
      (compileOptimizedPass s).state.improved.output = s.improved.output ∧
      (s.optimized = none ∧ (compileOptimizedPass s).state.improved.code = s.improved.code ∨
        s.optimized.isSome ∧ (compileOptimizedPass s).state.improved.code.isSome) := by
  unfold compileOptimizedPass at h ⊢
  cases ho : s.optimized with
  | none => exact ⟨ho, rfl, rfl, .inl ⟨rfl, rfl⟩⟩
  | some program =>
      cases hc : program.compile with
      | error r => simp [ho, hc] at h
      | ok a =>
          simp only [hc]
          exact ⟨rfl, rfl, rfl, .inr ⟨rfl, rfl⟩⟩

/-- The code of the optimized program is run if there is any. -/
theorem runOptimizedPass_spec (h : (runOptimizedPass patience s).error = none) :
    (runOptimizedPass patience s).state.optimized = s.optimized ∧
      (runOptimizedPass patience s).state.extraction = s.extraction ∧
      (runOptimizedPass patience s).state.improved.code = s.improved.code ∧
      (s.improved.code = none ∧
          (runOptimizedPass patience s).state.improved.output = s.improved.output ∨
        s.improved.code.isSome ∧ (runOptimizedPass patience s).state.improved.output.isSome) := by
  unfold runOptimizedPass at h ⊢
  cases hc : s.improved.code with
  | none => exact ⟨rfl, rfl, hc, .inl ⟨rfl, rfl⟩⟩
  | some code =>
      obtain ⟨u, hu, hrun⟩ := (s.echoLine "").runCode_spec code "Optimized program:" patience
      have hu : Reported s u := ((Reported.refl s).echoLine "").trans hu
      simp only [hc, hrun] at h ⊢
      cases hr : (s.echoLine "").codeResult code patience with
      | error e => rw [hr] at h; cases h
      | ok final =>
          cases hu with
          | intro => exact ⟨rfl, rfl, hc, .inr ⟨rfl, rfl⟩⟩

end Session

/-! ## Whole runs -/

/-- The passes that are run first. -/
def givenPasses (patience : Nat) : List (Pass Session PassError) :=
  [{ name := "compile", order := 10, run := compilePass },
   { name := "execute", order := 20, run := runPass patience }]

/-- The passes that are run last. -/
def optimizedPasses (clock : Clock) (patience : Nat) : List (Pass Session PassError) :=
  [{ name := "optimize", order := 30, run := optimizePass clock patience },
   { name := "compile_optimized", order := 40, run := compileOptimizedPass },
   { name := "execute_optimized", order := 50, run := runOptimizedPass patience }]

/-- The passes stand in their order. -/
theorem schedule_pipeline (clock : Clock) (patience : Nat) :
    (pipeline clock patience).schedule [] [] =
      givenPasses patience ++ optimizedPasses clock patience := by
  unfold PassSet.schedule
  dsimp only
  rw [List.filter_eq_self.2 (by simp [cleanNames]), List.mergeSort_of_pairwise]
  · rfl
  · simp only [pipeline, List.pairwise_cons, Pass.precedes]
    norm_num

namespace Session

variable {s t : Session} {clock : Clock} {patience : Nat}

/-- The program is compiled and its code is run until the machine stops; what is known of it
then. -/
def Ran (s : Session) (patience : Nat) (stage : Stage) : Prop :=
  ∃ a stepLimit final, s.program.compile = .ok a ∧ s.stepLimit = .ok stepLimit ∧
    ({ code := a.code, args := s.args, stepLimit } : Machine).run patience {} = (.halted, final) ∧
    stage = { code := some a.code, output := some final.output, dump := final.dump }

/-- The program is compiled and its code is run, without a limit on steps, and the machine is still
running when patience ends. -/
def Outlasts (s : Session) (patience : Nat) : Prop :=
  ∃ a, s.program.compile = .ok a ∧ s.stepLimit = .ok none ∧
    (({ code := a.code, args := s.args } : Machine).run patience {}).1 = .unfinished

theorem codeResult_eq_ok {code : List Instr} {final : State}
    (h : s.codeResult code patience = .ok final) :
    ∃ stepLimit, s.stepLimit = .ok stepLimit ∧
      ({ code, args := s.args, stepLimit } : Machine).run patience {} = (.halted, final) := by
  unfold codeResult at h
  split at h
  · cases h
  · cases h
  · next stepLimit _ hlimit =>
      split at h
      · cases h
      · cases h
      · next final' hrun =>
          cases h
          exact ⟨stepLimit, hlimit, hrun⟩

/-- Only a run without a limit on steps can outlast patience. -/
theorem codeResult_eq_unfinished {code : List Instr}
    (h : s.codeResult code patience = .error .unfinished) :
    s.stepLimit = .ok none ∧
      (({ code, args := s.args } : Machine).run patience {}).1 = .unfinished := by
  unfold codeResult at h
  split at h
  · cases h
  · cases h
  · next stepLimit _ hlimit =>
      split at h
      · cases h
      · next hrun =>
          have hrun := congrArg Prod.fst hrun
          cases stepLimit with
          | none => exact ⟨hlimit, hrun⟩
          | some l => exact absurd hrun (Machine.run_ne_unfinished rfl patience {})
      · cases h

theorem compilePass_spec (h : (compilePass s).error = none) :
    ∃ a, s.program.compile = .ok a ∧ (compilePass s).state =
      ({ s with given.code := some a.code }).note "compile" (codeFields a.code) := by
  unfold compilePass at h ⊢
  cases hc : s.program.compile with
  | error r => rw [hc] at h; cases h
  | ok a => exact ⟨a, rfl, rfl⟩

theorem runPass_spec {code : List Instr} (hcode : s.given.code = some code)
    (h : (runPass patience s).error = none) :
    ∃ final t, s.codeResult code patience = .ok final ∧ Reported s t ∧
      (runPass patience s).state =
        ({ t with given := t.given.finish final }).note "execute" (runFields final) := by
  obtain ⟨t, ht, hrun⟩ := s.runCode_spec code "Original program:" patience
  simp only [runPass, hcode, hrun] at h ⊢
  cases hr : s.codeResult code patience with
  | error e => rw [hr] at h; cases h
  | ok final => exact ⟨final, t, rfl, ht, rfl⟩

/-- The run of the program fails for the reason for which its code does. -/
theorem runPass_eq_error {code : List Instr} {e : PassError} (hcode : s.given.code = some code)
    (h : (runPass patience s).error = some e) : s.codeResult code patience = .error e := by
  obtain ⟨t, -, hrun⟩ := s.runCode_spec code "Original program:" patience
  simp only [runPass, hcode, hrun] at h
  cases hr : s.codeResult code patience with
  | error e' =>
      rw [hr] at h
      cases h
      rfl
  | ok final => rw [hr] at h; cases h

/-- If the first passes do not fail, the program has run, and nothing was done for optimization. -/
theorem ran_of_no_failure (h : (PassSet.runAll metadata (givenPasses patience) s).failure = none) :
    s.Ran patience (PassSet.runAll metadata (givenPasses patience) s).state.given ∧
      ((PassSet.runAll metadata (givenPasses patience) s).state.Declines ↔ s.Declines) ∧
      (s.AllNone → (PassSet.runAll metadata (givenPasses patience) s).state.AllNone) := by
  unfold givenPasses at h ⊢
  obtain ⟨hcompile, hrest, hstate⟩ := PassSet.runAll_of_no_failure h
  obtain ⟨hrun, -, hstate'⟩ := PassSet.runAll_of_no_failure hrest
  rw [hstate, hstate', PassSet.runAll]
  obtain ⟨a, ha, hs⟩ := compilePass_spec hcompile
  dsimp only at hrun ⊢
  rw [hs] at hrun ⊢
  obtain ⟨final, t, hfinal, ht, hend⟩ := runPass_spec rfl hrun
  obtain ⟨stepLimit, hlimit, hmachine⟩ := codeResult_eq_ok hfinal
  rw [hend]
  cases ht with
  | intro => exact ⟨⟨a, stepLimit, final, ha, hlimit, hmachine, rfl⟩, Iff.rfl, id⟩

/-- If one of the first passes outlasts patience, it is the run of the program. -/
theorem outlasts_of_unfinished {pass : String}
    (h : (PassSet.runAll metadata (givenPasses patience) s).failure = some (pass, .unfinished)) :
    s.Outlasts patience ∧ pass = "execute" ∧
      (PassSet.runAll metadata (givenPasses patience) s).finished = ["compile"] := by
  unfold givenPasses at h ⊢
  cases hc : (compilePass s).error with
  | some e =>
      rw [PassSet.runAll_of_error hc] at h
      unfold compilePass at hc
      split at hc <;> cases hc
      cases h
  | none =>
      rw [PassSet.runAll_of_no_error hc] at h ⊢
      obtain ⟨a, ha, hs⟩ := compilePass_spec hc
      dsimp only at h ⊢
      rw [hs] at h ⊢
      generalize hs' : ({ s with given.code := some a.code } : Session).note "compile"
        (codeFields a.code) = s' at h ⊢
      have hcode : s'.given.code = some a.code := hs' ▸ rfl
      cases hr : (runPass patience s').error with
      | none =>
          rw [PassSet.runAll_of_no_error hr] at h
          cases h
      | some e =>
          rw [PassSet.runAll_of_error hr] at h ⊢
          cases h
          have hresult := codeResult_eq_unfinished (runPass_eq_error hcode hr)
          subst hs'
          exact ⟨⟨a, ha, hresult⟩, rfl, rfl⟩

/-- If the last passes do not fail, there is all of the optimized program, or nothing if
optimization is left out. -/
theorem allSet_or_allNone (hs : s.AllNone)
    (h : (PassSet.runAll metadata (optimizedPasses clock patience) s).failure = none) :
    s.Declines ∧ (PassSet.runAll metadata (optimizedPasses clock patience) s).state.AllNone ∨
      ¬ s.Declines ∧ (PassSet.runAll metadata (optimizedPasses clock patience) s).state.AllSet := by
  unfold optimizedPasses at h ⊢
  obtain ⟨hoptimize, h, hstate⟩ := PassSet.runAll_of_no_failure h
  rw [hstate]
  obtain ⟨hcompile, h, hstate⟩ := PassSet.runAll_of_no_failure h
  rw [hstate]
  obtain ⟨hrun, -, hstate⟩ := PassSet.runAll_of_no_failure h
  rw [hstate, PassSet.runAll]
  dsimp only at hoptimize hcompile hrun ⊢
  obtain ⟨himproved, hopt⟩ := optimizePass_spec hoptimize
  obtain ⟨hopt₁, hext₁, hout₁, hcode₁⟩ := compileOptimizedPass_spec hcompile
  obtain ⟨hopt₂, hext₂, hcode₂, hout₂⟩ := runOptimizedPass_spec hrun
  unfold AllNone AllSet
  rw [hopt₂, hext₂, hcode₂, hopt₁, hext₁]
  rw [himproved] at hcode₁ hout₁
  obtain ⟨hnone, hext, hcode, hout⟩ := hs
  rcases hopt with ⟨hdecline, hopt, hext'⟩ | ⟨hdecline, hopt, hext'⟩
  · have hopt := hopt.trans hnone
    rcases hcode₁ with ⟨-, hcode₁⟩ | ⟨hsome, -⟩
    · rcases hout₂ with ⟨-, hout₂⟩ | ⟨hsome, -⟩
      · exact .inl ⟨hdecline, hopt, hext'.trans hext, hcode₁.trans hcode,
          hout₂.trans (hout₁.trans hout)⟩
      · rw [hcode₁, hcode] at hsome; cases hsome
    · rw [hopt] at hsome; cases hsome
  · rcases hcode₁ with ⟨hnil, -⟩ | ⟨-, hcode₁⟩
    · rw [hnil] at hopt; cases hopt
    · rcases hout₂ with ⟨hnil, -⟩ | ⟨-, hout₂⟩
      · rw [hnil] at hcode₁; cases hcode₁
      · exact .inr ⟨hdecline, hopt, hext', hcode₁, hout₂⟩

theorem leaves_of_optimizedPasses (s : Session) (clock : Clock) (patience : Nat) :
    Leaves s (PassSet.runAll metadata (optimizedPasses clock patience) s).state := by
  refine PassSet.runAll_invariant (fun p hp t ht => ?_) (.refl s)
  simp only [optimizedPasses, List.mem_cons, List.not_mem_nil, or_false] at hp
  rcases hp with rfl | rfl | rfl
  · exact ht.optimizePass clock patience
  · exact ht.compileOptimizedPass
  · exact ht.runOptimizedPass patience

/-- Twins go through the first passes in the same way. -/
theorem twin_of_givenPasses (h : Twin s t) (patience : Nat) :
    Twin (PassSet.runAll metadata (givenPasses patience) s).state
        (PassSet.runAll metadata (givenPasses patience) t).state ∧
      (PassSet.runAll metadata (givenPasses patience) s).finished =
        (PassSet.runAll metadata (givenPasses patience) t).finished ∧
      (PassSet.runAll metadata (givenPasses patience) s).failure =
        (PassSet.runAll metadata (givenPasses patience) t).failure := by
  refine PassSet.runAll_lockstep (fun p hp s t hst => ?_) h
  simp only [givenPasses, List.mem_cons, List.not_mem_nil, or_false] at hp
  rcases hp with rfl | rfl
  · exact hst.compilePass
  · exact hst.runPass patience

theorem runPipeline_eq (s : Session) (clock : Clock) (patience : Nat) :
    s.runPipeline [] [] clock patience =
      PassSet.runAll metadata (givenPasses patience ++ optimizedPasses clock patience) s := by
  rw [runPipeline, PassSet.run, schedule_pipeline]

theorem allNone_of_create {program : Block} {args : List Datum} {options : Record} {tracing : Bool}
    (h : Session.create program args options tracing = .ok s) : s.AllNone := by
  unfold Session.create at h
  cases ha : args.mapM Datum.toInt with
  | error e => rw [ha] at h; cases h
  | ok as =>
      rw [ha] at h
      cases h
      exact ⟨rfl, rfl, rfl, rfl⟩

/-- If the pipeline does not fail, there is all of the optimized program, or nothing if optimization
is left out. -/
theorem runPipeline_optimized (hs : s.AllNone)
    (h : (s.runPipeline [] [] clock patience).failure = none) :
    ((s.runPipeline [] [] clock patience).state.AllSet ∨
        (s.runPipeline [] [] clock patience).state.AllNone) ∧
      ((s.runPipeline [] [] clock patience).state.AllNone ↔ s.Declines) := by
  rw [runPipeline_eq] at h ⊢
  cases hfirst : (PassSet.runAll metadata (givenPasses patience) s).failure with
  | some f =>
      rw [PassSet.runAll_append_of_failure hfirst, hfirst] at h
      cases h
  | none =>
      rw [PassSet.runAll_append hfirst] at h ⊢
      obtain ⟨-, hdeclines, hnone⟩ := ran_of_no_failure hfirst
      rw [← hdeclines]
      rcases allSet_or_allNone (hnone hs) h with ⟨hd, hend⟩ | ⟨hd, hend⟩
      · exact ⟨.inr hend, iff_of_true hend hd⟩
      · exact ⟨.inl hend, iff_of_false hend.not_allNone hd⟩

/-- **What is asked of the optimizer does not show in the run of the program as given.** Take two
fresh sessions for a program, whose options differ in those for optimization only, and run the
pipeline on each, by its own clock. It fails in both in one of the first two passes, for the same
cause and after the same passes; or steps are not limited and the program is still running in both
when patience ends; or the pipeline gets past these passes in both, with the same code, output, dump
and measurements. A run that does not fail has all of the optimized program or nothing, and nothing
exactly if optimization is switched off or the program has control flow. -/
theorem runPipeline_twins {program : Block} {args : List Datum} {options options' : Record}
    {tracing : Bool} (hoptions : Record.AgreeBut optimizerOptions options options')
    (hs : Session.create program args options tracing = .ok s)
    (ht : Session.create program args options' tracing = .ok t) (clock clock' : Clock)
    (patience : Nat) :
    let r := s.runPipeline [] [] clock patience
    let r' := t.runPipeline [] [] clock' patience
    ((∃ pass cause, (pass = "compile" ∨ pass = "execute") ∧ cause ≠ .unfinished ∧
        r.failure = some (pass, cause) ∧ r'.failure = some (pass, cause) ∧
        r.finished = r'.finished) ∨
      (s.Outlasts patience ∧ r.failure = some ("execute", .unfinished) ∧
        r'.failure = some ("execute", .unfinished) ∧ r.finished = ["compile"] ∧
        r'.finished = ["compile"]) ∨
      (["compile", "execute"] <+: r.finished ∧ ["compile", "execute"] <+: r'.finished ∧
        s.Ran patience r.state.given ∧ r.state.given = r'.state.given ∧
        r.state.metadata.get? "compile" = r'.state.metadata.get? "compile" ∧
        r.state.metadata.get? "execute" = r'.state.metadata.get? "execute")) ∧
    (r.failure = none → (r.state.AllSet ∨ r.state.AllNone) ∧ (r.state.AllNone ↔ s.Declines)) ∧
    (r'.failure = none →
      (r'.state.AllSet ∨ r'.state.AllNone) ∧ (r'.state.AllNone ↔ t.Declines)) := by
  intro r r'
  refine ⟨?_, runPipeline_optimized (allNone_of_create hs),
    runPipeline_optimized (allNone_of_create ht)⟩
  obtain ⟨htwin, hfinished, hfailure⟩ :=
    twin_of_givenPasses (Twin.of_create hoptions hs ht) patience
  have hr : r = _ := runPipeline_eq s clock patience
  have hr' : r' = _ := runPipeline_eq t clock' patience
  cases hf : (PassSet.runAll metadata (givenPasses patience) s).failure with
  | some f =>
      obtain ⟨pass, cause⟩ := f
      have hf' := hfailure.symm.trans hf
      rw [hr, hr', PassSet.runAll_append_of_failure hf, PassSet.runAll_append_of_failure hf']
      by_cases hcause : cause = .unfinished
      · subst hcause
        obtain ⟨houtlasts, rfl, hcompiled⟩ := outlasts_of_unfinished hf
        exact .inr (.inl ⟨houtlasts, hf, hf', hcompiled, hfinished.symm.trans hcompiled⟩)
      · have hname := PassSet.name_mem_of_failure hf
        simp only [givenPasses, List.map_cons, List.map_nil, List.mem_cons,
          List.not_mem_nil, or_false] at hname
        exact .inl ⟨pass, cause, hname, hcause, hf, hf', hfinished⟩
  | none =>
      have hf' := hfailure.symm.trans hf
      rw [hr, hr', PassSet.runAll_append hf, PassSet.runAll_append hf']
      obtain ⟨hran, -, -⟩ := ran_of_no_failure hf
      have hleaves := leaves_of_optimizedPasses
        (PassSet.runAll metadata (givenPasses patience) s).state clock patience
      have hleaves' := leaves_of_optimizedPasses
        (PassSet.runAll metadata (givenPasses patience) t).state clock' patience
      refine .inr (.inr ⟨⟨_, rfl⟩, ⟨_, rfl⟩, ?_, ?_, ?_, ?_⟩)
      · exact hleaves.given ▸ hran
      · exact hleaves.given.trans (htwin.given.trans hleaves'.given.symm)
      · rw [hleaves.compiled, hleaves'.compiled, htwin.metadata]
      · rw [hleaves.executed, hleaves'.executed, htwin.metadata]

/-- With optimization switched off, and with little time for it, a program that reads an argument
prints the same, whatever the clock shows in the second run. -/
theorem printArgument_twins :
    let program : Block := [.assign "x" (.input (.num 0)), .print (.bin .add (.var "x") (.num 1))]
    let plain : Record := [("step_limit", .int 20), ("optimize", .bool false)]
    let hasty : Record :=
      [("iteration_limit", .int 1), ("step_limit", .int 20), ("inline_literals", .bool true)]
    ∃ s t, Session.create program [.int 4] plain false = .ok s ∧
      Session.create program [.int 4] hasty false = .ok t ∧
      Record.AgreeBut optimizerOptions plain hasty ∧
      (s.runPipeline [] [] (fun _ => 0) 0).state.AllNone ∧
      ∀ clock, ["compile", "execute"] <+: (t.runPipeline [] [] clock 0).finished ∧
        (s.runPipeline [] [] (fun _ => 0) 0).state.given =
          (t.runPipeline [] [] clock 0).state.given := by
  intro program plain hasty
  have hoptions : Record.AgreeBut optimizerOptions plain hasty := by
    intro key hkey
    simp only [optimizerOptions, List.mem_cons, List.not_mem_nil, or_false, not_or] at hkey
    obtain ⟨h₁, h₂, -, h₃⟩ := hkey
    by_cases hk : key = "step_limit"
    · subst hk
      simp only [Record.get?, plain, hasty, lookup_cons_of_ne h₂, List.lookup_cons_self]
    · simp only [Record.get?, plain, hasty, lookup_cons_of_ne h₁, lookup_cons_of_ne h₂,
        lookup_cons_of_ne h₃, lookup_cons_of_ne hk]
  obtain ⟨s, hs⟩ : ∃ s, Session.create program [.int 4] plain false = .ok s := ⟨_, rfl⟩
  obtain ⟨t, ht⟩ : ∃ t, Session.create program [.int 4] hasty false = .ok t := ⟨_, rfl⟩
  have hok : (s.runPipeline [] [] (fun _ => 0) 0).failure = none := by
    cases hs
    rw [runPipeline_eq]
    decide +kernel
  have htwins := runPipeline_twins hoptions hs ht (fun _ => 0)
  refine ⟨s, t, hs, ht, hoptions, ((htwins (fun _ => 0) 0).2.1 hok).2.2 (.inl ?_), ?_⟩
  · cases hs
    rfl
  · intro clock
    rcases (htwins clock 0).1 with
      ⟨pass, cause, -, -, hfail, -⟩ | ⟨-, hfail, -⟩ | ⟨-, hpast, -, hgiven, -⟩
    · rw [hok] at hfail; cases hfail
    · rw [hok] at hfail; cases hfail
    · exact ⟨hpast, hgiven⟩

end Session

end WhileLang
