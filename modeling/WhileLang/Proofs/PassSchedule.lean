import Mathlib.Algebra.Order.Ring.Rat
import Mathlib.Data.List.Induction
import Mathlib.Data.List.Nodup
import Mathlib.Tactic.NormNum
import WhileLang.Proofs.PassRuns

/-!
# Which passes run, and in which order

Passes are registered one after the other, and a pass takes the place of an earlier one with its
name. What a run does depends on the registrations only through the last one of each name: these are
filtered by the names to be skipped and picked, and sorted. No two of them have the same name, so
ties in the order are broken, and the schedule does not depend on when they were registered.

A run goes through the schedule up to the first pass that fails. What that pass and those before it
did to the state stays.

* `PassSet.register`, `LastRegistered`: passes that are registered, and the last one of a name.
* `Selected`: a name is neither skipped nor left out.
* `Pass.Before`: the order in which passes run.
* `PassSet.mem_register`, `PassSet.mem_schedule`, `PassSet.pairwise_schedule`: what is scheduled and
  how; `PassSet.schedule_congr`: the schedule depends on nothing else.
* `PassSet.Succeed`, `PassSet.after`: no pass fails, and the state after passes;
  `PassSet.runAll_of_succeed`, `PassSet.runAll_of_failing`: the two ways in which a run ends.
* `PassSet.run_follows_schedule`: all of it together.
-/

namespace WhileLang

variable {σ ε ω : Type}

/-! ## Registration -/

/-- The passes that are left when some have been registered, one after the other. -/
def PassSet.register (regs : List (Pass σ ε ω)) : PassSet σ ε ω :=
  regs.foldl add []

/-- A pass is the last one that was registered under its name. -/
def LastRegistered (regs : List (Pass σ ε ω)) (p : Pass σ ε ω) : Prop :=
  (regs.filter (·.name = p.name)).getLast? = some p

namespace PassSet

theorem register_concat (regs : List (Pass σ ε ω)) (p : Pass σ ε ω) :
    register (regs ++ [p]) = (register regs).add p := by
  simp [register]

theorem mem_add {ps : PassSet σ ε ω} {p q : Pass σ ε ω} :
    q ∈ ps.add p ↔ q ∈ ps ∧ q.name ≠ p.name ∨ q = p := by
  simp [add]

/-- What is left is the last pass of each name. -/
theorem mem_register {regs : List (Pass σ ε ω)} {p : Pass σ ε ω} :
    p ∈ register regs ↔ LastRegistered regs p := by
  induction regs using List.reverseRecOn with
  | nil => simp [register, LastRegistered]
  | append_singleton regs q ih =>
      rw [register_concat, mem_add, ih, LastRegistered, LastRegistered, List.filter_append]
      by_cases hname : q.name = p.name
      · simp [hname, eq_comm]
      · have hne : p ≠ q := fun heq => hname (by rw [heq])
        simp [hname, hne, Ne.symm hname]

/-- No name is left twice. -/
theorem nodup_register (regs : List (Pass σ ε ω)) : ((register regs).map (·.name)).Nodup := by
  induction regs using List.reverseRecOn with
  | nil => exact List.nodup_nil
  | append_singleton regs p ih =>
      rw [register_concat, add, List.map_append]
      refine List.Nodup.append ?_ (List.nodup_singleton _) ?_
      · exact ih.sublist (List.filter_sublist.map _)
      · simp [List.disjoint_singleton]

end PassSet

/-! ## Selection -/

/-- A name is not to be skipped, and is picked if any are. Entries are compared without the blanks
around them, and empty ones do not count. -/
def Selected (skip only : List String) (name : String) : Prop :=
  (∀ entry ∈ skip, entry ≠ "" → Text.strip entry ≠ name) ∧
    ((∃ entry ∈ only, entry ≠ "") → ∃ entry ∈ only, entry ≠ "" ∧ Text.strip entry = name)

theorem mem_cleanNames {names : List String} {name : String} :
    name ∈ cleanNames names ↔ ∃ entry ∈ names, entry ≠ "" ∧ Text.strip entry = name := by
  simp [cleanNames, and_assoc]

theorem cleanNames_eq_nil {names : List String} :
    cleanNames names = [] ↔ ¬ ∃ entry ∈ names, entry ≠ "" := by
  simp [cleanNames]

theorem selected_iff {skip only : List String} {name : String} :
    Selected skip only name ↔
      name ∉ cleanNames skip ∧ (cleanNames only = [] ∨ name ∈ cleanNames only) := by
  rw [mem_cleanNames, mem_cleanNames, cleanNames_eq_nil, ← imp_iff_not_or, Selected]
  simp

/-! ## The order -/

/-- One pass runs before another: its place is lower, or the places are equal and its name comes
first. -/
def Pass.Before [LT ω] (p q : Pass σ ε ω) : Prop :=
  p.order < q.order ∨ p.order = q.order ∧ p.name < q.name

namespace Pass

variable [LinearOrder ω] {p q r : Pass σ ε ω}

theorem precedes_iff :
    p.precedes q = true ↔ p.order < q.order ∨ p.order = q.order ∧ p.name ≤ q.name := by
  simp [precedes]

theorem precedes_total (p q : Pass σ ε ω) : (p.precedes q || q.precedes p) = true := by
  rw [Bool.or_eq_true, precedes_iff, precedes_iff]
  rcases lt_trichotomy p.order q.order with h | h | h
  · exact .inl (.inl h)
  · exact (String.le_total p.name q.name).imp (fun hn => .inr ⟨h, hn⟩) fun hn => .inr ⟨h.symm, hn⟩
  · exact .inr (.inl h)

theorem precedes_trans (p q r : Pass σ ε ω) (hpq : p.precedes q = true)
    (hqr : q.precedes r = true) : p.precedes r = true := by
  rw [precedes_iff] at hpq hqr ⊢
  rcases hpq with hpq | ⟨hpq, hn⟩
  · rcases hqr with hqr | ⟨hqr, -⟩
    · exact .inl (hpq.trans hqr)
    · exact .inl (hqr ▸ hpq)
  · rcases hqr with hqr | ⟨hqr, hn'⟩
    · exact .inl (hpq ▸ hqr)
    · exact .inr ⟨hpq.trans hqr, String.le_trans hn hn'⟩

theorem before_of_precedes (h : p.precedes q = true) (hne : p.name ≠ q.name) : p.Before q := by
  rcases precedes_iff.1 h with h | ⟨h, hn⟩
  · exact .inl h
  · exact .inr ⟨h, String.not_le.1 fun hn' => hne (String.le_antisymm hn hn')⟩

theorem Before.asymm (h : p.Before q) : ¬ q.Before p := by
  rintro (h' | ⟨h', hn'⟩)
  · rcases h with h | ⟨h, -⟩
    · exact lt_asymm h h'
    · exact h'.ne h.symm
  · rcases h with h | ⟨-, hn⟩
    · exact h.ne h'.symm
    · exact String.lt_irrefl _ (String.lt_trans hn hn')

end Pass

namespace PassSet

variable [LinearOrder ω] {ps qs : PassSet σ ε ω} {skip only : List String}

theorem mem_schedule {p : Pass σ ε ω} :
    p ∈ ps.schedule skip only ↔ p ∈ ps ∧ Selected skip only p.name := by
  simp [schedule, selected_iff]

theorem nodup_schedule (h : (ps.map (·.name)).Nodup) :
    ((ps.schedule skip only).map (·.name)).Nodup := by
  refine ((List.mergeSort_perm _ _).map _).nodup_iff.2 ?_
  exact h.sublist (List.filter_sublist.map _)

/-- The schedule is strictly ascending. -/
theorem pairwise_schedule (h : (ps.map (·.name)).Nodup) :
    (ps.schedule skip only).Pairwise Pass.Before := by
  have hsorted : (ps.schedule skip only).Pairwise (·.precedes · = true) :=
    List.pairwise_mergeSort Pass.precedes_trans Pass.precedes_total _
  have hnames : (ps.schedule skip only).Pairwise (·.name ≠ ·.name) :=
    List.pairwise_map.1 (nodup_schedule h)
  exact hsorted.imp₂ (fun _ _ => Pass.before_of_precedes) hnames

/-- Two sets with the same passes have the same schedule. -/
theorem schedule_congr (hps : (ps.map (·.name)).Nodup) (hqs : (qs.map (·.name)).Nodup)
    (h : ∀ p, p ∈ ps ↔ p ∈ qs) : ps.schedule skip only = qs.schedule skip only := by
  refine List.Perm.eq_of_pairwise ?_ (pairwise_schedule hps) (pairwise_schedule hqs) ?_
  · exact fun p q _ _ hpq hqp => (hpq.asymm hqp).elim
  · rw [List.perm_ext_iff_of_nodup (.of_map _ (nodup_schedule hps))
      (.of_map _ (nodup_schedule hqs))]
    intro p
    rw [mem_schedule, mem_schedule, h]

end PassSet

/-! ## Runs -/

namespace PassSet

/-- The state after some passes, whether they fail or not. -/
def after : List (Pass σ ε ω) → σ → σ
  | [], s => s
  | p :: rest, s => after rest (p.run s).state

/-- Run one after the other, none of the passes fails. -/
def Succeed : List (Pass σ ε ω) → σ → Prop
  | [], _ => True
  | p :: rest, s => (p.run s).error = none ∧ Succeed rest (p.run s).state

variable {metadata : σ → Record} {ps done rest : List (Pass σ ε ω)} {p : Pass σ ε ω} {s : σ}

theorem runAll_of_succeed (h : Succeed ps s) :
    (runAll metadata ps s).failure = none ∧ (runAll metadata ps s).finished = ps.map (·.name) ∧
      (runAll metadata ps s).state = after ps s := by
  induction ps generalizing s with
  | nil => exact ⟨rfl, rfl, rfl⟩
  | cons p ps ih =>
      obtain ⟨hfailure, hfinished, hstate⟩ := ih h.2
      rw [runAll_of_no_error h.1]
      exact ⟨hfailure, congrArg (p.name :: ·) hfinished, hstate⟩

/-- The first pass that fails ends the run. -/
theorem runAll_of_failing {e : ε} (h : Succeed done s)
    (he : (p.run (after done s)).error = some e) :
    (runAll metadata (done ++ p :: rest) s).failure = some (p.name, e) ∧
      (runAll metadata (done ++ p :: rest) s).finished = done.map (·.name) ∧
      (runAll metadata (done ++ p :: rest) s).state = (p.run (after done s)).state := by
  have hdone : (runAll metadata done s).failure = none ∧ _ := runAll_of_succeed h
  rw [runAll_append hdone.1, hdone.2.2, runAll_of_error he]
  simp

/-- What stands behind a pass that fails makes no difference. -/
theorem runAll_cut_of_failing {e : ε} (h : Succeed done s)
    (he : (p.run (after done s)).error = some e) :
    runAll metadata (done ++ p :: rest) s = runAll metadata (done ++ [p]) s := by
  have hcut : done ++ p :: rest = done ++ [p] ++ rest := by simp
  rw [hcut]
  exact runAll_append_of_failure (runAll_of_failing h he).1

/-- **A run follows the schedule.** Let passes have been registered, under names that may repeat and
at places of any kind. The schedule holds the last pass of each name that is selected, and nothing
else; it is strictly ascending by place and name, and no name occurs twice. If different names are
registered in another order, the run is the same. If a pass of the schedule fails and those before
it do not, the report gives its name and the cause, the names of those before it in order, and the
state that these and the failing one have left; it is the report of a run that has no later passes.
If no pass fails, the report gives all names in order. -/
theorem run_follows_schedule [LinearOrder ω] (regs : List (Pass σ ε ω)) (metadata : σ → Record)
    (skip only : List String) (s : σ) :
    let ps := (register regs).schedule skip only
    let report := (register regs).run metadata skip only s
    (∀ p, p ∈ ps ↔ LastRegistered regs p ∧ Selected skip only p.name) ∧
    ps.Pairwise Pass.Before ∧ (ps.map (·.name)).Nodup ∧
    (∀ regs' : List (Pass σ ε ω),
      (∀ name, regs'.filter (·.name = name) = regs.filter (·.name = name)) →
        (register regs').run metadata skip only s = report) ∧
    (∀ done p rest e, ps = done ++ p :: rest → Succeed done s →
      (p.run (after done s)).error = some e →
        report.failure = some (p.name, e) ∧ report.finished = done.map (·.name) ∧
        report.state = (p.run (after done s)).state ∧
        report = runAll metadata (done ++ [p]) s) ∧
    (Succeed ps s →
      report.failure = none ∧ report.finished = ps.map (·.name) ∧ report.state = after ps s) := by
  intro ps report
  have hnames := nodup_register regs
  refine ⟨fun p => ?_, pairwise_schedule hnames, nodup_schedule hnames, ?_, ?_, runAll_of_succeed⟩
  · rw [mem_schedule, mem_register]
  · intro regs' hregs
    have hsame : (register regs').schedule skip only = ps := by
      refine schedule_congr (nodup_register regs') hnames fun p => ?_
      rw [mem_register, mem_register, LastRegistered, LastRegistered, hregs]
    show runAll metadata ((register regs').schedule skip only) s = report
    rw [hsame]
    rfl
  · intro done p rest e hps hdone he
    have hreport : report = runAll metadata (done ++ p :: rest) s :=
      congrArg (runAll metadata · s) hps
    obtain ⟨hfailure, hfinished, hstate⟩ := runAll_of_failing hdone he
    rw [hreport]
    exact ⟨hfailure, hfinished, hstate, runAll_cut_of_failing hdone he⟩

/-- A pass that notes its name, and then may fail. -/
def noting (name : String) (order : Rat) (error : Option String) : Pass (List String) String :=
  { name, order, run := fun notes => { state := notes ++ [name], error } }

/-- Five registrations: the first one is replaced by a later one, which fails, and two share a
place. -/
def fiveRegistrations : List (Pass (List String) String) :=
  [noting "lint" 0 none, noting "late" 9 none, noting "early" (1 / 2) none,
   noting "lint" 2 (some "untidy"), noting "tidy" 2 none]

/-- The same, with the first two in the other order. -/
def swappedRegistrations : List (Pass (List String) String) :=
  [noting "late" 9 none, noting "lint" 0 none, noting "early" (1 / 2) none,
   noting "lint" 2 (some "untidy"), noting "tidy" 2 none]

/-- One name is skipped, whose entry has blanks around it. The pass that fails is the later one of
its name; it has noted its name, and the one behind it has not. With that name skipped too, all
others are finished. -/
theorem fiveRegistrations_run :
    let report := (register fiveRegistrations).run (fun _ => []) ["", " late\t"] [] []
    let report' := (register fiveRegistrations).run (fun _ => []) ["late", "lint"] ["", ""] []
    report.failure = some ("lint", "untidy") ∧ report.finished = ["early"] ∧
      report.state = ["early", "lint"] ∧
      (register swappedRegistrations).run (fun _ => []) ["", " late\t"] [] [] = report ∧
      report'.failure = none ∧ report'.finished = ["early", "tidy"] := by
  have hps : (register fiveRegistrations).schedule ["", " late\t"] [] =
      [noting "early" (1 / 2) none] ++ noting "lint" 2 (some "untidy") ::
        [noting "tidy" 2 none] := by
    refine (List.mergeSort_of_pairwise (l := [noting "early" (1 / 2) none,
      noting "lint" 2 (some "untidy"), noting "tidy" 2 none]) ?_)
    simp only [List.pairwise_cons, Pass.precedes, noting]
    norm_num
    decide
  have hps' : (register fiveRegistrations).schedule ["late", "lint"] ["", ""] =
      [noting "early" (1 / 2) none, noting "tidy" 2 none] := by
    refine (List.mergeSort_of_pairwise (l := [noting "early" (1 / 2) none,
      noting "tidy" 2 none]) ?_)
    simp only [List.pairwise_cons, Pass.precedes, noting]
    norm_num
  have hswapped : ∀ name, swappedRegistrations.filter (·.name = name) =
      fiveRegistrations.filter (·.name = name) := by
    intro name
    by_cases h : "late" = name
    · subst h
      rfl
    · simp [swappedRegistrations, fiveRegistrations, noting, List.filter_cons, h]
  obtain ⟨-, -, -, horder, hfailing, -⟩ :=
    run_follows_schedule fiveRegistrations (fun _ => []) ["", " late\t"] [] []
  obtain ⟨-, -, -, -, -, hsucceed⟩ :=
    run_follows_schedule fiveRegistrations (fun _ => []) ["late", "lint"] ["", ""] []
  obtain ⟨hfailure, hfinished, hstate, -⟩ := hfailing _ _ _ "untidy" hps ⟨rfl, trivial⟩ rfl
  obtain ⟨hfailure', hfinished', -⟩ := hsucceed (by rw [hps']; exact ⟨rfl, rfl, trivial⟩)
  rw [hps'] at hfinished'
  exact ⟨hfailure, hfinished, hstate, horder _ hswapped, hfailure', hfinished'⟩

end PassSet

end WhileLang
