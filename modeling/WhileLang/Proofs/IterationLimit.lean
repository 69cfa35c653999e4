import Mathlib.Data.ENat.Lattice
import Mathlib.Data.Nat.Find
import WhileLang.Proofs.IterationModel
import WhileLang.Proofs.RepresentedTerms
import WhileLang.Proofs.SaturationLoop

/-!
# What a limit on iterations decides

From a given graph, rules take a certain number of iterations until one of them changes nothing: its
settling time, which is infinite if there is no such iteration. The iteration that finds nothing to
change is counted too. So a saturation is complete exactly if its limit on iterations is not below
the settling time, and then the limit makes no difference. Otherwise as many iterations are made as
the limit allows, the next request is refused, and the result is partial, or an error if the budget
is strict. What the budget was used for before does not matter.

* `EGraph.after`: the graph after some iterations; `EGraph.settlingTime`: when nothing changes.
* `Budget.remaining`: how many requests are still granted; `Budget.limit`: how many are in all.
* `EGraph.saturateFor_settles`, `EGraph.saturateFor_stops`: the two ways in which iterations end.
* `EGraph.saturate_settles`, `EGraph.saturate_stops`: what a saturation gives in each case.
* `EGraph.saturate_threshold`: the settling time is the threshold for limits on iterations.
-/

namespace WhileLang

/-! ## The settling time -/

namespace EGraph

/-- The graph after a number of iterations. -/
def after (g : EGraph) (rules : List Rule) (n : Nat) : EGraph :=
  (fun g => g.iterate rules)^[n] g

/-- Whether an iteration, counted from zero, changes nothing. -/
def Idle (g : EGraph) (rules : List Rule) (n : Nat) : Prop :=
  (g.after rules n).updated (g.after rules (n + 1)) = false

instance (g : EGraph) (rules : List Rule) : DecidablePred (g.Idle rules) :=
  fun n => inferInstanceAs (Decidable ((g.after rules n).updated (g.after rules (n + 1)) = false))

open Classical in
/-- The number of the first iteration, counted from one, that changes nothing. -/
noncomputable def settlingTime (g : EGraph) (rules : List Rule) : ℕ∞ :=
  if h : ∃ n, g.Idle rules n then ((Nat.find h + 1 : Nat) : ℕ∞) else ⊤

variable {g : EGraph} {rules : List Rule}

@[simp] theorem after_zero : g.after rules 0 = g := rfl

theorem after_add (m n : Nat) : g.after rules (m + n) = (g.after rules m).after rules n := by
  rw [Nat.add_comm m n]
  exact Function.iterate_add_apply _ n m g

theorem settlingTime_of_idle (h : g.updated (g.iterate rules) = false) :
    g.settlingTime rules = 1 := by
  have hidle : g.Idle rules 0 := h
  have hex : ∃ n, g.Idle rules n := ⟨0, hidle⟩
  rw [settlingTime, dif_pos hex, (Nat.find_eq_zero hex).2 hidle]
  rfl

theorem settlingTime_ne_zero : g.settlingTime rules ≠ 0 := by
  unfold settlingTime
  split
  · exact Nat.cast_ne_zero.2 (Nat.succ_ne_zero _)
  · exact ENat.top_ne_zero

/-- An iteration that changes something brings the settling time one nearer. -/
theorem settlingTime_of_updated (h : g.updated (g.iterate rules) = true) :
    g.settlingTime rules = (g.iterate rules).settlingTime rules + 1 := by
  have hbusy : ¬ g.Idle rules 0 := by
    show ¬ g.updated (g.iterate rules) = false
    simp [h]
  by_cases hex : ∃ n, (g.iterate rules).Idle rules n
  · have hsucc : ∃ n, g.Idle rules (n + 1) := hex
    have hall : ∃ n, g.Idle rules n := hsucc.imp' _ fun _ hn => hn
    rw [settlingTime, dif_pos hall, settlingTime, dif_pos hex, Nat.find_comp_succ hall hsucc hbusy]
    rfl
  · have hnone : ¬ ∃ n, g.Idle rules n := by
      rintro ⟨n, hn⟩
      cases n with
      | zero => exact hbusy hn
      | succ n => exact hex ⟨n, hn⟩
    rw [settlingTime, dif_neg hnone, settlingTime, dif_neg hex]
    rfl

end EGraph

/-! ## Requests -/

namespace Budget

/-- How many more iterations are granted. -/
def remaining (b : Budget) : ℕ∞ :=
  match b.maxIterations with
  | some limit => ((limit - b.iterations).toNat : ℕ∞)
  | none => ⊤

/-- How many iterations are granted from the start; a limit below zero grants none. -/
def limit (b : Budget) : ℕ∞ :=
  match b.maxIterations with
  | some limit => (limit.toNat : ℕ∞)
  | none => ⊤

/-- No limit has been reached, and by a clock that on time is not going to be. -/
structure Open (b : Budget) (clock : Clock) : Prop where
  reached : b.reached = false
  time : ∀ k, b.outOfTime (clock k) = false

variable {b : Budget} {clock : Clock}

@[simp] theorem remaining_restart (now : Rat) : (b.restart now).remaining = b.limit := by
  unfold remaining limit restart
  cases b.maxIterations <;> simp

theorem Open.later (h : b.Open clock) (n : Nat) : (b.use n).Open clock.later :=
  ⟨h.reached, fun k => h.time (k + 1)⟩

theorem use_use (m n : Nat) : (b.use m).use n = b.use (m + n) := by
  simp [use, Int.add_assoc]

theorem outOfIterations_iff : b.outOfIterations = true ↔ b.remaining = 0 := by
  unfold outOfIterations remaining
  cases b.maxIterations <;> simp

theorem remaining_of_pos (h : b.remaining ≠ 0) : b.remaining = (b.use 1).remaining + 1 := by
  revert h
  unfold remaining use
  cases b.maxIterations with
  | none => exact fun _ => rfl
  | some limit =>
      intro h
      have hlt : (limit - b.iterations).toNat = (limit - (b.iterations + 1)).toNat + 1 := by
        simp only [ne_eq, Nat.cast_eq_zero] at h
        omega
      simp only [hlt]
      push_cast
      rfl

/-- The request is granted as long as there are iterations left. -/
theorem Open.request_granted (h : b.Open clock) (hr : b.remaining ≠ 0) :
    b.request (clock 0) = (true, b.use 1) := by
  have hiter : b.outOfIterations = false := by
    rw [← Bool.not_eq_true, outOfIterations_iff]
    exact hr
  unfold request
  rw [if_neg (by simp [h.reached]), if_neg (by simp [hiter]), if_neg (by simp [h.time 0])]
  rfl

/-- After that it is refused, and the limit is noted. -/
theorem Open.request_refused (h : b.Open clock) (hr : b.remaining = 0) :
    b.request (clock 0) = (false, b.note "iteration_budget" "iteration budget exceeded") := by
  simp [request, h.reached, outOfIterations_iff.2 hr]

theorem lt_allowance {n : Nat} (h : b.remaining = n) (patience : Nat) :
    n < b.allowance patience := by
  revert h
  unfold remaining allowance
  cases b.maxIterations with
  | none =>
      intro h
      cases h
  | some limit =>
      intro h
      rw [← ENat.natCast_inj.1 h]
      exact Nat.lt_succ_self _

theorem le_allowance {n patience : Nat} (h : (n : ℕ∞) ≤ b.remaining)
    (hp : b.remaining = ⊤ → n ≤ patience) : n ≤ b.allowance patience := by
  revert h hp
  unfold remaining allowance
  cases b.maxIterations with
  | none => exact fun _ hp => hp rfl
  | some limit =>
      intro h _
      exact Nat.le_succ_of_le (ENat.natCast_le_natCast.1 h)

end Budget

/-! ## The iterations -/

namespace EGraph

variable {g : EGraph} {rules : List Rule} {b : Budget} {clock : Clock} {n : Nat}

/-- If the settling time is within the limit, iterations are made until then. -/
theorem saturateFor_settles {k : Nat} (hb : b.Open clock) (hk : g.settlingTime rules = k)
    (hr : (k : ℕ∞) ≤ b.remaining) (hn : k ≤ n) :
    Engine.saturateFor rules n clock g b =
      ⟨g.after rules k, b.use k, true, List.replicate (k - 1) true ++ [false]⟩ := by
  -- an iteration that changes something takes one from the settling time and one from the limit
  induction k generalizing g b clock n with
  | zero => exact absurd hk settlingTime_ne_zero
  | succ k ih =>
      obtain ⟨n, rfl⟩ := Nat.exists_eq_succ_of_ne_zero (Nat.ne_zero_of_lt hn)
      have hpos : b.remaining ≠ 0 := by
        intro hzero
        simp [hzero] at hr
      have hgranted := hb.request_granted hpos
      cases hu : g.updated (g.iterate rules) with
      | false =>
          rw [settlingTime_of_idle hu] at hk
          obtain rfl : k = 0 := Nat.succ.inj (ENat.natCast_inj.1 hk).symm
          exact Engine.saturateFor_idle hgranted hu
      | true =>
          rw [settlingTime_of_updated hu, Nat.cast_succ] at hk
          rw [Budget.remaining_of_pos hpos, Nat.cast_succ] at hr
          have hk' := ENat.add_left_injective_of_ne_top ENat.one_ne_top hk
          have hr' := (ENat.add_le_add_iff_right ENat.one_ne_top).1 hr
          have hrest := ih (hb.later 1) hk' hr' (Nat.le_of_succ_le_succ hn)
          refine (Engine.saturateFor_updated hgranted hu).trans ?_
          rw [show Engine.iterate g rules = g.iterate rules from rfl, hrest]
          cases k with
          | zero => exact absurd hk' settlingTime_ne_zero
          | succ k =>
              rw [Budget.use_use, Nat.add_comm 1]
              rfl

/-- If the limit is below the settling time, as many iterations are made as it allows, and the next
one is refused. -/
theorem saturateFor_stops {m : Nat} (hb : b.Open clock) (hm : b.remaining = m)
    (hk : (m : ℕ∞) < g.settlingTime rules) (hn : m < n) :
    Engine.saturateFor rules n clock g b =
      ⟨g.after rules m, (b.use m).note "iteration_budget" "iteration budget exceeded", false,
        List.replicate m true⟩ := by
  obtain ⟨n, rfl⟩ := Nat.exists_eq_succ_of_ne_zero (Nat.ne_zero_of_lt hn)
  induction m generalizing g b clock n with
  | zero =>
      rw [Engine.saturateFor_refused (hb.request_refused hm)]
      simp [Budget.use]
  | succ m ih =>
      have hpos : b.remaining ≠ 0 := by simp [hm]
      have hgranted := hb.request_granted hpos
      cases hu : g.updated (g.iterate rules) with
      | false =>
          rw [settlingTime_of_idle hu] at hk
          simp at hk
      | true =>
          rw [settlingTime_of_updated hu, Nat.cast_succ] at hk
          rw [Budget.remaining_of_pos hpos, Nat.cast_succ] at hm
          have hk' := (ENat.add_lt_add_iff_right ENat.one_ne_top).1 hk
          have hm' := ENat.add_left_injective_of_ne_top ENat.one_ne_top hm
          obtain ⟨n, rfl⟩ := Nat.exists_eq_succ_of_ne_zero
            (Nat.ne_zero_of_lt (Nat.lt_of_succ_lt_succ hn))
          have hrest := ih (hb.later 1) hm' hk' n (Nat.lt_of_succ_lt_succ hn)
          refine (Engine.saturateFor_updated hgranted hu).trans ?_
          rw [show Engine.iterate g rules = g.iterate rules from rfl, hrest, Budget.use_use,
            Nat.add_comm 1]
          rfl

end EGraph

/-! ## What is reported -/

namespace Extraction

/-- What is said of a saturation in which some iteration, counted from one, changed nothing. -/
structure Complete (e : Extraction) (iteration : Nat) : Prop where
  saturated : e.metadata.get? "saturated" = some (.bool true)
  iterations : e.metadata.get? "iterations" = some (.int iteration)
  whole : ∀ name ∈ ["partial", "partial_kind", "partial_reason"], e.metadata.get? name = none

/-- What is said of a saturation that the limit on iterations has stopped. -/
structure Partial (e : Extraction) (iterations : Nat) : Prop where
  saturated : e.metadata.get? "saturated" = some (.bool false)
  iterations : e.metadata.get? "iterations" = some (.int iterations)
  stopped : e.metadata.get? "partial" = some (.bool true)
  kind : e.metadata.get? "partial_kind" = some (.text "iteration_budget")

/-- The nodes and the cost are those of the term that is read off a graph for a root. -/
def ReadOff (e : Extraction) (g : EGraph) (root : Term) : Prop :=
  ∃ t, (g.readOff root).2 = some (t, e.cost) ∧ e.nodes = t.flatten

variable {e : Extraction} {n : Nat}

theorem complete_of_saturated (hs : e.saturated = true) (hi : e.iterations = n)
    (h : e.stopped = none) : e.Complete n := by
  obtain ⟨nodes, cost, saturated, iterations, rules, stopped⟩ := e
  subst hs hi h
  refine ⟨rfl, rfl, ?_⟩
  simp only [List.forall_mem_cons, List.not_mem_nil, false_implies, implies_true, and_true]
  exact ⟨rfl, rfl, rfl⟩

theorem partial_of_stopped {reason : String} (hs : e.saturated = false) (hi : e.iterations = n)
    (h : e.stopped = some ("iteration_budget", reason)) : e.Partial n := by
  obtain ⟨nodes, cost, saturated, iterations, rules, stopped⟩ := e
  subst hs hi h
  exact ⟨rfl, rfl, rfl, rfl⟩

end Extraction

namespace EGraph

variable {g : EGraph} {root : Term} {rules : List Rule} {budget : Budget} {clock : Clock}
  {patience : Nat}

/-- A strict budget that has reached its limit makes an error of it. -/
theorem saturate_of_strict (root : Term) {p : Progress EGraph} {kind reason : String}
    (hp : Engine.progress g rules budget clock patience = p) (hu : p.unfinished = false)
    (h : p.stopped = some (kind, reason)) (hs : budget.strict = true) :
    (Engine.saturate g root rules budget clock patience).graph = p.graph ∧
      (Engine.saturate g root rules budget clock patience).result =
        .error (.budget ⟨kind, reason, p.budget.iterations⟩) := by
  unfold Engine.saturate Progress.conclude
  simp [hp, hu, h, hs]

/-- Otherwise a term is read off. -/
theorem saturate_of_lenient (root : Term) {p : Progress EGraph}
    (hp : Engine.progress g rules budget clock patience = p) (hu : p.unfinished = false)
    (h : p.stopped = none ∨ budget.strict = false) :
    (Engine.saturate g root rules budget clock patience).graph = (p.graph.readOff root).1 ∧
      (Engine.saturate g root rules budget clock patience).result =
        Engine.report p.graph root rules p.saturated p.budget.iterations p.stopped := by
  unfold Engine.saturate
  rw [hp]
  rcases p.conclude_cases root rules budget.strict with
    ⟨hu', -⟩ | ⟨-, hstrict, -, kind, reason, hstopped, -⟩ | ⟨-, -, hgraph, hresult⟩
  · cases hu.symm.trans hu'
  · rw [hstopped, hstrict] at h
    simp at h
  · exact ⟨hgraph, hresult⟩

end EGraph

/-- Only the limit on iterations decides when a saturation ends: that on time does not bind, and if
iterations are not limited, the caller has the patience to wait until nothing changes. -/
structure Budget.Decides (budget : Budget) (g : EGraph) (rules : List Rule) (clock : Clock)
    (patience : Nat) : Prop where
  time : ∀ k, (budget.restart (clock 0)).outOfTime (clock (k + 1)) = false
  patient : budget.limit = ⊤ → g.settlingTime rules ≤ patience

namespace EGraph

variable {g : EGraph} {root : Term} {rules : List Rule} {budget : Budget} {clock : Clock}
  {patience : Nat} {e : Extraction}

/-- A saturation whose limit is not below the settling time goes on until then. -/
theorem saturate_settles (hd : budget.Decides g rules clock patience)
    (hl : g.settlingTime rules ≤ budget.limit) (root : Term) :
    ∃ k : Nat, g.settlingTime rules = k ∧
      (Engine.saturate g root rules budget clock patience).graph =
        ((g.after rules k).readOff root).1 ∧
      (Engine.saturate g root rules budget clock patience).result =
        Engine.report (g.after rules k) root rules true k none := by
  have hfinite : g.settlingTime rules ≠ ⊤ := by
    intro htop
    have hle := hd.patient (top_le_iff.1 (htop ▸ hl))
    exact ENat.natCast_ne_top patience (top_le_iff.1 (htop ▸ hle))
  obtain ⟨k, hk⟩ := ENat.ne_top_iff_exists.1 hfinite
  rw [← hk, ← Budget.remaining_restart (clock 0)] at hl
  have hn : k ≤ (budget.restart (clock 0)).allowance patience := by
    apply Budget.le_allowance hl
    intro htop
    rw [Budget.remaining_restart] at htop
    exact ENat.natCast_le_natCast.1 (hk ▸ hd.patient htop)
  have hp := saturateFor_settles ⟨rfl, hd.time⟩ hk.symm hl hn
  have h := saturate_of_lenient root hp rfl (.inl rfl)
  refine ⟨k, hk.symm, ?_⟩
  simpa [Budget.use, Budget.restart, Progress.stopped] using h

/-- A saturation whose limit is below the settling time is stopped when the limit is reached. -/
theorem saturate_stops (hd : budget.Decides g rules clock patience)
    (hl : budget.limit < g.settlingTime rules) (root : Term) :
    ∃ m : Nat, budget.limit = m ∧
      (budget.strict = false →
        (Engine.saturate g root rules budget clock patience).graph =
          ((g.after rules m).readOff root).1 ∧
        (Engine.saturate g root rules budget clock patience).result =
          Engine.report (g.after rules m) root rules false m
            (some ("iteration_budget", "iteration budget exceeded"))) ∧
      (budget.strict = true →
        (Engine.saturate g root rules budget clock patience).graph = g.after rules m ∧
        (Engine.saturate g root rules budget clock patience).result =
          .error (.budget ⟨"iteration_budget", "iteration budget exceeded", m⟩)) := by
  obtain ⟨m, hm⟩ := ENat.ne_top_iff_exists.1 hl.ne_top
  have hr : (budget.restart (clock 0)).remaining = m := by
    rw [Budget.remaining_restart]
    exact hm.symm
  have hp := saturateFor_stops ⟨rfl, hd.time⟩ hr (hm ▸ hl) (Budget.lt_allowance hr patience)
  refine ⟨m, hm.symm, ?_, ?_⟩
  · intro hs
    have h := saturate_of_lenient root hp rfl (.inr hs)
    simpa [Budget.use, Budget.restart, Budget.note, Progress.stopped] using h
  · intro hs
    have h := saturate_of_strict root hp rfl rfl hs
    simpa [Budget.use, Budget.restart, Budget.note, Progress.stopped] using h

theorem complete_of_report {k : Nat} (h : Engine.report g root rules true k none = .ok e) :
    e.Complete k ∧ e.ReadOff g root := by
  obtain ⟨t, ht, hnodes, hs, hi, hst⟩ := Engine.report_eq_ok h
  exact ⟨Extraction.complete_of_saturated hs hi hst, t, ht, hnodes⟩

theorem partial_of_report {m : Nat} {reason : String}
    (h : Engine.report g root rules false m (some ("iteration_budget", reason)) = .ok e) :
    e.Partial m ∧ e.ReadOff g root := by
  obtain ⟨t, ht, hnodes, hs, hi, hst⟩ := Engine.report_eq_ok h
  exact ⟨Extraction.partial_of_stopped hs hi hst, t, ht, hnodes⟩

/-- What is returned is complete if the settling time is reached, and partial if the limit is. -/
theorem complete_or_partial (hd : budget.Decides g rules clock patience)
    (he : (Engine.saturate g root rules budget clock patience).result = .ok e) :
    (∃ k : Nat, g.settlingTime rules = k ∧ g.settlingTime rules ≤ budget.limit ∧
      e.Complete k ∧ e.ReadOff (g.after rules k) root) ∨
    ∃ m : Nat, budget.limit = m ∧ budget.limit < g.settlingTime rules ∧
      e.Partial m ∧ e.ReadOff (g.after rules m) root := by
  rcases le_or_gt (g.settlingTime rules) budget.limit with hl | hl
  · obtain ⟨k, hk, -, hresult⟩ := saturate_settles hd hl root
    exact .inl ⟨k, hk, hl, complete_of_report (hresult.symm.trans he)⟩
  · obtain ⟨m, hm, hlenient, hstrict⟩ := saturate_stops hd hl root
    cases hs : budget.strict with
    | true =>
        have herror := (hstrict hs).2.symm.trans he
        cases herror
    | false => exact .inr ⟨m, hm, hl, partial_of_report ((hlenient hs).2.symm.trans he)⟩

/-- It is read off the graph after as many iterations as the lesser of the two. -/
theorem readOff_of_saturate (hd : budget.Decides g rules clock patience)
    (he : (Engine.saturate g root rules budget clock patience).result = .ok e) :
    ∃ n : Nat, (n : ℕ∞) = min budget.limit (g.settlingTime rules) ∧
      e.ReadOff (g.after rules n) root := by
  rcases complete_or_partial hd he with ⟨k, hk, hl, -, hread⟩ | ⟨m, hm, hl, -, hread⟩
  · refine ⟨k, ?_, hread⟩
    rw [min_eq_right hl, hk]
  · refine ⟨m, ?_, hread⟩
    rw [min_eq_left hl.le, hm]

/-- **The settling time is the threshold for limits on iterations.** Let only the limit on
iterations decide when a saturation ends, whatever the budget was used for before: the time is not
out whenever the clock is looked at. If the limit is not below the settling time `k`, the saturation
is complete after `k` iterations, and its result is that of every other such budget, by another
clock too. If it is, as many iterations are made as the limit `m` allows, and then the result is
partial, or an error if the budget is strict. So what is returned is either saturated or partial,
and never both. -/
theorem saturate_threshold (g : EGraph) (root : Term) (rules : List Rule) (budget : Budget)
    (clock : Clock) (patience : Nat) (hd : budget.Decides g rules clock patience) :
    let s := Engine.saturate g root rules budget clock patience
    (g.settlingTime rules ≤ budget.limit → ∃ k : Nat, g.settlingTime rules = k ∧
      s.graph = ((g.after rules k).readOff root).1 ∧
      (root.inWords = true →
        ∃ e, s.result = .ok e ∧ e.Complete k ∧ e.ReadOff (g.after rules k) root) ∧
      ∀ (budget' : Budget) (clock' : Clock) (patience' : Nat),
        budget'.Decides g rules clock' patience' → g.settlingTime rules ≤ budget'.limit →
          (Engine.saturate g root rules budget' clock' patience').result = s.result) ∧
    (budget.limit < g.settlingTime rules → ∃ m : Nat, budget.limit = m ∧
      (budget.strict = false → s.graph = ((g.after rules m).readOff root).1 ∧
        (root.inWords = true →
          ∃ e, s.result = .ok e ∧ e.Partial m ∧ e.ReadOff (g.after rules m) root)) ∧
      (budget.strict = true → s.graph = g.after rules m ∧
        s.result = .error (.budget ⟨"iteration_budget", "iteration budget exceeded", m⟩))) ∧
    ∀ e, s.result = .ok e →
      (e.metadata.get? "saturated" = some (.bool true) ↔
        e.metadata.get? "partial" ≠ some (.bool true)) := by
  intro s
  refine ⟨?_, ?_, ?_⟩
  · intro hl
    obtain ⟨k, hk, hgraph, hresult⟩ := saturate_settles hd hl root
    refine ⟨k, hk, hgraph, ?_, ?_⟩
    · intro hw
      obtain ⟨e, he⟩ :=
        Engine.exists_report (readOff_ne_none hw (g.after rules k)) rules true k none
      exact ⟨e, hresult.trans he, complete_of_report he⟩
    · intro budget' clock' patience' hd' hl'
      obtain ⟨k', hk', -, hresult'⟩ := saturate_settles hd' hl' root
      obtain rfl : k = k' := ENat.natCast_inj.1 (hk.symm.trans hk')
      exact hresult'.trans hresult.symm
  · intro hl
    obtain ⟨m, hm, hlenient, hstrict⟩ := saturate_stops hd hl root
    refine ⟨m, hm, ?_, hstrict⟩
    intro hs
    obtain ⟨hgraph, hresult⟩ := hlenient hs
    refine ⟨hgraph, fun hw => ?_⟩
    obtain ⟨e, he⟩ :=
      Engine.exists_report (readOff_ne_none hw (g.after rules m)) rules false m _
    exact ⟨e, hresult.trans he, partial_of_report he⟩
  · intro e he
    rcases complete_or_partial hd he with ⟨k, -, -, hcomplete, -⟩ | ⟨m, -, -, hpartial, -⟩
    · simp [hcomplete.saturated, hcomplete.whole "partial" (by simp)]
    · simp [hpartial.saturated, hpartial.stopped]

/-- The difference of an argument and itself. -/
def selfDifference : Term :=
  .bin .sub (.arg (.num 0)) (.arg (.num 0))

/-- The first iteration makes the difference zero, and the second has nothing to change. -/
theorem selfDifference_settlingTime :
    (addTerm {} selfDifference).1.settlingTime arithmeticRules = 2 := by
  have hupdated : let g := (addTerm {} selfDifference).1
      let g' := g.iterate arithmeticRules
      g.updated g' = true ∧ g'.updated (g'.iterate arithmeticRules) = false := by
    simp only [EGraph.iterate]
    unfold Draft.applyRule Draft.applyBatch
    simp only [Draft.conclude_index]
    decide +kernel
  rw [settlingTime_of_updated hupdated.1, settlingTime_of_idle hupdated.2]
  rfl

/-- A clock that shows two seconds more after the first look at it. -/
def twoSeconds : Clock
  | 0 => 10
  | _ + 1 => 12

/-- Without limits the difference is settled in the second iteration, whatever the clock shows. In
two seconds of the five that are allowed if nothing else is said, a limit of one makes the result
partial, though the budget had been used up before, and a strict budget below zero stops before the
first iteration. -/
theorem selfDifference_threshold :
    let g := (addTerm {} selfDifference).1
    (∀ clock, ∃ e, (Engine.saturate g selfDifference arithmeticRules
        { maxIterations := none, maxSeconds := none } clock 2).result = .ok e ∧ e.Complete 2) ∧
    (∃ e, (Engine.saturate g selfDifference arithmeticRules
        { maxIterations := some 1, iterations := 7, reached := true } twoSeconds 0).result = .ok e ∧
      e.Partial 1) ∧
    (Engine.saturate g selfDifference arithmeticRules
        { maxIterations := some (-3), strict := true } twoSeconds 0).result =
      .error (.budget ⟨"iteration_budget", "iteration budget exceeded", 0⟩) := by
  intro g
  have htime := selfDifference_settlingTime
  refine ⟨?_, ?_, ?_⟩
  · intro clock
    have h := saturate_threshold g selfDifference arithmeticRules
      { maxIterations := none, maxSeconds := none } clock 2 ⟨fun _ => rfl, fun _ => htime.le⟩
    obtain ⟨k, hk, -, hresult, -⟩ := h.1 le_top
    obtain rfl : k = 2 := ENat.natCast_inj.1 (hk.symm.trans htime)
    obtain ⟨e, he, hcomplete, -⟩ := hresult (by decide)
    exact ⟨e, he, hcomplete⟩
  · have h := saturate_threshold g selfDifference arithmeticRules
      { maxIterations := some 1, iterations := 7, reached := true } twoSeconds 0
      ⟨fun _ => show Budget.outOfTime _ 12 = false by decide +kernel, fun htop => by cases htop⟩
    have hlt : (1 : ℕ∞) < 2 := by decide
    obtain ⟨m, hm, hresult, -⟩ := h.2.1 (htime ▸ hlt)
    obtain rfl : 1 = m := ENat.natCast_inj.1 hm
    obtain ⟨e, he, hpartial, -⟩ := (hresult rfl).2 (by decide)
    exact ⟨e, he, hpartial⟩
  · have h := saturate_threshold g selfDifference arithmeticRules
      { maxIterations := some (-3), strict := true } twoSeconds 0
      ⟨fun _ => show Budget.outOfTime _ 12 = false by decide +kernel, fun htop => by cases htop⟩
    have hlt : (0 : ℕ∞) < 2 := by decide
    obtain ⟨m, hm, -, hresult⟩ := h.2.1 (htime ▸ hlt)
    obtain rfl : 0 = m := ENat.natCast_inj.1 hm
    exact (hresult rfl).2

end EGraph

end WhileLang
