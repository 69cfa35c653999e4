import WhileLang.EGraph.Saturate

/-!
# How a saturation goes

What can be said of the iterations and of a whole saturation without knowing what the engine does
in an iteration. Whatever an iteration keeps is kept by all of them; a limit on iterations lets none
go on without end; and of the clock it matters only at which requests the time is out.

* `Budget.request_cases`: a request is granted and counted, or a limit is noted.
* `Engine.saturateFor_induction`: what an iteration keeps is kept by iterations;
  `Engine.exists_idle_of_saturated`: the last one has changed nothing.
* `Progress.conclude_cases`: the three ways in which a saturation ends;
  `Engine.maxIterations_of_unfinished`: one of them needs that iterations are not limited.
* `Budget.TimedAlike`: by two clocks, the time is out at the same requests.
* `Engine.saturate_of_timedAlike`: then a saturation gives the same by both;
  `Engine.saturate_of_iterations`: by any two clocks it does, if as many iterations are made.
-/

namespace WhileLang

/-! ## Requests -/

namespace Budget

variable {b b' : Budget} {now : Rat}

/-- The budget after a number of iterations more. -/
def use (b : Budget) (n : Nat) : Budget :=
  { b with iterations := b.iterations + n }

theorem reached_note (b : Budget) (kind reason : String) : (b.note kind reason).reached = true := by
  unfold note
  split
  · assumption
  · rfl

theorem iterations_note (b : Budget) (kind reason : String) :
    (b.note kind reason).iterations = b.iterations := by
  unfold note
  split <;> rfl

/-- A request is refused, and then a limit is reached and nothing is counted; or it is granted,
because no limit is, and counted. -/
theorem request_cases (b : Budget) (now : Rat) :
    (∃ b', b.request now = (false, b') ∧ b'.reached = true ∧ b'.iterations = b.iterations) ∨
      b.reached = false ∧ b.outOfIterations = false ∧ b.outOfTime now = false ∧
        b.request now = (true, b.use 1) := by
  unfold request
  by_cases hr : b.reached = true
  · exact .inl ⟨b, by simp [hr], hr, rfl⟩
  by_cases hi : b.outOfIterations = true
  · exact .inl ⟨_, (if_neg hr).trans (if_pos hi), reached_note .., iterations_note ..⟩
  by_cases ht : b.outOfTime now = true
  · exact .inl ⟨_, (if_neg hr).trans ((if_neg hi).trans (if_pos ht)), reached_note ..,
      iterations_note ..⟩
  · exact .inr ⟨by simpa using hr, by simpa using hi, by simpa using ht, by simp [hr, hi, ht, use]⟩

end Budget

namespace Engine

variable {G : Type} [Engine G] {rules : List Rule} {n : Nat} {clock clock' : Clock} {g : G}
  {b b' : Budget}

/-! ## Iterations -/

theorem saturateFor_refused (h : b.request (clock 0) = (false, b')) :
    saturateFor rules (n + 1) clock g b = ⟨g, b', false, []⟩ := by
  rw [saturateFor, h]

theorem saturateFor_idle (h : b.request (clock 0) = (true, b'))
    (hu : updated g (iterate g rules) = false) :
    saturateFor rules (n + 1) clock g b = ⟨iterate g rules, b', true, [false]⟩ := by
  rw [saturateFor, h]
  simp [hu]

theorem saturateFor_updated (h : b.request (clock 0) = (true, b'))
    (hu : updated g (iterate g rules) = true) :
    saturateFor rules (n + 1) clock g b =
      { saturateFor rules n clock.later (iterate g rules) b' with
        updates := true :: (saturateFor rules n clock.later (iterate g rules) b').updates } := by
  rw [saturateFor, h]
  simp [hu]

/-- **What an iteration keeps is kept by iterations**, and if the last one has changed nothing, it
started from a graph with what is kept. -/
theorem saturateFor_induction {P : G → Prop} (hstep : ∀ g, P g → P (iterate g rules)) (h : P g) :
    P (saturateFor rules n clock g b).graph ∧
      ((saturateFor rules n clock g b).saturated = true → ∃ g₀, P g₀ ∧
        (saturateFor rules n clock g b).graph = iterate g₀ rules ∧
        updated g₀ (iterate g₀ rules) = false) := by
  induction n generalizing clock g b with
  | zero => exact ⟨h, fun hsat => by cases hsat⟩
  | succ n ih =>
      rcases b.request_cases (clock 0) with ⟨b', hb', -⟩ | ⟨-, -, -, hgranted⟩
      · rw [saturateFor_refused hb']
        exact ⟨h, fun hsat => by cases hsat⟩
      · cases hu : updated g (iterate g rules) with
        | false =>
            rw [saturateFor_idle hgranted hu]
            exact ⟨hstep g h, fun _ => ⟨g, h, rfl, hu⟩⟩
        | true =>
            rw [saturateFor_updated hgranted hu]
            exact ih (hstep g h)

/-- Within as many requests as there are iterations left, and one more, the iterations come to an
end or reach a limit. -/
theorem unfinished_of_limit {limit : Int} (hlimit : b.maxIterations = some limit)
    (hn : (limit - b.iterations).toNat < n) :
    (saturateFor rules n clock g b).unfinished = false := by
  induction n generalizing clock g b with
  | zero => exact absurd hn (Nat.not_lt_zero _)
  | succ n ih =>
      rcases b.request_cases (clock 0) with ⟨b', hb', hreached, -⟩ | ⟨-, hleft, -, hgranted⟩
      · rw [saturateFor_refused hb']
        simp [Progress.unfinished, hreached]
      · cases hu : updated g (iterate g rules) with
        | false =>
            rw [saturateFor_idle hgranted hu]
            rfl
        | true =>
            rw [saturateFor_updated hgranted hu]
            refine ih hlimit ?_
            have hleft' : b.iterations < limit := by
              simpa [Budget.outOfIterations, hlimit] using hleft
            show (limit - (b.iterations + 1)).toNat < n
            omega

end Engine

/-! ## Whole saturations -/

/-- The term read off for a root with what there is to say about it, unless a number of the root is
not a word. -/
def Engine.report {G : Type} [Engine G] (g : G) (root : Term) (rules : List Rule)
    (saturated : Bool) (iterations : Int) (stopped : Option (String × String)) :
    Except SaturationError Extraction :=
  match (readOff g root).2 with
  | none => .error .wideNumber
  | some (t, cost) => .ok ⟨t.flatten, cost, saturated, iterations, reportedNames rules, stopped⟩

/-- What comes of iterations: patience has ended, or a strict budget has reached its limit, or the
root is looked for. -/
theorem Progress.conclude_cases {G : Type} [Engine G] (p : Progress G) (root : Term)
    (rules : List Rule) (strict : Bool) :
    let s := p.conclude root rules strict
    (p.unfinished = true ∧ s.graph = p.graph ∧ s.result = .error .unfinished) ∨
      (p.unfinished = false ∧ strict = true ∧ s.graph = p.graph ∧ ∃ kind reason,
        p.stopped = some (kind, reason) ∧
        s.result = .error (.budget ⟨kind, reason, p.budget.iterations⟩)) ∨
      (p.unfinished = false ∧ (p.stopped = none ∨ strict = false) ∧
        s.graph = (Engine.readOff p.graph root).1 ∧
        s.result = Engine.report p.graph root rules p.saturated p.budget.iterations p.stopped) := by
  dsimp only
  unfold conclude Engine.report
  split
  · next hp => exact .inl ⟨hp, rfl, rfl⟩
  right
  next hp =>
    have hp : p.unfinished = false := by simpa using hp
    split
    · next kind reason hstopped => exact .inl ⟨hp, rfl, rfl, kind, reason, hstopped, rfl⟩
    right
    next hlenient =>
      refine ⟨hp, ?_, ?_⟩
      · cases hstopped : p.stopped with
        | none => exact .inl rfl
        | some limit => exact .inr (Bool.eq_false_iff.2 (hlenient limit.1 limit.2 hstopped))
      · split
        · next g' hr =>
            rw [hr]
            exact ⟨rfl, rfl⟩
        · next g' t cost hr =>
            rw [hr]
            exact ⟨rfl, rfl⟩

namespace Engine

variable {G : Type} [Engine G] {root : Term} {rules : List Rule} {n : Nat} {clock clock' : Clock}
  {g : G} {b budget : Budget} {patience : Nat}

/-- What an iteration keeps is kept by those that a budget allows. -/
theorem progress_induction {P : G → Prop} (hstep : ∀ g, P g → P (iterate g rules)) (h : P g) :
    P (progress g rules budget clock patience).graph :=
  (saturateFor_induction hstep h).1

/-- If the rules had nothing left to change, the last iteration has changed nothing. -/
theorem exists_idle_of_saturated {P : G → Prop} (hstep : ∀ g, P g → P (iterate g rules)) (h : P g)
    (hsat : (progress g rules budget clock patience).saturated = true) :
    ∃ g₀, P g₀ ∧ (progress g rules budget clock patience).graph = iterate g₀ rules ∧
      updated g₀ (iterate g₀ rules) = false :=
  (saturateFor_induction hstep h).2 hsat

/-- Iterations go on for longer than patience only if they are not limited. -/
theorem maxIterations_of_unfinished
    (h : (progress g rules budget clock patience).unfinished = true) :
    budget.maxIterations = none := by
  cases hmax : budget.maxIterations with
  | none => rfl
  | some limit =>
      have hend : (progress g rules budget clock patience).unfinished = false :=
        unfinished_of_limit (b := budget.restart (clock 0)) hmax
          (by simp [Budget.allowance, Budget.restart, hmax])
      cases hend.symm.trans h

theorem report_eq_ok {saturated : Bool} {iterations : Int} {stopped : Option (String × String)}
    {e : Extraction} (h : report g root rules saturated iterations stopped = .ok e) :
    ∃ t, (readOff g root).2 = some (t, e.cost) ∧ e.nodes = t.flatten ∧ e.saturated = saturated ∧
      e.iterations = iterations ∧ e.stopped = stopped := by
  unfold report at h
  split at h
  · cases h
  · next t cost ht =>
      obtain rfl := Except.ok.inj h
      exact ⟨t, ht, rfl, rfl, rfl, rfl⟩

/-- If a term is read off, it is one for the root in the graph that the iterations have left. -/
theorem saturate_eq_ok {e : Extraction}
    (h : (saturate g root rules budget clock patience).result = .ok e) :
    let p := progress g rules budget clock patience
    (saturate g root rules budget clock patience).graph = (readOff p.graph root).1 ∧
      ∃ t, (readOff p.graph root).2 = some (t, e.cost) ∧ e.nodes = t.flatten ∧
        e.saturated = p.saturated ∧ e.iterations = p.budget.iterations := by
  intro p
  rcases p.conclude_cases root rules budget.strict with
    ⟨-, -, hs⟩ | ⟨-, -, -, kind, reason, -, hs⟩ | ⟨-, -, hgraph, hs⟩
  · cases hs.symm.trans h
  · cases hs.symm.trans h
  · obtain ⟨t, ht, hnodes, hsat, hcount, -⟩ := report_eq_ok (hs.symm.trans h)
    exact ⟨hgraph, t, ht, hnodes, hsat, hcount⟩

/-- The graph after a saturation is the one that the iterations have left, or what reading off has
made of it. -/
theorem graph_saturate (g : G) (root : Term) (rules : List Rule) (budget : Budget) (clock : Clock)
    (patience : Nat) :
    let p := progress g rules budget clock patience
    (saturate g root rules budget clock patience).graph = p.graph ∨
      (saturate g root rules budget clock patience).graph = (readOff p.graph root).1 := by
  intro p
  rcases p.conclude_cases root rules budget.strict with ⟨-, hg, -⟩ | ⟨-, -, hg, -⟩ | ⟨-, -, hg, -⟩
  · exact .inl hg
  · exact .inl hg
  · exact .inr hg

theorem exists_report (hroot : (readOff g root).2 ≠ none) (rules : List Rule) (saturated : Bool)
    (iterations : Int) (stopped : Option (String × String)) :
    ∃ e, report g root rules saturated iterations stopped = .ok e := by
  obtain ⟨⟨t, cost⟩, ht⟩ := Option.ne_none_iff_exists'.1 hroot
  unfold report
  rw [ht]
  exact ⟨_, rfl⟩

/-- A saturation whose budget is not strict reads off a term, if there is one to be read off after
the iterations, unless these are not limited and patience ends. -/
theorem saturate_ok
    (hroot : (readOff (progress g rules budget clock patience).graph root).2 ≠ none)
    (hs : budget.strict = false) :
    (budget.maxIterations = none ∧
        (saturate g root rules budget clock patience).result = .error .unfinished) ∨
      ∃ e, (saturate g root rules budget clock patience).result = .ok e := by
  rcases (progress g rules budget clock patience).conclude_cases root rules budget.strict with
    ⟨hp, -, h⟩ | ⟨-, hstrict, -⟩ | ⟨-, -, -, h⟩
  · exact .inl ⟨maxIterations_of_unfinished hp, h⟩
  · exact absurd (hs.symm.trans hstrict) Bool.false_ne_true
  · obtain ⟨e, he⟩ := exists_report hroot rules _ _ _
    exact .inr ⟨e, h.trans he⟩

end Engine

/-! ## What the clock decides -/

namespace Budget

/-- The budget with another start. -/
def startedAt (b : Budget) (start : Rat) : Budget :=
  { b with start }

/-- By two clocks, the time is out at the same requests. -/
def TimedAlike (b : Budget) (clock clock' : Clock) : Prop :=
  ∀ k, (b.restart (clock' 0)).outOfTime (clock' (k + 1)) =
    (b.restart (clock 0)).outOfTime (clock (k + 1))

variable {b : Budget} {start now now' : Rat}

theorem fst_request (b : Budget) (now : Rat) :
    (b.request now).1 = !(b.reached || b.outOfIterations || b.outOfTime now) := by
  unfold request
  split
  · simp [*]
  split
  · simp [*]
  split <;> simp [*]

/-- If a request is granted by both clocks or by neither, the budgets after it differ in their start
only. -/
theorem request_startedAt
    (h : ((b.startedAt start).request now').1 = (b.request now).1) :
    (b.startedAt start).request now' =
      ((b.request now).1, (b.request now).2.startedAt start) := by
  have hi : (b.startedAt start).outOfIterations = b.outOfIterations := rfl
  have hr : (b.startedAt start).reached = b.reached := rfl
  rw [fst_request, fst_request, hi, hr] at h
  unfold request
  rw [hi, hr]
  by_cases hreached : b.reached = true
  · simp [hreached]
  by_cases hleft : b.outOfIterations = true
  · simp [hreached, hleft, note, startedAt]
  · have htime : (b.startedAt start).outOfTime now' = b.outOfTime now := by
      simpa [hreached, hleft] using h
    rw [htime]
    by_cases hout : b.outOfTime now = true
    · simp [hreached, hleft, hout, note, startedAt]
    · simp [hreached, hleft, hout, startedAt]

end Budget

/-- The progress with another start of its budget. -/
def Progress.startedAt {G : Type} (p : Progress G) (start : Rat) : Progress G :=
  { p with budget := p.budget.startedAt start }

namespace Engine

variable {G : Type} [Engine G] {root : Term} {rules : List Rule} {n : Nat} {clock clock' : Clock}
  {g : G} {b budget : Budget} {start : Rat} {patience : Nat}

/-- When the iterations started is not seen in the end. -/
theorem conclude_startedAt (p : Progress G) (root : Term) (rules : List Rule) (strict : Bool)
    (start : Rat) : (p.startedAt start).conclude root rules strict = p.conclude root rules strict :=
  rfl

/-- If the time is out at the same requests, the iterations are the same. -/
theorem saturateFor_startedAt (start : Rat)
    (h : ∀ k, (b.startedAt start).outOfTime (clock' k) = b.outOfTime (clock k)) :
    saturateFor rules n clock' g (b.startedAt start) =
      (saturateFor rules n clock g b).startedAt start := by
  induction n generalizing clock clock' g b with
  | zero => rfl
  | succ n ih =>
      have hfst : ((b.startedAt start).request (clock' 0)).1 = (b.request (clock 0)).1 := by
        rw [Budget.fst_request, Budget.fst_request, h 0]
        rfl
      have hrequest := Budget.request_startedAt hfst
      rcases b.request_cases (clock 0) with ⟨b', hb', -⟩ | ⟨-, -, -, hgranted⟩
      · rw [hb'] at hrequest
        rw [saturateFor_refused hb', saturateFor_refused hrequest]
        rfl
      · rw [hgranted] at hrequest
        cases hu : updated g (iterate g rules) with
        | false =>
            rw [saturateFor_idle hgranted hu, saturateFor_idle hrequest hu]
            rfl
        | true =>
            have hrest :
                saturateFor rules n clock'.later (iterate g rules) ((b.use 1).startedAt start) =
                  (saturateFor rules n clock.later (iterate g rules) (b.use 1)).startedAt start :=
              ih fun k => h (k + 1)
            rw [saturateFor_updated hgranted hu, saturateFor_updated hrequest hu, hrest]
            rfl

theorem progress_of_timedAlike (h : budget.TimedAlike clock clock') :
    progress g rules budget clock' patience =
      (progress g rules budget clock patience).startedAt (clock' 0) :=
  saturateFor_startedAt (b := budget.restart (clock 0)) (clock' 0) h

/-- **If the time is out at the same requests, a saturation gives the same.** -/
theorem saturate_of_timedAlike (h : budget.TimedAlike clock clock') :
    saturate g root rules budget clock' patience = saturate g root rules budget clock patience := by
  unfold saturate
  rw [progress_of_timedAlike h, conclude_startedAt]

/-- Iterations are counted up from where the budget stands. -/
theorem le_iterations : b.iterations ≤ (saturateFor rules n clock g b).budget.iterations := by
  induction n generalizing clock g b with
  | zero => exact Int.le_refl _
  | succ n ih =>
      rcases b.request_cases (clock 0) with ⟨b', hb', -, hcount⟩ | ⟨-, -, -, hgranted⟩
      · rw [saturateFor_refused hb']
        exact Int.le_of_eq hcount.symm
      · have hnext : b.iterations ≤ (b.use 1).iterations := Int.le_add_of_nonneg_right (by decide)
        cases hu : updated g (iterate g rules) with
        | false =>
            rw [saturateFor_idle hgranted hu]
            exact hnext
        | true =>
            rw [saturateFor_updated hgranted hu]
            exact Int.le_trans hnext ih

theorem lt_iterations (h : b.request (clock 0) = (true, b.use 1)) (rules : List Rule) (n : Nat)
    (g : G) : b.iterations < (saturateFor rules (n + 1) clock g b).budget.iterations := by
  have hnext : b.iterations < (b.use 1).iterations := Int.lt_add_one_of_le (Int.le_refl _)
  cases hu : updated g (iterate g rules) with
  | false =>
      rw [saturateFor_idle h hu]
      exact hnext
  | true =>
      rw [saturateFor_updated h hu]
      exact Int.lt_of_lt_of_le hnext le_iterations

/-- If as many iterations are made, they are the same. -/
theorem saturateFor_of_iterations (start : Rat)
    (h : (saturateFor rules n clock' g (b.startedAt start)).budget.iterations =
      (saturateFor rules n clock g b).budget.iterations) :
    saturateFor rules n clock' g (b.startedAt start) =
      (saturateFor rules n clock g b).startedAt start := by
  induction n generalizing clock clock' g b with
  | zero => rfl
  | succ n ih =>
      rcases b.request_cases (clock 0) with ⟨b₁, hb₁, -, hcount⟩ | ⟨-, -, -, hgranted⟩
      · rcases (b.startedAt start).request_cases (clock' 0) with ⟨b₂, hb₂, -⟩ | ⟨-, -, -, hgranted'⟩
        · have hfst : ((b.startedAt start).request (clock' 0)).1 = (b.request (clock 0)).1 := by
            rw [hb₁, hb₂]
          have hrequest := Budget.request_startedAt hfst
          rw [hb₁] at hrequest
          rw [saturateFor_refused hb₁, saturateFor_refused hrequest]
          rfl
        · -- one more iteration is counted by the second clock
          have hlt := lt_iterations hgranted' rules n g
          rw [h, saturateFor_refused hb₁] at hlt
          exact absurd hcount (Int.ne_of_gt hlt)
      · rcases (b.startedAt start).request_cases (clock' 0) with
          ⟨b₂, hb₂, -, hcount⟩ | ⟨-, -, -, hgranted'⟩
        · have hlt := lt_iterations hgranted rules n g
          rw [← h, saturateFor_refused hb₂] at hlt
          exact absurd hcount (Int.ne_of_gt hlt)
        · have hrequest : (b.startedAt start).request (clock' 0) =
            (true, (b.use 1).startedAt start) := hgranted'
          cases hu : updated g (iterate g rules) with
          | false =>
              rw [saturateFor_idle hgranted hu, saturateFor_idle hrequest hu]
              rfl
          | true =>
              rw [saturateFor_updated hgranted hu, saturateFor_updated hrequest hu] at h ⊢
              rw [ih h]
              rfl

/-- **If as many iterations are made, a saturation gives the same**, whatever the clocks show. -/
theorem saturate_of_iterations {e e' : Extraction}
    (h : (saturate g root rules budget clock patience).result = .ok e)
    (h' : (saturate g root rules budget clock' patience).result = .ok e')
    (hcount : e'.iterations = e.iterations) : e' = e := by
  obtain ⟨-, t, -, -, -, he⟩ := saturate_eq_ok h
  obtain ⟨-, t', -, -, -, he'⟩ := saturate_eq_ok h'
  have hp : progress g rules budget clock' patience =
      (progress g rules budget clock patience).startedAt (clock' 0) :=
    saturateFor_of_iterations (b := budget.restart (clock 0)) (clock' 0)
      (he'.symm.trans (hcount.trans he))
  unfold saturate at h h'
  rw [hp, conclude_startedAt] at h'
  exact Except.ok.inj (h'.symm.trans h)

end Engine

end WhileLang
