import WhileLang.Pipeline.PassSet
import WhileLang.Proofs.Lookup

/-!
# Records and runs of passes

Laws that hold of any passes: how a run is put together from its parts, what it keeps if every pass
keeps it, and when two runs go the same way.

* `Record.get?_put`, `Record.get?_putIfAbsent`: what is stored under a name; `Record.AgreeBut`: two
  records agree except for some names.
* `PassSet.runAll_append`, `PassSet.runAll_append_of_failure`: a run in two parts.
* `PassSet.runAll_invariant`: what every pass keeps, a run keeps.
* `PassSet.runAll_lockstep`: what two runs have in common at every pass they have in common at the
  end.
-/

namespace WhileLang

/-! ## Records -/

namespace Record

theorem get?_put (r : Record) (name key : String) (d : Datum) :
    (r.put name d).get? key = if key = name then some d else r.get? key := by
  induction r with
  | nil =>
      by_cases hk : key = name
      · simp [put, get?, hk]
      · simp [put, get?, hk, lookup_cons_of_ne hk]
  | cons entry rest ih =>
      obtain ⟨n, old⟩ := entry
      simp only [get?] at ih
      rw [put]
      by_cases hn : n = name
      · subst hn
        rw [if_pos rfl]
        by_cases hk : key = n
        · simp [get?, hk]
        · rw [get?, get?, lookup_cons_of_ne hk, lookup_cons_of_ne hk, if_neg hk]
      · rw [if_neg hn]
        by_cases hk : key = n
        · subst hk
          simp [get?, hn]
        · rw [get?, get?, lookup_cons_of_ne hk, lookup_cons_of_ne hk, ih]

theorem get?_putIfAbsent (r : Record) (name key : String) (d : Datum) :
    (r.putIfAbsent name d).get? key = (r.get? key).or (if key = name then some d else none) := by
  unfold putIfAbsent
  split
  · next h =>
      obtain ⟨d', hd'⟩ := Option.isSome_iff_exists.1 h
      by_cases hk : key = name
      · rw [hk, hd', Option.some_or]
      · rw [if_neg hk, Option.or_none]
  · next h =>
      rw [get?_put]
      by_cases hk : key = name
      · rw [if_pos hk, if_pos hk, hk, Option.not_isSome_iff_eq_none.1 h, Option.none_or]
      · rw [if_neg hk, if_neg hk, Option.or_none]

/-- Two records have the same data under every name but some. -/
def AgreeBut (names : List String) (r r' : Record) : Prop :=
  ∀ key, key ∉ names → r.get? key = r'.get? key

theorem AgreeBut.putIfAbsent {names : List String} {r r' : Record} (h : AgreeBut names r r')
    (name : String) (d : Datum) :
    AgreeBut names (r.putIfAbsent name d) (r'.putIfAbsent name d) := by
  intro key hkey
  rw [get?_putIfAbsent, get?_putIfAbsent, h key hkey]

end Record

/-! ## Running passes -/

namespace PassSet

variable {σ ε ω : Type} {metadata : σ → Record} {ps qs : List (Pass σ ε ω)} {s t : σ}

theorem runAll_of_error {p : Pass σ ε ω} {e : ε} (h : (p.run s).error = some e) :
    runAll metadata (p :: ps) s =
      { state := (p.run s).state, log := (p.run s).log, failure := some (p.name, e) } := by
  simp only [runAll, h]

theorem runAll_of_no_error {p : Pass σ ε ω} (h : (p.run s).error = none) :
    runAll metadata (p :: ps) s =
      { runAll metadata ps (p.run s).state with
        finished := p.name :: (runAll metadata ps (p.run s).state).finished
        log := (p.run s).log ++ completedLine p.name ((metadata (p.run s).state).get? p.name) ::
          (runAll metadata ps (p.run s).state).log } := by
  simp only [runAll, h]

/-- What comes after a failure is not begun. -/
theorem runAll_append_of_failure {f : String × ε} (h : (runAll metadata ps s).failure = some f) :
    runAll metadata (ps ++ qs) s = runAll metadata ps s := by
  induction ps generalizing s with
  | nil => cases h
  | cons p ps ih =>
      rw [List.cons_append]
      cases he : (p.run s).error with
      | some e => rw [runAll_of_error he, runAll_of_error he]
      | none =>
          rw [runAll_of_no_error he] at h
          rw [runAll_of_no_error he, runAll_of_no_error he, ih h]

/-- A run of passes in two parts, if the first part does not fail. -/
theorem runAll_append (h : (runAll metadata ps s).failure = none) :
    runAll metadata (ps ++ qs) s =
      { runAll metadata qs (runAll metadata ps s).state with
        finished := ps.map (·.name) ++ (runAll metadata qs (runAll metadata ps s).state).finished
        log := (runAll metadata ps s).log ++
          (runAll metadata qs (runAll metadata ps s).state).log } := by
  induction ps generalizing s with
  | nil => rfl
  | cons p ps ih =>
      rw [List.cons_append]
      cases he : (p.run s).error with
      | some e => rw [runAll_of_error he] at h; cases h
      | none =>
          rw [runAll_of_no_error he] at h
          rw [runAll_of_no_error he, runAll_of_no_error he, ih h]
          simp

/-- What every pass keeps, a run keeps. -/
theorem runAll_invariant {P : σ → Prop} (hps : ∀ p ∈ ps, ∀ s, P s → P (p.run s).state) (h : P s) :
    P (runAll metadata ps s).state := by
  induction ps generalizing s with
  | nil => exact h
  | cons p ps ih =>
      obtain ⟨hp, hps⟩ := List.forall_mem_cons.1 hps
      cases he : (p.run s).error with
      | some e => rw [runAll_of_error he]; exact hp s h
      | none => rw [runAll_of_no_error he]; exact ih hps (hp s h)

/-- Two runs whose states are related before and after every pass, and where every pass fails in
both or in neither, go the same way. -/
theorem runAll_lockstep {R : σ → σ → Prop}
    (hps : ∀ p ∈ ps, ∀ s t, R s t →
      R (p.run s).state (p.run t).state ∧ (p.run s).error = (p.run t).error) (h : R s t) :
    R (runAll metadata ps s).state (runAll metadata ps t).state ∧
      (runAll metadata ps s).finished = (runAll metadata ps t).finished ∧
      (runAll metadata ps s).failure = (runAll metadata ps t).failure := by
  induction ps generalizing s t with
  | nil => exact ⟨h, rfl, rfl⟩
  | cons p ps ih =>
      obtain ⟨hp, hps⟩ := List.forall_mem_cons.1 hps
      obtain ⟨hstate, herror⟩ := hp s t h
      cases he : (p.run s).error with
      | some e =>
          rw [runAll_of_error he, runAll_of_error (herror ▸ he)]
          exact ⟨hstate, rfl, rfl⟩
      | none =>
          obtain ⟨hR, hfinished, hfailure⟩ := ih hps hstate
          rw [runAll_of_no_error he, runAll_of_no_error (herror ▸ he)]
          exact ⟨hR, congrArg (p.name :: ·) hfinished, hfailure⟩

/-- The pass that fails is one of those that are run. -/
theorem name_mem_of_failure {name : String} {e : ε}
    (h : (runAll metadata ps s).failure = some (name, e)) : name ∈ ps.map (·.name) := by
  induction ps generalizing s with
  | nil => cases h
  | cons p ps ih =>
      cases he : (p.run s).error with
      | some e' =>
          rw [runAll_of_error he] at h
          cases h
          exact List.mem_cons_self
      | none =>
          rw [runAll_of_no_error he] at h
          exact List.mem_cons_of_mem _ (ih h)

/-- A run that does not fail begins with a pass that does not fail. -/
theorem runAll_of_no_failure {p : Pass σ ε ω} (h : (runAll metadata (p :: ps) s).failure = none) :
    (p.run s).error = none ∧ (runAll metadata ps (p.run s).state).failure = none ∧
      (runAll metadata (p :: ps) s).state = (runAll metadata ps (p.run s).state).state := by
  cases he : (p.run s).error with
  | some e => rw [runAll_of_error he] at h; cases h
  | none =>
      rw [runAll_of_no_error he] at h ⊢
      exact ⟨rfl, h, rfl⟩

end PassSet

end WhileLang
