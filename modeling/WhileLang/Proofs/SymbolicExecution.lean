import WhileLang.Proofs.Simulation
import WhileLang.Proofs.StraightLine

/-!
# Terms agree with compiled code

Straight-line code is read in two ways that have nothing in common: it is executed on terms, and it
is compiled and run by the machine. When the machine comes to its end, the two agree. The chain of
effects denotes what has been printed, and the term of a variable denotes what its slot holds when
the frame is about to be closed. Between them stands the store of the program: the machine keeps it
in its frame (`Related`), and the terms denote its values (`Env.Holds`).

The arguments are integers of any size here. They are not wrapped when they are read, neither by
the machine nor by a term; numbers are, at once in a term and when they are pushed by the machine.

* `Block.get?_of_extend`: all names that are assigned are bound in the end.
* `Block.reaches_closing`: the machine comes to the closing of the frame, with the store in it.
* `Block.symbolic_agrees`: what the terms denote is what the machine has computed.
-/

namespace WhileLang

namespace Block

variable {b : Block} {env env' : Env} {chain chain' : Term} {args : List Int}

/-- A name that is bound stays bound, and a name that is assigned becomes so. -/
theorem get?_of_extend (h : b.extend env chain = (env', .ok chain')) {x : String}
    (hx : (∃ t, env.get? x = some t) ∨ x ∈ b.targets) : ∃ t, env'.get? x = some t := by
  induction b generalizing env chain with
  | nil =>
      obtain ⟨rfl, -⟩ := Prod.mk.inj h
      exact hx.resolve_right fun hmem => by cases hmem
  | cons s b ih =>
      rw [targets, List.mem_append] at hx
      rcases extend_cons_eq_ok h with ⟨y, e, t, rfl, -, h⟩ | ⟨e, t, rfl, -, h⟩
      · rw [Stmt.targets, List.mem_singleton] at hx
        refine ih h ?_
        by_cases hxy : x = y
        · exact .inl ⟨t, by rw [Env.get?_bind, if_pos hxy]⟩
        · rw [Env.get?_bind, if_neg hxy]
          exact hx.imp_right fun hmem => hmem.resolve_left hxy
      · rw [Stmt.targets] at hx
        exact ih h (hx.imp_right fun hmem => hmem.resolve_left List.not_mem_nil)

/-- **The machine comes to the closing of the frame** when straight-line code has been performed:
the frame holds the store, the output is that of the code, and two more steps stop the machine. -/
theorem reaches_closing (hb : Block.refusal? b.slotTable b = none) {σ : Store} {out : List Int}
    (h : b.perform args (fun _ => 0) [] = some (σ, out)) :
    ∃ k s final, (Machine.unlimited b.programCode args).Reaches k {} s ∧
      (Machine.unlimited b.programCode args).instrAt? s.pc = some (.exit b.slotTable.length) ∧
      (Machine.unlimited b.programCode args).runFor 2 s = (.halted, final) ∧
      s.Holds b.slotTable σ ∧ final.output = out := by
  obtain ⟨n, hn⟩ := runFor_of_perform h
  obtain ⟨s₁, hstart, hrel⟩ := start_related hb args
  obtain ⟨j, s₂, hrun, hrel, -⟩ :=
    hrel.run (m := .unlimited b.programCode args) rfl b.nodup_slotTable hn
  obtain ⟨p, hpc, hcont⟩ := hrel.continues
  -- nothing is left to do, but branches may lead on to where the frame is closed
  obtain ⟨i, q, hmoved, hbegins⟩ :=
    hcont.reaches (m := .unlimited b.programCode args) rfl hrel.running hpc
  have hclosing : Related b.slotTable b.programCode ⟨[], σ, out⟩ (s₂.movedTo i q) :=
    ⟨hrel.running, hrel.fp, hrel.locals, hrel.stack, hrel.output, q, rfl, hbegins.continues⟩
  refine ⟨1 + j + i, s₂.movedTo i q, _, (hstart.trans hrun).trans hmoved, ?_,
    hclosing.runFor_closing (m := .unlimited b.programCode args) rfl rfl hbegins,
    hclosing.holds, hclosing.output⟩
  show (Machine.unlimited b.programCode args).instrAt? q = _
  rw [Machine.instrAt?_natCast]
  exact hbegins.1

/-- **Symbolic execution agrees with compiled code.** A program that is executed on terms is
compiled. Whatever integers its arguments are, if the machine halts on its code, the chain of
effects denotes the output. Two steps before, the machine was about to close the frame; reading the
slot of a variable that the program assigns gave then what the term of the variable denotes. -/
theorem symbolic_agrees {run : SymbolicRun} (h : (b.symbolic []).2 = .ok run) :
    ∃ a, b.compile = .ok a ∧ ∀ args n final,
      (Machine.unlimited a.code args).run n {} = (.halted, final) →
        run.chain.denote (.ofArgs args) = some (.printed final.output) ∧
        ∃ k s, (Machine.unlimited a.code args).run k {} = (.unfinished, s) ∧
          (Machine.unlimited a.code args).instrAt? s.pc = some (.exit a.slots.length) ∧
          (Machine.unlimited a.code args).runFor 2 s = (.halted, final) ∧
          ∀ x ∈ b.targets, ∃ t slot v, run.env.get? x = some t ∧ a.slotOf? x = some slot ∧
            t.denote (.ofArgs args) = some (.value v) ∧
            (Instr.getLocal slot).exec { args } s = .done (.advance 1) (s.push v) := by
  have hext := extend_of_symbolic h
  have hb := refusal_of_symbolic hext
  obtain ⟨a, ha, -⟩ := compile_of_accepted hb
  obtain ⟨-, hcode, hslots⟩ := compile_eq_ok ha
  refine ⟨a, ha, ?_⟩
  intro args n final hrun
  rw [hcode] at hrun ⊢
  have hhalts : (Machine.unlimited b.programCode args).Halts final.output := ⟨n, final, hrun, rfl⟩
  obtain ⟨σ, hσ⟩ := ((halts_iff hb).1 hhalts).performs (straightLine_of_extend hext)
  have hempty : Env.Holds (.ofArgs args) [] fun _ => 0 := fun _ _ ht => by cases ht
  obtain ⟨henv, hchain⟩ := extend_faithful hext hempty rfl hσ
  obtain ⟨k, s, final', hreach, hexit, hclose, hholds, -⟩ := reaches_closing hb hσ
  -- the run has one end only
  have hend : (Machine.unlimited b.programCode args).runFor (k + 2) {} = (.halted, final') :=
    (hreach 2).trans hclose
  rw [Machine.run_eq_runFor rfl] at hrun
  obtain rfl : final = final' :=
    (Prod.mk.inj (Machine.runFor_unique hrun (by simp) hend (by simp))).2
  refine ⟨hchain, k, s, ?_, by rw [hslots]; exact hexit, hclose, ?_⟩
  · rw [Machine.run_eq_runFor rfl]
    exact hreach.runFor
  · intro x hx
    have hmem : x ∈ b.slotTable := mem_slotTable.2 hx
    obtain ⟨t, ht⟩ := get?_of_extend hext (.inr hx)
    rw [← hslots] at hmem hholds
    exact ⟨t, a.slots.idxOf x, σ x, ht, Assembly.slotOf?_of_mem hmem, henv x t ht,
      hholds.exec_getLocal hmem _⟩

/-- An argument is printed, then its successor under the same name; the number one is written as
a wide number. -/
def successor : Block :=
  [.assign "x" (.input (.num 0)),
   .print (.var "x"),
   .assign "x" (.bin .add (.var "x") (.num 18446744073709551617)),
   .print (.var "x")]

/-- An argument that is not a word is printed as it is, while its successor is a word. At the end
the variable is bound to the sum of the argument and one, which denotes the word in its slot. -/
theorem successor_agrees : ∃ run a final k s, (successor.symbolic []).2 = .ok run ∧
    successor.compile = .ok a ∧
    (Machine.unlimited a.code [18446744073709551620]).run 20 {} = (.halted, final) ∧
    final.output = [18446744073709551620, 5] ∧
    run.chain.denote (.ofArgs [18446744073709551620]) =
      some (.printed [18446744073709551620, 5]) ∧
    (Machine.unlimited a.code [18446744073709551620]).run k {} = (.unfinished, s) ∧
    run.env.get? "x" = some (.bin .add (.arg (.num 0)) (.num 1)) ∧
    (Instr.getLocal 0).exec { args := [18446744073709551620] } s =
      .done (.advance 1) (s.push 5) := by
  obtain ⟨run, hrun⟩ : ∃ run, (successor.symbolic []).2 = .ok run := ⟨_, rfl⟩
  obtain ⟨a, ha, hagrees⟩ := symbolic_agrees hrun
  obtain ⟨-, hcode, hslots⟩ := compile_eq_ok ha
  obtain ⟨final, hfinal, hout⟩ : ∃ final,
      (Machine.unlimited a.code [18446744073709551620]).run 20 {} = (.halted, final) ∧
        final.output = [18446744073709551620, 5] := by
    rw [hcode]
    exact ⟨_, rfl, rfl⟩
  obtain ⟨hchain, k, s, hk, -, -, hvars⟩ := hagrees _ _ _ hfinal
  obtain ⟨t, slot, v, ht, hslot, hv, hread⟩ := hvars "x" (by decide)
  have hx : run.env.get? "x" = some (.bin .add (.arg (.num 0)) (.num 1)) := by
    obtain rfl := Except.ok.inj hrun
    decide
  obtain rfl : t = .bin .add (.arg (.num 0)) (.num 1) := Option.some.inj (ht.symm.trans hx)
  obtain rfl : v = 5 := by
    have hfive : some (Meaning.value v) = some (.value 5) := hv.symm.trans (by decide)
    simpa using hfive
  obtain rfl : slot = 0 := by
    rw [Assembly.slotOf?, hslots] at hslot
    exact (Option.some.inj hslot).symm
  rw [hout] at hchain
  exact ⟨run, a, final, k, s, hrun, ha, hfinal, hout, hchain, hk, hx, hread⟩

end Block

end WhileLang
