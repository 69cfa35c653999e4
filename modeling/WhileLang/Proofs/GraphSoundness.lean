import WhileLang.Proofs.GraphLaws
import WhileLang.Proofs.RuleSoundness
import WhileLang.Proofs.Sharing

/-!
# Soundness of graphs

Graphs are built by adding terms, by declaring terms equal that denote the same, and by saturation
with valid rules. If the engine obeys its laws, what such a graph says is true: terms that are equal
in it denote the same, and what a saturation reads off denotes what its root does.

* `Built`: the graphs that are built in a sound way; `Built.trueIn`: what they say is true.
* `Built.equal_sound`: terms that are equal denote the same, and saturation keeps the meaning of its
  root, whatever the engine.
* `Built.classes_sound`: the same for the classes of e-graphs.
-/

namespace WhileLang

/-- The graphs that are built from nothing by adding well-sorted terms, declaring well-sorted terms
of one denotation equal, and saturating for a well-sorted root, with the rules of arithmetic or
without rules. -/
inductive Built {G : Type} [Engine G] (ρ : Reading) : G → Prop where
  | empty : Built ρ Engine.empty
  | add {g : G} {t : Term} {k : TermSort} (hg : Built ρ g) (ht : t.sort? = some k) :
      Built ρ (Engine.add g t)
  | union {g : G} {l r : Term} {k k' : TermSort} (hg : Built ρ g) (hl : l.sort? = some k)
      (hr : r.sort? = some k') (heq : l.denote ρ = r.denote ρ) : Built ρ (Engine.union g l r)
  | saturate {g : G} {root : Term} {k : TermSort} {rules : List Rule} (hg : Built ρ g)
      (hroot : root.sort? = some k) (hrules : rules = arithmeticRules ∨ rules = [])
      (budget : Budget) (clock : Clock) (patience : Nat) :
      Built ρ (Engine.saturate g root rules budget clock patience).graph

theorem safe_of_arithmetic_or_nil {rules : List Rule} (h : rules = arithmeticRules ∨ rules = []) :
    ∀ r ∈ rules, r.Safe := by
  rcases h with rfl | rfl
  · exact arithmeticRules_safe
  · exact fun r hr => by cases hr

theorem valid_of_arithmetic_or_nil {rules : List Rule} (h : rules = arithmeticRules ∨ rules = [])
    (ρ : Reading) : ∀ r ∈ rules, r.Valid ρ.interpretation := by
  rcases h with rfl | rfl
  · exact arithmeticRules_valid ρ
  · exact fun r hr => by cases hr

section

variable {symbol : String → Int} {args : List Int} {default : Int}

/-- A well-sorted term denotes something when all symbols and arguments have a value. -/
theorem Term.denotes_total {t : Term} {k : TermSort} (h : t.sort? = some k) :
    ∃ m, t.denote (.total symbol args default) = some m := by
  obtain ⟨m, hm, -⟩ :=
    denotes_of_sort (ρ := .total symbol args default) (fun _ => ⟨_, rfl⟩) h fun _ _ => ⟨_, rfl⟩
  exact ⟨m, hm⟩

open LawfulEngine

variable {G : Type} [Engine G] [LawfulEngine G] {g : G}

theorem Built.reached {ρ : Reading} (h : Built ρ g) : Engine.Reached g := by
  induction h with
  | empty => exact .empty
  | add _ _ ih => exact .add ih _
  | union _ _ _ _ ih => exact .union ih _ _
  | saturate _ _ hrules _ _ _ ih => exact reached_saturate ih (safe_of_arithmetic_or_nil hrules) _

/-- What a graph says that is built in a sound way is true. -/
theorem Built.trueIn (hρ : (Reading.total symbol args default).InWords)
    (h : Built (.total symbol args default) g) :
    TrueIn (Reading.total symbol args default).interpretation g := by
  induction h with
  | empty => exact trueIn_empty (m := .printed []) (Meaning.inWords_printed [])
  | add _ ht ih =>
      obtain ⟨m, hm⟩ := Term.denotes_total ht
      exact trueIn_add ih fun hw => Term.means_of_denote hρ hw hm
  | union _ hl _ heq ih =>
      obtain ⟨m, hm⟩ := Term.denotes_total hl
      exact trueIn_union ih (fun hw => Term.means_of_denote hρ hw hm)
        fun hw => Term.means_of_denote hρ hw (heq.symm.trans hm)
  | saturate _ hroot hrules _ _ _ ih =>
      obtain ⟨m, hm⟩ := Term.denotes_total hroot
      exact trueIn_saturate ih (valid_of_arithmetic_or_nil hrules _) fun hw =>
        Term.means_of_denote hρ hw hm

/-- **Graphs are sound**, whatever the engine. If words stand for symbols and arguments, then in a
graph that is built in a sound way terms that are equal denote the same, and a saturation that gives
nodes gives the shared form of a term that denotes what its root does. -/
theorem Built.equal_sound (hρ : (Reading.total symbol args default).InWords)
    (h : Built (.total symbol args default) g) :
    (∀ t u, Equal g t u → ∃ m, t.denote (.total symbol args default) = some m ∧
      u.denote (.total symbol args default) = some m) ∧
    ∀ root k rules budget clock patience e, root.sort? = some k →
      (rules = arithmeticRules ∨ rules = []) →
      (Engine.saturate g root rules budget clock patience).result = .ok e →
      ∃ t, Unfolds e.nodes (e.nodes.length - 1) t ∧
        t.denote (.total symbol args default) = root.denote (.total symbol args default) := by
  constructor
  · intro t u heq
    obtain ⟨m, ht, hu⟩ := same_of_equal (h.trueIn hρ) heq
    exact ⟨m, ht.denote_eq, hu.denote_eq⟩
  · intro root k rules budget clock patience e hroot hrules he
    have hw := Term.inWords_of_sort hroot
    obtain ⟨m, hm⟩ := Term.denotes_total hroot
    obtain ⟨t, hgives, hoptimal⟩ :=
      saturate_isOptimal h.reached (safe_of_arithmetic_or_nil hrules) hw he
    have hmeans := means_of_equal (h.trueIn hρ) (valid_of_arithmetic_or_nil hrules _)
      (Term.means_of_denote hρ hw hm) hoptimal.equal
    refine ⟨t, ?_, ?_⟩
    · rw [hgives.nodes]
      exact t.flatten_unfolds
    · rw [hm, hmeans.denote_eq]

/-- **Graphs are sound.** Whatever words the symbols and the arguments stand for, and whatever word
stands for arguments that are not there: in a graph that is built in a sound way, all terms
represented in one class denote the same, and a saturation that gives nodes gives the shared form
of a term that denotes what its root does. -/
theorem Built.classes_sound {g : EGraph} (hs : ∀ s, Word.IsWord (symbol s))
    (ha : ∀ a ∈ args, Word.IsWord a) (hd : Word.IsWord default)
    (h : Built (.total symbol args default) g) :
    (∀ c t u, g.Represents t c → g.Represents u c →
      ∃ m, t.denote (.total symbol args default) = some m ∧
        u.denote (.total symbol args default) = some m) ∧
    ∀ root k rules budget clock patience e, root.sort? = some k →
      (rules = arithmeticRules ∨ rules = []) →
      (Engine.saturate g root rules budget clock patience).result = .ok e →
      ∃ t, Unfolds e.nodes (e.nodes.length - 1) t ∧
        t.denote (.total symbol args default) = root.denote (.total symbol args default) := by
  obtain ⟨hequal, hsaturate⟩ := h.equal_sound (Reading.inWords_total hs ha hd)
  exact ⟨fun c t u ht hu => hequal t u ⟨c, ht, hu⟩, hsaturate⟩

end

/-- A symbol plus seven, and twice the symbol. -/
def sumAndDouble : Term × Term :=
  (.bin .add (.symbol "x") (.num 7), .bin .mul (.symbol "x") (.num 2))

/-- The graph in which the two are declared equal. -/
def sumIsDouble : EGraph :=
  (EGraph.union {} sumAndDouble.1 sumAndDouble.2).1

theorem sumIsDouble_rows :
    sumIsDouble.rows = [⟨.symbol "x", 0⟩, ⟨.num 7, 1⟩, ⟨.bin .add 0 1, 2⟩, ⟨.num 2, 3⟩,
      ⟨.bin .mul 0 3, 2⟩] := by
  decide +kernel

/-- If the symbol is seven, the two may be declared equal: then both denote fourteen, and so does
what one iteration of the rules makes of the double, whatever the clock shows. -/
theorem sumIsDouble_sound :
    (∃ m, sumAndDouble.1.denote (.total (fun _ => 7) [] 0) = some m ∧
      sumAndDouble.2.denote (.total (fun _ => 7) [] 0) = some m) ∧
    ∀ clock, ∃ e t, (Engine.saturate sumIsDouble sumAndDouble.2 arithmeticRules
        { maxIterations := some 1 } clock 0).result = .ok e ∧
      Unfolds e.nodes (e.nodes.length - 1) t ∧
      t.denote (.total (fun _ => 7) [] 0) = some (.value 14) := by
  have hsum : sumAndDouble.1.sort? = some .value := by decide
  have hdouble : sumAndDouble.2.sort? = some .value := by decide
  have hbuilt : Built (.total (fun _ => 7) [] 0) sumIsDouble :=
    .union .empty hsum hdouble (by decide)
  have hseven : Word.IsWord 7 := by decide
  have hsound := Built.classes_sound (fun _ => hseven) (by decide) (by decide) hbuilt
  constructor
  · refine hsound.1 2 _ _ ?_ ?_
    · exact .bin (i := 0) (j := 1) (k := 2) (by simp [sumIsDouble_rows]) rfl
        (.symbol (k := 0) (by simp [sumIsDouble_rows]) rfl)
        (.num (k := 1) (by simp [sumIsDouble_rows]) rfl)
    · exact .bin (i := 0) (j := 3) (k := 2) (by simp [sumIsDouble_rows]) rfl
        (.symbol (k := 0) (by simp [sumIsDouble_rows]) rfl)
        (.num (k := 3) (by simp [sumIsDouble_rows]) rfl)
  · intro clock
    have hstrict : ({ maxIterations := some 1 } : Budget).strict = false := rfl
    have hwords := Term.inWords_of_sort hdouble
    rcases LawfulEngine.saturate_ok hbuilt.reached arithmeticRules_safe hwords hstrict clock 0 with
      ⟨hmax, -⟩ | ⟨e, he⟩
    · cases hmax
    · obtain ⟨t, ht, hd⟩ := hsound.2 _ _ _ _ clock _ e hdouble (.inl rfl) he
      exact ⟨e, t, he, ht, hd⟩

end WhileLang
