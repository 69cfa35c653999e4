import Mathlib.Data.Set.Function
import WhileLang.Proofs.Reoptimization
import WhileLang.Proofs.VariableReads

/-!
# The names of variables do not matter

Slot tables, bindings and temporaries are all found by names. Still nothing of a name is left in
compiled or optimized code. A slot is a position in the table, which is the same for the new name in
the new table as long as different names stay different. And a program that is executed on terms
leaves none of its names in them, so a temporary that is generated later cannot clash with one,
even if it is called the same. What is left to make a difference is the time, if it is limited.

The names that are refused are renamed like the others.

* `Expr.rename`, `Stmt.rename`, `Block.rename`: a program with other names; `Refusal.rename`.
* `Block.names`: all names of a program.
* `Block.slotTable_rename`, `Block.code_rename`, `Block.refusal?_rename`: what the compiler makes of
  it; `Block.extend_rename`: what symbolic execution makes of it.
* `Block.rename_unnoticed`: compiled and optimized code is the same.
-/

namespace WhileLang

/-! ## Renaming -/

/-- The expression with other names for its variables. -/
def Expr.rename (σ : String → String) : Expr → Expr
  | var x => var (σ x)
  | num n => num n
  | bin op l r => bin op (l.rename σ) (r.rename σ)
  | input i => input (i.rename σ)
  | stray d => stray d

mutual

/-- The statement with other names for its variables. -/
def Stmt.rename (σ : String → String) : Stmt → Stmt
  | .assign x e => .assign (σ x) (e.rename σ)
  | .print e => .print (e.rename σ)
  | .cond t b o => .cond (t.rename σ) (Block.rename σ b) (Block.rename σ o)
  | .loop t b => .loop (t.rename σ) (Block.rename σ b)
  | .stray d => .stray d

/-- The block with other names for its variables. -/
def Block.rename (σ : String → String) : Block → Block
  | [] => []
  | s :: rest => s.rename σ :: Block.rename σ rest

end

/-- The refusal with another name for the variable that it is about. -/
def Refusal.rename (σ : String → String) : Refusal → Refusal
  | unresolved x => unresolved (σ x)
  | r => r

/-- All names of a program: those that it assigns, and those that it reads. -/
def Block.names (b : Block) : List String :=
  b.targets ++ b.reads

/-! ## Slots -/

section

variable {σ : String → String} {S : Set String} {slots : List String} {x : String}

theorem map_mem_map (hσ : S.InjOn σ) (hslots : ∀ y ∈ slots, y ∈ S) (hx : x ∈ S) :
    σ x ∈ slots.map σ ↔ x ∈ slots := by
  constructor
  · intro h
    obtain ⟨y, hy, heq⟩ := List.mem_map.1 h
    rwa [← hσ (hslots y hy) hx heq]
  · exact List.mem_map_of_mem

/-- A name keeps its position when all names are renamed. -/
theorem idxOf_map (hσ : S.InjOn σ) (hslots : ∀ y ∈ slots, y ∈ S) (hx : x ∈ S) :
    (slots.map σ).idxOf (σ x) = slots.idxOf x := by
  induction slots with
  | nil => rfl
  | cons y slots ih =>
      obtain ⟨hy, hslots⟩ := List.forall_mem_cons.1 hslots
      by_cases hxy : y = x
      · simp [hxy]
      · have hne : σ y ≠ σ x := fun heq => hxy (hσ hy hx heq)
        rw [List.map_cons, List.idxOf_cons_ne _ hne, List.idxOf_cons_ne _ hxy, ih hslots]

theorem addSlot_map (hσ : S.InjOn σ) (hslots : ∀ y ∈ slots, y ∈ S) (hx : x ∈ S) :
    addSlot (slots.map σ) (σ x) = (addSlot slots x).map σ := by
  unfold addSlot
  by_cases h : x ∈ slots
  · rw [if_pos h, if_pos ((map_mem_map hσ hslots hx).2 h)]
  · rw [if_neg h, if_neg (mt (map_mem_map hσ hslots hx).1 h), List.map_append]
    rfl

theorem addSlots_map (hσ : S.InjOn σ) {names : List String} (hslots : ∀ y ∈ slots, y ∈ S)
    (hnames : ∀ y ∈ names, y ∈ S) :
    addSlots (slots.map σ) (names.map σ) = (addSlots slots names).map σ := by
  induction names generalizing slots with
  | nil => rfl
  | cons x names ih =>
      obtain ⟨hx, hnames⟩ := List.forall_mem_cons.1 hnames
      have hadd : ∀ y ∈ addSlot slots x, y ∈ S := by
        unfold addSlot
        split
        · exact hslots
        · simpa [or_imp, forall_and, hx] using hslots
      rw [List.map_cons, addSlots, List.foldl_cons, addSlot_map hσ hslots hx]
      exact ih hadd hnames

theorem slotRefusal?_map (hσ : S.InjOn σ) (hslots : ∀ y ∈ slots, y ∈ S) (hx : x ∈ S) :
    slotRefusal? (slots.map σ) (σ x) = (slotRefusal? slots x).map (Refusal.rename σ) := by
  unfold slotRefusal?
  by_cases h : x ∈ slots
  · rw [if_pos h, if_pos ((map_mem_map hσ hslots hx).2 h)]
    rfl
  · rw [if_neg h, if_neg (mt (map_mem_map hσ hslots hx).1 h)]
    rfl

end

mutual

theorem Stmt.targets_rename (σ : String → String) :
    ∀ s : Stmt, (s.rename σ).targets = s.targets.map σ
  | .assign x e => by simp [Stmt.rename, Stmt.targets]
  | .print e => by simp [Stmt.rename, Stmt.targets]
  | .cond t b o => by
      simp [Stmt.rename, Stmt.targets, Block.targets_rename σ b, Block.targets_rename σ o]
  | .loop t b => by simp [Stmt.rename, Stmt.targets, Block.targets_rename σ b]
  | .stray d => by simp [Stmt.rename, Stmt.targets]

theorem Block.targets_rename (σ : String → String) :
    ∀ b : Block, (Block.rename σ b).targets = b.targets.map σ
  | [] => by simp [Block.rename, Block.targets]
  | s :: rest => by
      simp [Block.rename, Block.targets, s.targets_rename σ, Block.targets_rename σ rest]

end

/-! ## Compiled code -/

section

variable {σ : String → String} {S : Set String} {slots : List String}

theorem Expr.code_rename (hσ : S.InjOn σ) (hslots : ∀ y ∈ slots, y ∈ S) {e : Expr}
    (he : ∀ y ∈ e.reads, y ∈ S) : (e.rename σ).code (slots.map σ) = e.code slots := by
  induction e with
  | var x =>
      have hx : x ∈ S := he x (List.mem_singleton.2 rfl)
      rw [rename, code, code, idxOf_map hσ hslots hx]
  | num n | stray d => rfl
  | bin op l r ihl ihr =>
      obtain ⟨hl, hr⟩ := List.forall_mem_append.1 he
      rw [rename, code, code, ihl hl, ihr hr]
  | input i ih => rw [rename, code, code, ih he]

theorem Expr.refusal?_rename (hσ : S.InjOn σ) (hslots : ∀ y ∈ slots, y ∈ S) {e : Expr}
    (he : ∀ y ∈ e.reads, y ∈ S) :
    (e.rename σ).refusal? (slots.map σ) = (e.refusal? slots).map (Refusal.rename σ) := by
  induction e with
  | var x => exact slotRefusal?_map hσ hslots (he x (List.mem_singleton.2 rfl))
  | num n | stray d => rfl
  | bin op l r ihl ihr =>
      obtain ⟨hl, hr⟩ := List.forall_mem_append.1 he
      rw [rename, refusal?, refusal?, ihl hl, ihr hr, Option.map_or]
  | input i ih => exact ih he

mutual

theorem Stmt.code_rename (hσ : S.InjOn σ) (hslots : ∀ y ∈ slots, y ∈ S) :
    ∀ s : Stmt, (∀ y ∈ s.targets, y ∈ S) → (∀ y ∈ s.reads, y ∈ S) →
      (s.rename σ).code (slots.map σ) = s.code slots
  | .assign x e, ht, hr => by
      simp only [Stmt.targets, Stmt.reads, List.forall_mem_singleton] at ht hr
      rw [Stmt.rename, Stmt.code, Stmt.code, e.code_rename hσ hslots hr, idxOf_map hσ hslots ht]
  | .print e, _, hr => by
      simp only [Stmt.reads] at hr
      rw [Stmt.rename, Stmt.code, Stmt.code, e.code_rename hσ hslots hr]
  | .cond t b o, ht, hr => by
      simp only [Stmt.targets, Stmt.reads, List.forall_mem_append] at ht hr
      rw [Stmt.rename, Stmt.code, Stmt.code, t.code_rename hσ hslots hr.1,
        Block.code_rename hσ hslots b ht.1 hr.2.1, Block.code_rename hσ hslots o ht.2 hr.2.2]
  | .loop t b, ht, hr => by
      simp only [Stmt.targets, Stmt.reads, List.forall_mem_append] at ht hr
      rw [Stmt.rename, Stmt.code, Stmt.code, t.code_rename hσ hslots hr.1,
        Block.code_rename hσ hslots b ht hr.2]
  | .stray d, _, _ => by rw [Stmt.rename, Stmt.code, Stmt.code]

/-- The code of a renamed block is the code of the block. -/
theorem Block.code_rename (hσ : S.InjOn σ) (hslots : ∀ y ∈ slots, y ∈ S) :
    ∀ b : Block, (∀ y ∈ b.targets, y ∈ S) → (∀ y ∈ b.reads, y ∈ S) →
      Block.code (slots.map σ) (Block.rename σ b) = Block.code slots b
  | [], _, _ => by rw [Block.rename, Block.code, Block.code]
  | s :: rest, ht, hr => by
      simp only [Block.targets, Block.reads, List.forall_mem_append] at ht hr
      rw [Block.rename, Block.code, Block.code, s.code_rename hσ hslots ht.1 hr.1,
        Block.code_rename hσ hslots rest ht.2 hr.2]

end

mutual

theorem Stmt.refusal?_rename (hσ : S.InjOn σ) (hslots : ∀ y ∈ slots, y ∈ S) :
    ∀ s : Stmt, (∀ y ∈ s.targets, y ∈ S) → (∀ y ∈ s.reads, y ∈ S) →
      (s.rename σ).refusal? (slots.map σ) = (s.refusal? slots).map (Refusal.rename σ)
  | .assign x e, ht, hr => by
      simp only [Stmt.targets, Stmt.reads, List.forall_mem_singleton] at ht hr
      rw [Stmt.rename, Stmt.refusal?, Stmt.refusal?, e.refusal?_rename hσ hslots hr,
        slotRefusal?_map hσ hslots ht, Option.map_or]
  | .print e, _, hr => by
      simp only [Stmt.reads] at hr
      rw [Stmt.rename, Stmt.refusal?, Stmt.refusal?, e.refusal?_rename hσ hslots hr]
  | .cond t b o, ht, hr => by
      simp only [Stmt.targets, Stmt.reads, List.forall_mem_append] at ht hr
      rw [Stmt.rename, Stmt.refusal?, Stmt.refusal?, t.refusal?_rename hσ hslots hr.1,
        Block.refusal?_rename hσ hslots b ht.1 hr.2.1,
        Block.refusal?_rename hσ hslots o ht.2 hr.2.2, Option.map_or, Option.map_or]
  | .loop t b, ht, hr => by
      simp only [Stmt.targets, Stmt.reads, List.forall_mem_append] at ht hr
      rw [Stmt.rename, Stmt.refusal?, Stmt.refusal?, t.refusal?_rename hσ hslots hr.1,
        Block.refusal?_rename hσ hslots b ht hr.2, Option.map_or]
  | .stray d, _, _ => by
      rw [Stmt.rename, Stmt.refusal?]
      rfl

/-- The first reason to refuse a renamed block is the first reason to refuse the block. -/
theorem Block.refusal?_rename (hσ : S.InjOn σ) (hslots : ∀ y ∈ slots, y ∈ S) :
    ∀ b : Block, (∀ y ∈ b.targets, y ∈ S) → (∀ y ∈ b.reads, y ∈ S) →
      Block.refusal? (slots.map σ) (Block.rename σ b) =
        (Block.refusal? slots b).map (Refusal.rename σ)
  | [], _, _ => by
      rw [Block.rename, Block.refusal?]
      rfl
  | s :: rest, ht, hr => by
      simp only [Block.targets, Block.reads, List.forall_mem_append] at ht hr
      rw [Block.rename, Block.refusal?, Block.refusal?, s.refusal?_rename hσ hslots ht.1 hr.1,
        Block.refusal?_rename hσ hslots rest ht.2 hr.2, Option.map_or]

end

end

namespace Block

variable {σ : String → String} {b : Block}

theorem targets_mem_names : ∀ x ∈ b.targets, x ∈ b.names :=
  fun _ => List.mem_append_left _

theorem reads_mem_names : ∀ x ∈ b.reads, x ∈ b.names :=
  fun _ => List.mem_append_right _

theorem slotTable_mem_names : ∀ x ∈ b.slotTable, x ∈ b.names :=
  fun x hx => targets_mem_names x (mem_slotTable.1 hx)

/-- The slots of a renamed program are those of the program. -/
theorem slotTable_rename (hσ : Set.InjOn σ {x | x ∈ b.names}) :
    (b.rename σ).slotTable = b.slotTable.map σ := by
  rw [slotTable, targets_rename]
  show addSlots (List.map σ []) (b.targets.map σ) = (addSlots [] b.targets).map σ
  exact addSlots_map hσ (by simp) targets_mem_names

theorem programCode_rename (hσ : Set.InjOn σ {x | x ∈ b.names}) :
    (b.rename σ).programCode = b.programCode := by
  rw [programCode, slotTable_rename hσ, List.length_map,
    code_rename hσ slotTable_mem_names b targets_mem_names reads_mem_names]
  rfl

/-- A renamed program is compiled to the same code, or refused for the same reason. -/
theorem compile_rename (hσ : Set.InjOn σ {x | x ∈ b.names}) :
    (∃ a a', b.compile = .ok a ∧ (b.rename σ).compile = .ok a' ∧ a'.code = a.code) ∨
      ∃ r, Block.refusal? b.slotTable b = some r ∧ b.compile = .error r ∧
        (b.rename σ).compile = .error (r.rename σ) := by
  have hrefusal := refusal?_rename hσ slotTable_mem_names b targets_mem_names reads_mem_names
  rw [← slotTable_rename hσ] at hrefusal
  have hcompile := b.compile_cases
  have hrenamed := (b.rename σ).compile_cases
  rw [hrefusal] at hrenamed
  cases hr : Block.refusal? b.slotTable b with
  | none =>
      rw [hr] at hcompile hrenamed
      obtain ⟨a, ha, hcode, -⟩ := hcompile
      obtain ⟨a', ha', hcode', -⟩ := hrenamed
      exact .inl ⟨a, a', ha, ha', by rw [hcode, hcode', programCode_rename hσ]⟩
  | some r =>
      rw [hr] at hcompile hrenamed
      exact .inr ⟨r, rfl, hcompile, hrenamed⟩

end Block

/-! ## Symbolic execution -/

/-- The bindings with other names. -/
def Env.rename (σ : String → String) (env : Env) : Env :=
  env.map fun binding => (σ binding.1, binding.2)

section

variable {σ : String → String} {S : Set String} {env : Env}

/-- All bound names belong to a set. -/
def Env.NamesIn (env : Env) (S : Set String) : Prop :=
  ∀ binding ∈ env, binding.1 ∈ S

theorem Env.NamesIn.bind {x : String} {t : Term} (h : env.NamesIn S) (hx : x ∈ S) :
    (env.bind x t).NamesIn S := by
  induction env with
  | nil =>
      intro binding hb
      rw [List.mem_singleton.1 hb]
      exact hx
  | cons first env ih =>
      obtain ⟨y, old⟩ := first
      obtain ⟨hy, henv⟩ := List.forall_mem_cons.1 h
      unfold Env.bind
      split
      · exact List.forall_mem_cons.2 ⟨hy, henv⟩
      · exact List.forall_mem_cons.2 ⟨hy, ih henv⟩

theorem Env.get?_rename (hσ : S.InjOn σ) (henv : env.NamesIn S) {x : String} (hx : x ∈ S) :
    (env.rename σ).get? (σ x) = env.get? x := by
  induction env with
  | nil => rfl
  | cons first env ih =>
      obtain ⟨y, t⟩ := first
      obtain ⟨hy, henv⟩ := List.forall_mem_cons.1 henv
      unfold get? at ih ⊢
      by_cases hxy : x = y
      · subst hxy
        simp [rename]
      · have hne : σ x ≠ σ y := fun heq => hxy (hσ hx hy heq)
        rw [rename, List.map_cons, lookup_cons_of_ne hne, lookup_cons_of_ne hxy]
        exact ih henv

theorem Env.bind_rename (hσ : S.InjOn σ) (henv : env.NamesIn S) {x : String} (hx : x ∈ S)
    (t : Term) : (env.rename σ).bind (σ x) t = (env.bind x t).rename σ := by
  induction env with
  | nil => rfl
  | cons first env ih =>
      obtain ⟨y, old⟩ := first
      obtain ⟨hy, henv⟩ := List.forall_mem_cons.1 henv
      rw [rename, List.map_cons, Env.bind, Env.bind]
      by_cases hyx : y = x
      · subst hyx
        simp [rename]
      · have hne : σ y ≠ σ x := fun heq => hyx (hσ hy hx heq)
        rw [if_neg hne, if_neg hyx]
        exact congrArg _ (ih henv)

theorem Expr.term_rename (hσ : S.InjOn σ) (henv : env.NamesIn S) {e : Expr}
    (he : ∀ x ∈ e.reads, x ∈ S) :
    (e.rename σ).term (env.rename σ) = (e.term env).mapError (Refusal.rename σ) := by
  induction e with
  | var x =>
      rw [rename, term, term, Env.get?_rename hσ henv (he x (List.mem_singleton.2 rfl))]
      cases env.get? x <;> rfl
  | num n | stray d => rfl
  | bin op l r ihl ihr =>
      obtain ⟨hl, hr⟩ := List.forall_mem_append.1 he
      rw [rename, term, term, ihl hl, ihr hr]
      cases l.term env with
      | error r => rfl
      | ok left => cases r.term env <;> rfl
  | input i ih =>
      rw [rename, term, term, ih he]
      cases i.term env <;> rfl

/-- A renamed block is executed on terms as the block is, with renamed bindings and refusals. -/
theorem Block.extend_rename (hσ : S.InjOn σ) {b : Block} (chain : Term) (henv : env.NamesIn S)
    (ht : ∀ x ∈ b.targets, x ∈ S) (hr : ∀ x ∈ b.reads, x ∈ S) :
    (b.rename σ).extend (env.rename σ) chain =
      ((b.extend env chain).1.rename σ,
        (b.extend env chain).2.mapError (Refusal.rename σ)) := by
  induction b generalizing env chain with
  | nil => rfl
  | cons s rest ih =>
      simp only [Block.targets, Block.reads, List.forall_mem_append] at ht hr
      rw [Block.rename]
      cases s with
      | assign x e =>
          simp only [Stmt.targets, Stmt.reads, List.forall_mem_singleton] at ht hr
          rw [Stmt.rename, Block.extend, Block.extend, e.term_rename hσ henv hr.1]
          cases e.term env with
          | ok t =>
              show (Block.rename σ rest).extend ((env.rename σ).bind (σ x) t) chain = _
              rw [Env.bind_rename hσ henv ht.1]
              exact ih chain (henv.bind ht.1) ht.2 hr.2
          | error r => rfl
      | print e =>
          simp only [Stmt.reads] at hr
          rw [Stmt.rename, Block.extend, Block.extend, e.term_rename hσ henv hr.1]
          cases e.term env with
          | ok t => exact ih (.print chain t) henv ht.2 hr.2
          | error r => rfl
      | cond t b o | loop t b | stray d =>
          rw [Stmt.rename]
          rfl

end

namespace Block

variable {σ : String → String} {b b' : Block} {run run' : SymbolicRun}

/-- The names of a program do not occur in its chain of effects. -/
theorem symbolic_rename (hσ : Set.InjOn σ {x | x ∈ b.names}) (h : (b.symbolic []).2 = .ok run) :
    ∃ run', ((b.rename σ).symbolic []).2 = .ok run' ∧ run'.chain = run.chain := by
  have hempty : Env.NamesIn [] {x | x ∈ b.names} := by
    intro binding hb
    cases hb
  have hext := extend_rename hσ .silent hempty targets_mem_names reads_mem_names
  rw [extend_of_symbolic h] at hext
  exact symbolic_of_extend hext

/-- A program that has a chain of effects is optimized within a budget that is not strict, unless
iterations are not limited and patience ends. -/
theorem optimize_cases {budget : Budget} (h : (b.symbolic []).2 = .ok run)
    (hs : budget.strict = false) (options : ResidualOptions) (clock : Clock) (patience : Nat) :
    (∃ o, b.optimize budget options clock patience = .ok o) ∨
      (budget.maxIterations = none ∧
        b.optimize budget options clock patience = .error (.saturation .unfinished)) := by
  rcases optimizeUsing_spec (G := EGraph) h hs options clock patience with
    hmax | ⟨o, -, ho, -⟩
  · exact .inr hmax
  · exact .inl ⟨o, ho⟩

/-- Optimization sees the chain of effects only, and of the clock only at which requests the time is
out. -/
theorem optimize_congr {budget : Budget} {clock clock' : Clock} (h : (b.symbolic []).2 = .ok run)
    (h' : (b'.symbolic []).2 = .ok run') (hchain : run'.chain = run.chain)
    (htime : budget.TimedAlike clock clock') (options : ResidualOptions) (patience : Nat) :
    b'.optimize budget options clock' patience = b.optimize budget options clock patience := by
  unfold optimize optimizeUsing
  simp only [h, h', hchain, Engine.saturate_of_timedAlike htime]

/-- By any two clocks, programs with one chain of effects have one optimized form if as many
iterations are made. -/
theorem optimized_eq_of_iterations {budget : Budget} {options : ResidualOptions}
    {clock clock' : Clock} {patience : Nat} {o o' : Optimized} (h : (b.symbolic []).2 = .ok run)
    (h' : (b'.symbolic []).2 = .ok run') (hchain : run'.chain = run.chain)
    (ho : b.optimize budget options clock patience = .ok o)
    (ho' : b'.optimize budget options clock' patience = .ok o')
    (hcount : o'.extraction.iterations = o.extraction.iterations) : o' = o := by
  obtain ⟨run₁, hrun₁, he, hss⟩ := optimizeUsing_eq_ok ho
  obtain ⟨run₂, hrun₂, he', hss'⟩ := optimizeUsing_eq_ok ho'
  obtain rfl := Except.ok.inj (h.symm.trans hrun₁)
  obtain rfl := Except.ok.inj (h'.symm.trans hrun₂)
  rw [hchain] at he'
  have hextraction := Engine.saturate_of_iterations he he' hcount
  rw [hextraction] at hss'
  have hprogram := Except.ok.inj (hss'.symm.trans hss)
  cases o
  cases o'
  congr

/-- **The names of variables do not matter.** Rename the variables of a program in such a way that
different ones stay different; any names will do, also those of temporaries. The compiler gives the
same code, or it refuses a name in one program and its new name in the other.

And take a straight-line program that has a chain of effects, any budget that is not strict, any way
of writing statements, and for each of the two programs a clock of its own. If the time is out at
the same requests by both clocks, and so if it is never out or both show the same, then the
optimized forms, with the terms that they are made from and what is said of these, are the same, or
iterations are not limited and patience ends for both. Whatever the clocks show, both programs are
optimized if iterations are limited, and their optimized forms are the same if as many iterations
are made for both. -/
theorem rename_unnoticed (hσ : Set.InjOn σ {x | x ∈ b.names}) :
    (b.WellFormed →
      (∃ a a', b.compile = .ok a ∧ (b.rename σ).compile = .ok a' ∧ a'.code = a.code) ∨
        ∃ x, b.compile = .error (.unresolved x) ∧
          (b.rename σ).compile = .error (.unresolved (σ x))) ∧
    ∀ run, (b.symbolic []).2 = .ok run → ∀ (budget : Budget), budget.strict = false →
      ∀ (options : ResidualOptions) (clock clock' : Clock) (patience : Nat),
        (budget.TimedAlike clock clock' →
          (∃ o, b.optimize budget options clock patience = .ok o ∧
            (b.rename σ).optimize budget options clock' patience = .ok o) ∨
          (budget.maxIterations = none ∧
            b.optimize budget options clock patience = .error (.saturation .unfinished) ∧
            (b.rename σ).optimize budget options clock' patience =
              .error (.saturation .unfinished))) ∧
        (budget.maxIterations ≠ none →
          (∃ o, b.optimize budget options clock patience = .ok o) ∧
            ∃ o', (b.rename σ).optimize budget options clock' patience = .ok o') ∧
        ∀ o o', b.optimize budget options clock patience = .ok o →
          (b.rename σ).optimize budget options clock' patience = .ok o' →
            o'.extraction.iterations = o.extraction.iterations → o' = o := by
  constructor
  · intro hb
    rcases compile_rename hσ with hsame | ⟨r, hrefusal, hr, hr'⟩
    · exact .inl hsame
    · obtain ⟨x, rfl, -⟩ := (refusal?_slotTable_eq_some hb).1 hrefusal
      exact .inr ⟨x, hr, hr'⟩
  · intro run hrun budget hstrict options clock clock' patience
    obtain ⟨run', hrun', hchain⟩ := symbolic_rename hσ hrun
    refine ⟨?_, ?_, ?_⟩
    · intro htime
      rw [optimize_congr hrun hrun' hchain htime options patience]
      rcases optimize_cases hrun hstrict options clock patience with ⟨o, ho⟩ | ⟨hmax, ho⟩
      · exact .inl ⟨o, ho, ho⟩
      · exact .inr ⟨hmax, ho, ho⟩
    · intro hmax
      have hends := optimize_cases hrun hstrict options clock patience
      have hends' := optimize_cases hrun' hstrict options clock' patience
      exact ⟨hends.resolve_right fun h => hmax h.1, hends'.resolve_right fun h => hmax h.1⟩
    · intro o o' ho ho' hcount
      exact optimized_eq_of_iterations hrun hrun' hchain ho ho' hcount

/-- Prints the square of a variable, which is assigned to another one, twice. -/
def printSquare : Block :=
  [.assign "square" (.bin .mul (.var "side") (.var "side")),
   .print (.var "square"),
   .print (.var "square")]

/-- Reads an argument and prints its square twice. -/
def printSquareOfArgument : Block :=
  .assign "side" (.input (.num 0)) :: printSquare

/-- Gives the two variables the names of temporaries. -/
def likeTemporaries (x : String) : String :=
  if x = "side" then "t3" else if x = "square" then "t2" else x

/-- With the names of temporaries, the program has the same code. It has the same optimized form
within the limits that are set if nothing else is said, by clocks that show the same, and by any two
clocks if time is not limited. If the argument is not read, the new name of the missing variable is
refused instead of the old one. -/
theorem printSquare_renamed :
    (∃ a a', printSquareOfArgument.compile = .ok a ∧
      (printSquareOfArgument.rename likeTemporaries).compile = .ok a' ∧ a'.code = a.code) ∧
    (∀ clock, ∃ o, printSquareOfArgument.optimize {} {} clock 0 = .ok o ∧
      (printSquareOfArgument.rename likeTemporaries).optimize {} {} clock 0 = .ok o) ∧
    (∀ clock clock', ∃ o,
      printSquareOfArgument.optimize { maxSeconds := none } {} clock 0 = .ok o ∧
      (printSquareOfArgument.rename likeTemporaries).optimize { maxSeconds := none } {} clock' 0 =
        .ok o) ∧
    printSquare.compile = .error (.unresolved "side") ∧
    (printSquare.rename likeTemporaries).compile = .error (.unresolved "t3") := by
  have hσ : Set.InjOn likeTemporaries {x | x ∈ printSquareOfArgument.names} := by
    have h : ∀ x ∈ printSquareOfArgument.names, ∀ y ∈ printSquareOfArgument.names,
        likeTemporaries x = likeTemporaries y → x = y := by decide
    exact fun x hx y hy => h x hx y hy
  have hσ' : Set.InjOn likeTemporaries {x | x ∈ printSquare.names} := by
    refine hσ.mono ?_
    have h : ∀ x ∈ printSquare.names, x ∈ printSquareOfArgument.names := by decide
    exact h
  have hb' : printSquare.WellFormed := by
    simp [printSquare, Block.WellFormed, Stmt.WellFormed, Expr.WellFormed]
  have hb : printSquareOfArgument.WellFormed := by
    simpa [printSquareOfArgument, Block.WellFormed, Stmt.WellFormed, Expr.WellFormed] using hb'
  obtain ⟨run, hrun⟩ : ∃ run, (printSquareOfArgument.symbolic []).2 = .ok run := ⟨_, rfl⟩
  obtain ⟨a, ha, -⟩ := compile_of_accepted (b := printSquareOfArgument) rfl
  have hr : printSquare.compile = .error (.unresolved "side") := printSquare.compile_cases
  refine ⟨?_, fun clock => ?_, fun clock clock' => ?_, hr, ?_⟩
  · rcases (rename_unnoticed hσ).1 hb with hsame | ⟨x, hx, -⟩
    · exact hsame
    · cases ha.symm.trans hx
  · rcases ((rename_unnoticed hσ).2 run hrun {} rfl {} clock clock 0).1 fun _ => rfl with
      hsame | ⟨hmax, -⟩
    · exact hsame
    · cases hmax
  · rcases ((rename_unnoticed hσ).2 run hrun { maxSeconds := none } rfl {} clock clock' 0).1
      fun _ => rfl with hsame | ⟨hmax, -⟩
    · exact hsame
    · cases hmax
  · rcases (rename_unnoticed hσ').1 hb' with ⟨a, -, ha, -⟩ | ⟨x, hx, hx'⟩
    · cases ha.symm.trans hr
    · cases hx.symm.trans hr
      exact hx'

end Block

end WhileLang
