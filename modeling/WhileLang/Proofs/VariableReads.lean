import WhileLang.Proofs.ExpressionRuns
import WhileLang.Proofs.FramePointer

/-!
# Variables that are read, and programs that are refused

The compiler goes through a program twice. First it looks for assignments and gives slots to the
names that it finds; then it writes the code, and looks up every name in the slots. A name that is
read but not found is the reason for a refusal, and the first one that comes up is reported. So
what decides is which names are read and which are assigned, wherever that is: in a test, under a
branch that is never taken, before the assignment or after it.

* `Stmt.reads`, `Block.reads`: the variables that are read, in the order of the code.
* `Stmt.StandsIn`: a statement stands somewhere in a block; `Block.Assigns`: a block assigns a name
  somewhere.
* `FirstWithout`: the first name of a list that lacks a property.
* `Block.refusal?_eq_find?`: the reason to refuse a block is the first name that is read and has no
  slot.
* `Block.compile_refuses_exactly`: which programs are refused, with which reason, and the shape of
  the code of the others.
-/

namespace WhileLang

/-! ## What is read -/

/-- The expression of an assignment or a print. -/
def Stmt.value? : Stmt → Option Expr
  | .assign _ e | .print e => some e
  | _ => none

mutual

/-- The variables that a statement reads: a test before what it decides about, and the block for
the nonzero case before the other one. -/
def Stmt.reads : Stmt → List String
  | .assign _ e => e.reads
  | .print e => e.reads
  | .cond t b o => t.reads ++ (Block.reads b ++ Block.reads o)
  | .loop t b => t.reads ++ Block.reads b
  | .stray _ => []

/-- The variables that a block reads, one statement after the other. -/
def Block.reads : Block → List String
  | [] => []
  | s :: rest => s.reads ++ Block.reads rest

end

/-- `x` is the first name of a list that lacks a property. -/
def FirstWithout (P : String → Prop) (names : List String) (x : String) : Prop :=
  ∃ before after, names = before ++ x :: after ∧ (∀ y ∈ before, P y) ∧ ¬ P x

theorem find?_eq_some_iff_firstWithout {slots names : List String} {x : String} :
    names.find? (· ∉ slots) = some x ↔ FirstWithout (· ∈ slots) names x := by
  rw [List.find?_eq_some_iff_append]
  constructor
  · rintro ⟨hx, before, after, rfl, hbefore⟩
    exact ⟨before, after, rfl, fun y hy => by simpa using hbefore y hy, by simpa using hx⟩
  · rintro ⟨before, after, rfl, hbefore, hx⟩
    exact ⟨by simpa using hx, before, after, rfl, fun y hy => by simpa using hbefore y hy⟩

theorem FirstWithout.congr {P Q : String → Prop} (h : ∀ x, P x ↔ Q x) {names : List String}
    {x : String} : FirstWithout P names x ↔ FirstWithout Q names x := by
  rw [show P = Q from funext fun x => propext (h x)]

theorem forall_or_firstWithout (P : String → Prop) (names : List String) :
    (∀ x ∈ names, P x) ∨ ∃ x, FirstWithout P names x := by
  induction names with
  | nil => exact .inl (by simp)
  | cons y names ih =>
      by_cases hy : P y
      · rcases ih with h | ⟨x, before, after, rfl, hbefore, hx⟩
        · exact .inl (List.forall_mem_cons.2 ⟨hy, h⟩)
        · exact .inr ⟨x, y :: before, after, rfl, List.forall_mem_cons.2 ⟨hy, hbefore⟩, hx⟩
      · exact .inr ⟨y, [], names, rfl, by simp, hy⟩

theorem FirstWithout.append_cases {P : String → Prop} {l l' : List String} {x : String}
    (h : FirstWithout P (l ++ l') x) :
    FirstWithout P l x ∨ (∀ y ∈ l, P y) ∧ FirstWithout P l' x := by
  obtain ⟨before, after, heq, hbefore, hx⟩ := h
  rcases List.append_eq_append_iff.1 heq with ⟨as, rfl, rfl⟩ | ⟨bs, rfl, hbs⟩
  · obtain ⟨hl, has⟩ := List.forall_mem_append.1 hbefore
    exact .inr ⟨hl, as, after, rfl, has, hx⟩
  · cases bs with
    | nil =>
        rw [List.append_nil]
        exact .inr ⟨hbefore, [], after, hbs.symm, by simp, hx⟩
    | cons z bs =>
        obtain ⟨rfl, -⟩ := List.cons.inj hbs
        exact .inl ⟨before, bs, rfl, hbefore, hx⟩

/-! ## What is assigned -/

/-- A statement stands somewhere in a block: it is one of its statements, or it stands in a block
of one of them. -/
inductive Stmt.StandsIn (s : Stmt) : Block → Prop where
  | here {b : Block} : s ∈ b → StandsIn s b
  | inBody {b body orelse : Block} {t : Expr} : .cond t body orelse ∈ b → StandsIn s body →
      StandsIn s b
  | inElse {b body orelse : Block} {t : Expr} : .cond t body orelse ∈ b → StandsIn s orelse →
      StandsIn s b
  | inLoop {b body : Block} {t : Expr} : .loop t body ∈ b → StandsIn s body → StandsIn s b

/-- Somewhere in a block there is an assignment to a name. -/
def Block.Assigns (b : Block) (x : String) : Prop :=
  ∃ e, (Stmt.assign x e).StandsIn b

theorem Stmt.StandsIn.mono {s : Stmt} {b c : Block} (h : s.StandsIn b) (hbc : b ⊆ c) :
    s.StandsIn c := by
  cases h with
  | here hs => exact .here (hbc hs)
  | inBody hs h => exact .inBody (hbc hs) h
  | inElse hs h => exact .inElse (hbc hs) h
  | inLoop hs h => exact .inLoop (hbc hs) h

theorem Block.Assigns.mono {b c : Block} {x : String} (h : b.Assigns x) (hbc : b ⊆ c) :
    c.Assigns x := by
  obtain ⟨e, he⟩ := h
  exact ⟨e, he.mono hbc⟩

/-- A name with an assignment somewhere is found. -/
theorem Stmt.StandsIn.mem_targets {b : Block} {x : String} {e : Expr}
    (h : (Stmt.assign x e).StandsIn b) : x ∈ b.targets := by
  induction h with
  | here hs => exact Block.mem_targets.2 ⟨_, hs, by simp [Stmt.targets]⟩
  | inBody hs _ ih => exact Block.mem_targets.2 ⟨_, hs, by simp [Stmt.targets, ih]⟩
  | inElse hs _ ih => exact Block.mem_targets.2 ⟨_, hs, by simp [Stmt.targets, ih]⟩
  | inLoop hs _ ih => exact Block.mem_targets.2 ⟨_, hs, by simp [Stmt.targets, ih]⟩

mutual

theorem Stmt.assigns_of_mem_targets {x : String} :
    ∀ s : Stmt, x ∈ s.targets → Block.Assigns [s] x
  | .assign y e, h => by
      rw [Stmt.targets, List.mem_singleton] at h
      subst h
      exact ⟨e, .here (List.mem_singleton.2 rfl)⟩
  | .print e, h => by simp [Stmt.targets] at h
  | .cond t b o, h => by
      rw [Stmt.targets, List.mem_append] at h
      rcases h with h | h
      · obtain ⟨e, he⟩ := Block.assigns_of_mem_targets b h
        exact ⟨e, .inBody (List.mem_singleton.2 rfl) he⟩
      · obtain ⟨e, he⟩ := Block.assigns_of_mem_targets o h
        exact ⟨e, .inElse (List.mem_singleton.2 rfl) he⟩
  | .loop t b, h => by
      rw [Stmt.targets] at h
      obtain ⟨e, he⟩ := Block.assigns_of_mem_targets b h
      exact ⟨e, .inLoop (List.mem_singleton.2 rfl) he⟩
  | .stray d, h => by simp [Stmt.targets] at h

/-- A name that is found has an assignment somewhere. -/
theorem Block.assigns_of_mem_targets {x : String} :
    ∀ b : Block, x ∈ b.targets → b.Assigns x
  | [], h => by simp [Block.targets] at h
  | s :: rest, h => by
      rw [Block.targets, List.mem_append] at h
      rcases h with h | h
      · exact (s.assigns_of_mem_targets h).mono (by simp)
      · exact (Block.assigns_of_mem_targets rest h).mono (by simp)

end

theorem Block.mem_targets_iff_assigns {b : Block} {x : String} :
    x ∈ b.targets ↔ b.Assigns x :=
  ⟨b.assigns_of_mem_targets, fun ⟨_, h⟩ => h.mem_targets⟩

/-! ## The reason to refuse -/

variable {slots : List String}

/-- The reason to refuse an expression is the first name in it that has no slot. -/
theorem Expr.refusal?_eq_find? {e : Expr} (he : e.WellFormed) :
    e.refusal? slots = (e.reads.find? (· ∉ slots)).map Refusal.unresolved := by
  induction e with
  | var x => by_cases hx : x ∈ slots <;> simp [refusal?, slotRefusal?, reads, hx]
  | num n => rfl
  | bin op l r ihl ihr =>
      rw [refusal?, reads, ihl he.1, ihr he.2, List.find?_append, Option.map_or]
  | input i ih => exact ih he
  | stray d => exact he.elim

mutual

theorem Stmt.refusal?_eq_find? : ∀ s : Stmt, s.WellFormed → (∀ x ∈ s.targets, x ∈ slots) →
    s.refusal? slots = (s.reads.find? (· ∉ slots)).map Refusal.unresolved
  | .assign x e, hs, htargets => by
      rw [Stmt.WellFormed] at hs
      have hx : slotRefusal? slots x = none :=
        slotRefusal?_eq_none.2 (htargets x (by simp [Stmt.targets]))
      rw [Stmt.refusal?, Stmt.reads, e.refusal?_eq_find? hs, hx, Option.or_none]
  | .print e, hs, _ => by
      rw [Stmt.WellFormed] at hs
      rw [Stmt.refusal?, Stmt.reads, e.refusal?_eq_find? hs]
  | .cond t b o, hs, htargets => by
      rw [Stmt.WellFormed] at hs
      rw [Stmt.targets, List.forall_mem_append] at htargets
      rw [Stmt.refusal?, Stmt.reads, t.refusal?_eq_find? hs.1,
        Block.refusal?_eq_find? b hs.2.1 htargets.1, Block.refusal?_eq_find? o hs.2.2 htargets.2,
        List.find?_append, List.find?_append, Option.map_or, Option.map_or]
  | .loop t b, hs, htargets => by
      rw [Stmt.WellFormed] at hs
      rw [Stmt.targets] at htargets
      rw [Stmt.refusal?, Stmt.reads, t.refusal?_eq_find? hs.1,
        Block.refusal?_eq_find? b hs.2 htargets, List.find?_append, Option.map_or]
  | .stray d, hs, _ => by
      rw [Stmt.WellFormed] at hs
      exact hs.elim

/-- The reason to refuse a block, if there are slots for what it assigns, is the first name that it
reads and that has no slot. -/
theorem Block.refusal?_eq_find? : ∀ b : Block, b.WellFormed → (∀ x ∈ b.targets, x ∈ slots) →
    Block.refusal? slots b = (b.reads.find? (· ∉ slots)).map Refusal.unresolved
  | [], _, _ => by simp [Block.refusal?, Block.reads]
  | s :: rest, hb, htargets => by
      rw [Block.WellFormed] at hb
      rw [Block.targets, List.forall_mem_append] at htargets
      rw [Block.refusal?, Block.reads, s.refusal?_eq_find? hb.1 htargets.1,
        Block.refusal?_eq_find? rest hb.2 htargets.2, List.find?_append, Option.map_or]

end

/-- A program is refused for the first name that it reads and assigns nowhere. -/
theorem Block.refusal?_slotTable_eq_some {b : Block} (hb : b.WellFormed) {r : Refusal} :
    Block.refusal? b.slotTable b = some r ↔
      ∃ x, r = .unresolved x ∧ FirstWithout b.Assigns b.reads x := by
  rw [b.refusal?_eq_find? hb fun x hx => mem_slotTable.2 hx, Option.map_eq_some_iff]
  refine exists_congr fun x => ?_
  rw [find?_eq_some_iff_firstWithout, and_comm, eq_comm (a := r)]
  refine and_congr_right fun _ => FirstWithout.congr fun y => ?_
  rw [mem_slotTable, mem_targets_iff_assigns]

theorem Block.refusal?_slotTable_eq_none {b : Block} (hb : b.WellFormed) :
    Block.refusal? b.slotTable b = none ↔ ∀ x ∈ b.reads, b.Assigns x := by
  rw [b.refusal?_eq_find? hb fun x hx => mem_slotTable.2 hx, Option.map_eq_none_iff,
    List.find?_eq_none]
  refine forall₂_congr fun x _ => ?_
  rw [← mem_targets_iff_assigns, ← mem_slotTable]
  simp

/-! ## The shape of the code -/

/-- An instruction with a place inside a frame opens and closes none, does not stop the machine, and
uses a slot of the frame only. -/
theorem Instr.of_successors {i : Instr} {frame depth : Nat} {next : List (Int × Nat)}
    (h : i.successors frame depth = some next) :
    (i ≠ .halt ∧ ∀ n, i ≠ .enter n ∧ i ≠ .exit n) ∧
      ∀ slot, i.slot? = some slot → 0 ≤ slot ∧ slot < frame := by
  cases i with
  | halt | enter n | exit n => cases h
  | getLocal k =>
      refine ⟨by simp, ?_⟩
      rintro slot ⟨rfl⟩
      simp only [successors] at h
      split at h
      · assumption
      · cases h
  | setLocal k =>
      refine ⟨by simp, ?_⟩
      rintro slot ⟨rfl⟩
      simp only [successors] at h
      split at h
      · next hslot => exact ⟨hslot.1, hslot.2.1⟩
      · cases h
  | _ => simp [slot?]

/-- The code of a block that is not refused stays inside its frame. -/
theorem Block.mem_code_of_accepted {b : Block} (hb : Block.refusal? b.slotTable b = none)
    {i : Instr} (hi : i ∈ Block.code b.slotTable b) :
    (i ≠ .halt ∧ ∀ n, i ≠ .enter n ∧ i ≠ .exit n) ∧
      ∀ slot, i.slot? = some slot → 0 ≤ slot ∧ slot < b.slotTable.length := by
  obtain ⟨k, hk⟩ := List.mem_iff_getElem?.1 hi
  obtain ⟨d, next, -, hnext, -⟩ := consistent_of_accepted hb k i hk
  exact Instr.of_successors hnext

/-- **Programs are refused exactly for names that they assign nowhere.** A program is compiled if
all names that it reads, wherever that is, have an assignment somewhere in it. Otherwise the first
one that has none, in the order of the code, is the reason why it is refused. The code of a program
that is compiled uses the slots of its frame only; it opens the frame, closes it and halts, once
each and in these places. -/
theorem Block.compile_refuses_exactly {b : Block} (hb : b.WellFormed) :
    ((∃ a, b.compile = .ok a) ↔ ∀ x ∈ b.reads, b.Assigns x) ∧
    (∀ r, b.compile = .error r ↔ ∃ x, r = .unresolved x ∧ FirstWithout b.Assigns b.reads x) ∧
    ∀ a, b.compile = .ok a →
      (∀ i ∈ a.code, ∀ slot, i.slot? = some slot → 0 ≤ slot ∧ slot < a.slots.length) ∧
      ∃ body, a.code = .enter a.slots.length :: (body ++ [.exit a.slots.length, .halt]) ∧
        ∀ i ∈ body, i ≠ .halt ∧ ∀ n, i ≠ .enter n ∧ i ≠ .exit n := by
  refine ⟨?_, fun r => ?_, fun a ha => ?_⟩
  · rw [← refusal?_slotTable_eq_none hb]
    exact ⟨fun ⟨a, ha⟩ => (compile_eq_ok ha).1,
      fun h => (compile_of_accepted h).imp fun _ ha => ha.1⟩
  · rw [← refusal?_slotTable_eq_some hb]
    have hcases := b.compile_cases
    cases hr : Block.refusal? b.slotTable b with
    | none =>
        rw [hr] at hcases
        obtain ⟨a, ha, -⟩ := hcases
        simp [ha]
    | some r' =>
        rw [hr] at hcases
        simp [hcases]
  · obtain ⟨hnone, hcode, hslots⟩ := compile_eq_ok ha
    rw [hcode, hslots]
    refine ⟨fun i hi slot hslot => ?_, _, rfl, fun i hi => (mem_code_of_accepted hnone hi).1⟩
    simp only [programCode, List.mem_cons, List.mem_append, List.not_mem_nil, or_false] at hi
    rcases hi with rfl | hi | rfl | rfl
    · cases hslot
    · exact (mem_code_of_accepted hnone hi).2 slot hslot
    · cases hslot
    · cases hslot

/-- Reads two names before they are assigned, one of them in a block that is never entered. -/
def assignedLater : Block :=
  [.loop (.var "n") [.cond (.var "total") [.print (.input (.var "total"))] []],
   .assign "n" (.num 0),
   .cond (.num 0) [] [.loop (.num 1) [.assign "total" (.num 1)]]]

/-- Reads two names that are assigned nowhere, under a test that is never met. -/
def readsGhosts : Block :=
  .cond (.num 0) [.print (.bin .add (.var "n") (.var "ghost"))] [.print (.var "spook")] ::
    assignedLater

theorem assignedLater_compiled :
    assignedLater.WellFormed ∧ (∃ a, assignedLater.compile = .ok a) ∧
      readsGhosts.WellFormed ∧ readsGhosts.compile = .error (.unresolved "ghost") := by
  have hlater : assignedLater.WellFormed := by
    simp [assignedLater, Block.WellFormed, Stmt.WellFormed, Expr.WellFormed]
  have hghosts : readsGhosts.WellFormed := by
    simp [readsGhosts, assignedLater, Block.WellFormed, Stmt.WellFormed, Expr.WellFormed]
  refine ⟨hlater, (Block.compile_refuses_exactly hlater).1.2 ?_, hghosts,
    ((Block.compile_refuses_exactly hghosts).2.1 _).2 ⟨"ghost", rfl, ["n"], _, rfl, ?_, ?_⟩⟩
  · simp only [← Block.mem_targets_iff_assigns]
    decide
  · simp only [← Block.mem_targets_iff_assigns]
    decide
  · rw [← Block.mem_targets_iff_assigns]
    decide

end WhileLang
