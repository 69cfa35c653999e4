import Mathlib.Data.List.Nodup
import WhileLang.Assembly.Basic

/-!
# The code of a program, part by part

Assembling works on a growing code in which branches are settled afterwards. This file says what
comes out: the code of every expression, statement and block is a value of its own, which depends
on the slot table only, and assembling puts it behind what was written before.

* `Expr.code`, `Stmt.code`, `Block.code` are the code of each part, with all offsets in place;
  `Block.programCode` is that of a whole program.
* `Expr.refusal?`, `Stmt.refusal?`, `Block.refusal?` are the first reason to refuse a part.
* `Asm.Writes` says of some writing that it adds a given code, or is refused for a given reason
  and changes nothing of what stood there; `Expr.assemble_writes`, `Stmt.assemble_writes` and
  `Block.assemble_writes` say it of the assembler.
* `StandsAt`: a piece of a code stands at a position.
* `Block.compile_cases`: a program is compiled to its code, or refused for its first reason.
-/

namespace WhileLang

/-! ## The code of each part -/

/-- The code that pushes the value of an expression. -/
def Expr.code (slots : List String) : Expr → List Instr
  | var x => [.getLocal (slots.idxOf x)]
  | num n => [.literal n]
  | bin op l r => l.code slots ++ r.code slots ++ [.binary op]
  | input i => i.code slots ++ [.inputRead]
  | stray _ => []

/-- A test, a body for the nonzero case and an alternative, with the two branches around them. -/
def condCode (test body orelse : List Instr) : List Instr :=
  test ++ .branchIfZero (body.length + 2) :: (body ++ .branch (orelse.length + 1) :: orelse)

/-- A test and a body that leads back to it, with the branch that leaves them. -/
def loopCode (test body : List Instr) : List Instr :=
  test ++ .branchIfZero (body.length + 2) ::
    (body ++ [.branch (-(test.length + body.length + 1 : Nat))])

mutual

/-- The code of a statement. -/
def Stmt.code (slots : List String) : Stmt → List Instr
  | .assign x e => e.code slots ++ [.setLocal (slots.idxOf x)]
  | .print e => e.code slots ++ [.print]
  | .cond t b o => condCode (t.code slots) (Block.code slots b) (Block.code slots o)
  | .loop t b => loopCode (t.code slots) (Block.code slots b)
  | .stray _ => []

/-- The code of a block: that of its statements, one after the other. -/
def Block.code (slots : List String) : Block → List Instr
  | [] => []
  | s :: rest => s.code slots ++ Block.code slots rest

end

/-- The slot table of a program. -/
def Block.slotTable (b : Block) : List String :=
  addSlots [] b.targets

/-- The code of a whole program: its block in a frame of its own. -/
def Block.programCode (b : Block) : List Instr :=
  .enter b.slotTable.length ::
    (Block.code b.slotTable b ++ [.exit b.slotTable.length, .halt])

/-! ## The first reason to refuse -/

/-- The reason to refuse a name that has no slot. -/
def slotRefusal? (slots : List String) (x : String) : Option Refusal :=
  if x ∈ slots then none else some (.unresolved x)

@[simp] theorem slotRefusal?_eq_none {slots : List String} {x : String} :
    slotRefusal? slots x = none ↔ x ∈ slots := by
  simp [slotRefusal?]

/-- The first reason to refuse an expression, from left to right. -/
def Expr.refusal? (slots : List String) : Expr → Option Refusal
  | var x => slotRefusal? slots x
  | num _ => none
  | bin _ l r => (l.refusal? slots).or (r.refusal? slots)
  | input i => i.refusal? slots
  | stray d => some (.notExpression d)

mutual

/-- The first reason to refuse a statement, in the order of its code. -/
def Stmt.refusal? (slots : List String) : Stmt → Option Refusal
  | .assign x e => (e.refusal? slots).or (slotRefusal? slots x)
  | .print e => e.refusal? slots
  | .cond t b o =>
    (t.refusal? slots).or ((Block.refusal? slots b).or (Block.refusal? slots o))
  | .loop t b => (t.refusal? slots).or (Block.refusal? slots b)
  | .stray d => some (.notStatement d)

/-- The first reason to refuse a block. -/
def Block.refusal? (slots : List String) : Block → Option Refusal
  | [] => none
  | s :: rest => (s.refusal? slots).or (Block.refusal? slots rest)

end

/-! ## What writing adds -/

/-- The assembly with code and remarks added at the end. -/
def Assembly.extend (a : Assembly) (c : List Instr) (rs : List Remark) : Assembly :=
  { a with code := a.code ++ c, remarks := a.remarks ++ rs }

@[simp] theorem Assembly.extend_slots (a : Assembly) (c : List Instr) (rs : List Remark) :
    (a.extend c rs).slots = a.slots := rfl

@[simp] theorem Assembly.extend_code (a : Assembly) (c : List Instr) (rs : List Remark) :
    (a.extend c rs).code = a.code ++ c := rfl

@[simp] theorem Assembly.extend_extend (a : Assembly) (c c' : List Instr) (rs rs' : List Remark) :
    (a.extend c rs).extend c' rs' = a.extend (c ++ c') (rs ++ rs') := by
  simp [extend]

@[simp] theorem Assembly.extend_nil (a : Assembly) : a.extend [] [] = a := by
  simp [extend]

/-- The slot of an assigned name is its position in the table. -/
theorem Assembly.slotOf?_of_mem {a : Assembly} {x : String} (h : x ∈ a.slots) :
    a.slotOf? x = some (a.slots.idxOf x) := by
  obtain ⟨n, hn⟩ := Option.isSome_iff_exists.1 (List.isSome_idxOf?.2 h)
  simp [slotOf?, List.idxOf_eq_getD_idxOf?, hn]

/-- A position in front of the end means itself. -/
theorem position?_of_lt {length n : Nat} (h : n < length) : position? length n = some n := by
  simp [position?, h]

namespace Asm

/-- With a given slot table, the writing `x` adds the code `c` if there is no reason to refuse
it. Otherwise it stops with that reason, behind what was written before. -/
def Writes (slots : List String) (x : Asm Unit) (refusal : Option Refusal) (c : List Instr) :
    Prop :=
  ∀ a : Assembly, a.slots = slots →
    match refusal with
    | none => ∃ rs, x.run a = .ok () (a.extend c rs)
    | some r => ∃ c' rs, x.run a = .error r (a.extend c' rs)

variable {slots : List String}

theorem emit_run (i : Instr) (a : Assembly) : (emit i).run a = .ok () (a.extend [i] []) := by
  rw [emit, EStateM.run_modify]
  simp [Assembly.extend, Assembly.push]

theorem writes_emit (i : Instr) : Writes slots (emit i) none [i] :=
  fun a _ => ⟨[], emit_run i a⟩

theorem writes_throw (r : Refusal) : Writes slots (throw r) (some r) [] := by
  intro a _
  exact ⟨[], [], by simp⟩

theorem writes_nil : Writes slots (pure ()) none [] := by
  intro a _
  exact ⟨[], by simp⟩

/-- A writing that others follow: it is refused, or they go on behind its code. -/
theorem Writes.bind_run {x : Asm Unit} {r : Option Refusal} {c : List Instr}
    (hx : Writes slots x r c) {a : Assembly} (ha : a.slots = slots) (f : Unit → Asm Unit) :
    (∃ r' c' rs, r = some r' ∧ (x >>= f).run a = .error r' (a.extend c' rs)) ∨
    (r = none ∧ ∃ rs, (x >>= f).run a = (f ()).run (a.extend c rs)) := by
  have hx' := hx a ha
  cases r with
  | some r' =>
      obtain ⟨c', rs, h⟩ := hx'
      exact Or.inl ⟨r', c', rs, rfl, by rw [EStateM.run_bind, h]⟩
  | none =>
      obtain ⟨rs, h⟩ := hx'
      exact Or.inr ⟨rfl, rs, by rw [EStateM.run_bind, h]⟩

/-- One writing after another. -/
theorem Writes.seq {x y : Asm Unit} {r₁ r₂ : Option Refusal} {c₁ c₂ : List Instr}
    (hx : Writes slots x r₁ c₁) (hy : Writes slots y r₂ c₂) :
    Writes slots (do x; y) (r₁.or r₂) (c₁ ++ c₂) := by
  intro a ha
  rcases hx.bind_run ha fun _ => y with ⟨r, c', rs, rfl, h⟩ | ⟨rfl, rs, h⟩
  · exact ⟨c', rs, h⟩
  · have hy' := hy (a.extend c₁ rs) ha
    rw [Option.none_or, h]
    cases r₂ with
    | some r =>
        obtain ⟨c', rs', h'⟩ := hy'
        exact ⟨c₁ ++ c', rs ++ rs', by simpa using h'⟩
    | none =>
        obtain ⟨rs', h'⟩ := hy'
        exact ⟨rs ++ rs', by simpa using h'⟩

/-- A writing that begins with the slot of a name. -/
theorem writes_slot (x : String) (f : Nat → Instr) :
    Writes slots (do let n ← slotOf x; emit (f n)) (slotRefusal? slots x)
      [f (slots.idxOf x)] := by
  rintro a rfl
  unfold slotRefusal?
  by_cases hx : x ∈ a.slots
  · have hslot : (slotOf x).run a = .ok (a.slots.idxOf x) a := by
      simp [slotOf, Assembly.slotOf?_of_mem hx]
    rw [if_pos hx]
    exact ⟨[], by rw [EStateM.run_bind, hslot]; exact emit_run _ a⟩
  · have hslot : (slotOf x).run a = .error (.unresolved x) a := by
      simp [slotOf, Assembly.slotOf?, List.idxOf?_eq_none_iff.2 hx]
      rfl
    rw [if_neg hx]
    exact ⟨[], [], by rw [EStateM.run_bind, hslot]; simp⟩

/-- Settling gives the branch at a position its offset and leaves the rest of the code alone. -/
theorem settle_run (a : Assembly) (rs : List Remark) (pre post : List Instr) {i i' : Instr}
    {site target : Nat} (hsite : site = a.code.length + pre.length)
    (hi : i.withOperand (target - site) = .ok i') :
    ∃ r, (settle site target).run (a.extend (pre ++ i :: post) rs) =
      .ok () (a.extend (pre ++ i' :: post) (rs ++ [r])) := by
  have hcode : (a.extend (pre ++ i :: post) rs).code = (a.code ++ pre) ++ i :: post := by simp
  have hpos : position? (a.extend (pre ++ i :: post) rs).code.length site = some site :=
    position?_of_lt (by simp [hsite])
  have hget : (a.extend (pre ++ i :: post) rs).code[site]? = some i := by
    rw [hcode, hsite, ← List.length_append]
    simp
  have hset : (a.extend (pre ++ i :: post) rs).code.set site i' =
      a.code ++ (pre ++ i' :: post) := by
    rw [hcode, hsite, ← List.length_append]
    simp
  have hpatch : (a.extend (pre ++ i :: post) rs).patch site target =
      .ok (a.extend (pre ++ i' :: post)
        (rs ++ [.settled i.name site target (target - site)])) := by
    simp only [Assembly.patch, branchOffset, hpos, hget, hi, hset]
    simp [Assembly.extend]
  refine ⟨.settled i.name site target (target - site), ?_⟩
  rw [settle, EStateM.run_modify, hpatch]

/-- Settling two branches, the one further to the front first. -/
theorem settle_settle_run (a : Assembly) (rs : List Remark) (pre mid post : List Instr)
    {site target site' target' : Nat} {m n : Int}
    (hsite : site = a.code.length + pre.length)
    (hsite' : site' = a.code.length + pre.length + 1 + mid.length)
    (hm : (target : Int) - site = m) (hn : (target' : Int) - site' = n) :
    ∃ rs', (do settle site target; settle site' target').run
        (a.extend (pre ++ Instr.branchIfZero 0 :: (mid ++ Instr.branch 0 :: post)) rs) =
      .ok () (a.extend (pre ++ Instr.branchIfZero m :: (mid ++ Instr.branch n :: post)) rs') := by
  obtain ⟨q, hq⟩ := settle_run a rs pre (i := .branchIfZero 0) (mid ++ .branch 0 :: post) hsite
    (congrArg (fun k => Except.ok (Instr.branchIfZero k)) hm)
  have hlen : site' = a.code.length + (pre ++ .branchIfZero m :: mid).length := by
    simp only [hsite', List.length_append, List.length_cons]
    omega
  obtain ⟨q', hq'⟩ := settle_run a (rs ++ [q]) (i := .branch 0) (pre ++ .branchIfZero m :: mid) post
    hlen (congrArg (fun k => Except.ok (Instr.branch k)) hn)
  refine ⟨rs ++ [q] ++ [q'], ?_⟩
  rw [EStateM.run_bind, hq]
  simpa using hq'

theorem emit_bind_run (i : Instr) (f : Unit → Asm Unit) (a : Assembly) :
    (emit i >>= f).run a = (f ()).run (a.extend [i] []) := by
  rw [EStateM.run_bind, emit_run]

/-- The position of the next instruction is the length of the code. -/
theorem here_bind_run (f : Nat → Asm Unit) (a : Assembly) :
    (do let n ← here; f n : Asm Unit).run a = (f a.code.length).run a := rfl

end Asm

open Asm

/-! ## The assembler writes the code of each part -/

theorem Expr.assemble_writes (slots : List String) (e : Expr) :
    Writes slots e.assemble (e.refusal? slots) (e.code slots) := by
  induction e with
  | var x => exact writes_slot x fun n => .getLocal n
  | num n => exact writes_emit _
  | bin op l r ihl ihr =>
      have h := ihl.seq (ihr.seq (writes_emit (.binary op)))
      simpa [refusal?, code, assemble] using h
  | input i ih =>
      have h := ih.seq (writes_emit .inputRead)
      simpa [refusal?, code, assemble] using h
  | stray d => exact writes_throw _

/-- The two branches of a conditional end up with the offsets of `condCode`. -/
theorem writes_cond {slots : List String} {t b o : Asm Unit} {rt rb ro : Option Refusal}
    {ct cb co : List Instr} (ht : Writes slots t rt ct) (hb : Writes slots b rb cb)
    (ho : Writes slots o ro co) :
    Writes slots
      (do
        t
        let toElse ← here
        emit (.branchIfZero 0)
        b
        let toEnd ← here
        emit (.branch 0)
        let elseStart ← here
        o
        let elseEnd ← here
        settle toElse elseStart
        settle toEnd elseEnd)
      (rt.or (rb.or ro)) (condCode ct cb co) := by
  intro a ha
  rcases ht.bind_run ha _ with ⟨r, c', rs, rfl, h⟩ | ⟨rfl, rs₁, h₁⟩
  · exact ⟨c', rs, h⟩
  rw [h₁, here_bind_run, emit_bind_run]
  rcases hb.bind_run (a := (a.extend ct rs₁).extend [.branchIfZero 0] []) ha _ with
    ⟨r, c', rs, rfl, h⟩ | ⟨rfl, rs₂, h₂⟩
  · exact ⟨_, _, h.trans (by simp only [Assembly.extend_extend]; rfl)⟩
  rw [h₂, here_bind_run, emit_bind_run, here_bind_run]
  rcases ho.bind_run (a := (((a.extend ct rs₁).extend [.branchIfZero 0] []).extend cb rs₂).extend
    [.branch 0] []) ha _ with ⟨r, c', rs, rfl, h⟩ | ⟨rfl, rs₃, h₃⟩
  · exact ⟨_, _, h.trans (by simp only [Assembly.extend_extend]; rfl)⟩
  rw [h₃, here_bind_run]
  simp only [Assembly.extend_extend, Assembly.extend_code]
  -- both placeholders are in the code now, and are settled one after the other
  have hcode : ct ++ [Instr.branchIfZero 0] ++ cb ++ [Instr.branch 0] ++ co =
      ct ++ .branchIfZero 0 :: (cb ++ .branch 0 :: co) := by simp
  rw [hcode]
  refine settle_settle_run a _ ct cb co List.length_append ?_ ?_ ?_
  all_goals
    simp only [List.length_append, List.length_cons, List.length_nil]
    omega

theorem writes_loop {slots : List String} {t b : Asm Unit} {rt rb : Option Refusal}
    {ct cb : List Instr} (ht : Writes slots t rt ct) (hb : Writes slots b rb cb) :
    Writes slots
      (do
        let start ← here
        t
        let toEnd ← here
        emit (.branchIfZero 0)
        b
        let back ← here
        emit (.branch 0)
        let finish ← here
        settle toEnd finish
        settle back start)
      (rt.or rb) (loopCode ct cb) := by
  intro a ha
  rw [here_bind_run]
  rcases ht.bind_run ha _ with ⟨r, c', rs, rfl, h⟩ | ⟨rfl, rs₁, h₁⟩
  · exact ⟨c', rs, h⟩
  rw [h₁, here_bind_run, emit_bind_run]
  rcases hb.bind_run (a := (a.extend ct rs₁).extend [.branchIfZero 0] []) ha _ with
    ⟨r, c', rs, rfl, h⟩ | ⟨rfl, rs₂, h₂⟩
  · exact ⟨_, _, h.trans (by simp only [Assembly.extend_extend]; rfl)⟩
  rw [h₂, here_bind_run, emit_bind_run, here_bind_run]
  simp only [Assembly.extend_extend, Assembly.extend_code]
  have hcode : ct ++ [Instr.branchIfZero 0] ++ cb ++ [Instr.branch 0] =
      ct ++ .branchIfZero 0 :: (cb ++ .branch 0 :: []) := by simp
  rw [hcode]
  refine settle_settle_run a _ ct cb [] List.length_append ?_ ?_ ?_
  all_goals
    simp only [List.length_append, List.length_cons, List.length_nil]
    omega

mutual

theorem Stmt.assemble_writes (slots : List String) :
    ∀ s : Stmt, Writes slots s.assemble (s.refusal? slots) (s.code slots)
  | .assign x e => by
      have h := (e.assemble_writes slots).seq (writes_slot x fun n => .setLocal n)
      simpa [Stmt.refusal?, Stmt.code, Stmt.assemble] using h
  | .print e => by
      have h := (e.assemble_writes slots).seq (writes_emit .print)
      simpa [Stmt.refusal?, Stmt.code, Stmt.assemble] using h
  | .cond t b o => by
      simpa only [Stmt.refusal?, Stmt.code, Stmt.assemble] using writes_cond
        (t.assemble_writes slots) (Block.assemble_writes slots b) (Block.assemble_writes slots o)
  | .loop t b => by
      simpa only [Stmt.refusal?, Stmt.code, Stmt.assemble] using
        writes_loop (t.assemble_writes slots) (Block.assemble_writes slots b)
  | .stray d => by
      simpa only [Stmt.refusal?, Stmt.code, Stmt.assemble] using writes_throw (.notStatement d)

theorem Block.assemble_writes (slots : List String) :
    ∀ b : Block, Writes slots (Block.assemble b) (Block.refusal? slots b) (Block.code slots b)
  | [] => by simpa only [Block.refusal?, Block.code, Block.assemble] using writes_nil
  | s :: rest => by
      simpa only [Block.refusal?, Block.code, Block.assemble] using
        (s.assemble_writes slots).seq (Block.assemble_writes slots rest)

end

/-! ## Slot tables -/

theorem Assembly.foldl_allocate_slots (names : List String) (a : Assembly) :
    (names.foldl Assembly.allocate a).slots = addSlots a.slots names := by
  induction names generalizing a with
  | nil => rfl
  | cons x names ih =>
      rw [List.foldl_cons, ih, addSlots, addSlots, List.foldl_cons]
      congr 1
      unfold Assembly.allocate addSlot
      split <;> rfl

theorem Assembly.foldl_allocate_code (names : List String) (a : Assembly) :
    (names.foldl Assembly.allocate a).code = a.code := by
  induction names generalizing a with
  | nil => rfl
  | cons x names ih =>
      rw [List.foldl_cons, ih]
      unfold Assembly.allocate
      split <;> rfl

theorem mem_addSlots {slots names : List String} {x : String} :
    x ∈ addSlots slots names ↔ x ∈ slots ∨ x ∈ names := by
  induction names generalizing slots with
  | nil => simp [addSlots]
  | cons y names ih =>
      have hy : x ∈ addSlot slots y ↔ x ∈ slots ∨ x = y := by
        unfold addSlot
        split <;> grind
      rw [addSlots, List.foldl_cons, ← addSlots, ih, hy, List.mem_cons, or_assoc]

theorem nodup_addSlots {slots names : List String} (h : slots.Nodup) :
    (addSlots slots names).Nodup := by
  induction names generalizing slots with
  | nil => exact h
  | cons y names ih =>
      rw [addSlots, List.foldl_cons, ← addSlots]
      refine ih ?_
      unfold addSlot
      split
      · exact h
      · rename_i hy
        exact List.Nodup.append h (List.nodup_singleton y) (by simpa using hy)

theorem Block.mem_targets {b : Block} {x : String} : x ∈ b.targets ↔ ∃ s ∈ b, x ∈ s.targets := by
  induction b with
  | nil => simp [targets]
  | cons s b ih => simp [targets, ih]

theorem Block.mem_slotTable {b : Block} {x : String} : x ∈ b.slotTable ↔ x ∈ b.targets := by
  simp [slotTable, mem_addSlots]

theorem Block.nodup_slotTable (b : Block) : b.slotTable.Nodup :=
  nodup_addSlots List.nodup_nil

/-! ## Whole programs -/

/-- **A program is compiled to its code, or refused for its first reason.** -/
theorem Block.compile_cases (b : Block) :
    match Block.refusal? b.slotTable b with
    | none => ∃ a, b.compile = .ok a ∧ a.code = b.programCode ∧ a.slots = b.slotTable
    | some r => b.compile = .error r := by
  have hslots : (({} : Assembly).allocateAll b).slots = b.slotTable :=
    Assembly.foldl_allocate_slots _ _
  have hcode : (({} : Assembly).allocateAll b).code = [] := Assembly.foldl_allocate_code _ _
  have hwrites := (writes_emit (.enter b.slotTable.length)).seq
    ((Block.assemble_writes b.slotTable b).seq
      ((writes_emit (.exit b.slotTable.length)).seq (writes_emit .halt)))
  have hrun : b.assembleProgram.run {} = (do
      emit (.enter b.slotTable.length)
      Block.assemble b
      emit (.exit b.slotTable.length)
      emit .halt : Asm Unit).run (({} : Assembly).allocateAll b) := by
    rw [← hslots]
    rfl
  have h := hwrites _ hslots
  rw [Option.none_or, Option.none_or, Option.or_none] at h
  cases hr : Block.refusal? b.slotTable b with
  | some r =>
      rw [hr] at h
      obtain ⟨c', rs, h⟩ := h
      simp only [compile, hrun, h]
  | none =>
      rw [hr] at h
      obtain ⟨rs, h⟩ := h
      refine ⟨_, by simp only [compile, hrun, h]; rfl, ?_, ?_⟩
      · simp [hcode, programCode]
      · simp [hslots]

theorem Block.compile_of_accepted {b : Block} (h : Block.refusal? b.slotTable b = none) :
    ∃ a, b.compile = .ok a ∧ a.code = b.programCode := by
  have hc := b.compile_cases
  rw [h] at hc
  obtain ⟨a, ha, hcode, -⟩ := hc
  exact ⟨a, ha, hcode⟩

theorem Block.compile_eq_ok {b : Block} {a : Assembly} (h : b.compile = .ok a) :
    Block.refusal? b.slotTable b = none ∧ a.code = b.programCode ∧ a.slots = b.slotTable := by
  have hc := b.compile_cases
  cases hr : Block.refusal? b.slotTable b with
  | some r =>
      rw [hr] at hc
      rw [h] at hc
      exact absurd hc (by simp)
  | none =>
      rw [hr] at hc
      obtain ⟨a', ha', hcode, hslots⟩ := hc
      obtain rfl : a = a' := Except.ok.inj (h.symm.trans ha')
      exact ⟨rfl, hcode, hslots⟩

/-! ## Pieces in their place -/

/-- The piece `c` stands in the list `l` from position `p` on. -/
def StandsAt {α : Type} (l : List α) (p : Nat) (c : List α) : Prop :=
  ∃ pre post, l = pre ++ c ++ post ∧ pre.length = p

namespace StandsAt

variable {α : Type} {l c c₁ c₂ : List α} {p : Nat} {i : α}

theorem head (h : StandsAt l p (i :: c)) : l[p]? = some i := by
  obtain ⟨pre, post, rfl, rfl⟩ := h
  simp

theorem tail (h : StandsAt l p (i :: c)) : StandsAt l (p + 1) c := by
  obtain ⟨pre, post, rfl, rfl⟩ := h
  exact ⟨pre ++ [i], post, by simp, by simp⟩

theorem left (h : StandsAt l p (c₁ ++ c₂)) : StandsAt l p c₁ := by
  obtain ⟨pre, post, rfl, rfl⟩ := h
  exact ⟨pre, c₂ ++ post, by simp, rfl⟩

theorem right (h : StandsAt l p (c₁ ++ c₂)) : StandsAt l (p + c₁.length) c₂ := by
  obtain ⟨pre, post, rfl, rfl⟩ := h
  exact ⟨pre ++ c₁, post, by simp, by simp⟩

end StandsAt

/-- The code of a program's block stands behind the instruction that opens its frame. -/
theorem Block.standsAt_programCode (b : Block) :
    StandsAt b.programCode 1
      (Block.code b.slotTable b ++ [.exit b.slotTable.length, .halt]) :=
  ⟨[.enter b.slotTable.length], [], by simp [programCode], rfl⟩

end WhileLang
