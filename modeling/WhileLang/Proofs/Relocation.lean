import WhileLang.Proofs.Code

/-!
# Code that can stand anywhere

A statement is written behind whatever code there is, and its branches are settled at positions
that are counted from the front of that code. Nothing of this is left in what has been written. The
segment of a statement is the same behind any code, the segment of a block is made of those of its
statements, and a branch leads from a position of its segment to another one, or to the end.

While a statement is being written, its branches are placeholders that lead nowhere. None of them
is left when it has been written. If it is refused in the middle some may be, but what stood there
before has not been touched.

* `Asm.Adds`: some writing adds a segment behind an assembly; `Asm.Writes.adds_iff` says which.
* `BranchesWithin`: the branches of a code that stands at a position lead to a range of positions;
  `Stmt.branchesWithin` and `Block.branchesWithin` are about the code of each part.
* `Asm.Relocatable`: some writing can be done behind any code.
* `assemble_relocatable`: the writing of statements and blocks can.
-/

namespace WhileLang

/-! ## Segments -/

/-- The same slot table, with nothing written yet. -/
def Assembly.cleared (a : Assembly) : Assembly :=
  { slots := a.slots }

namespace Asm

/-- The assembly that some writing leaves, whether it is refused or not. -/
def leaves (x : Asm Unit) (a : Assembly) : Assembly :=
  match x.run a with
  | .ok _ a' => a'
  | .error _ a' => a'

/-- Behind what is written in `a`, the writing `x` is not refused and adds the segment `c`. -/
def Adds (x : Asm Unit) (a : Assembly) (c : List Instr) : Prop :=
  ∃ a', x.run a = .ok () a' ∧ a'.code = a.code ++ c

variable {x : Asm Unit} {a b : Assembly} {refusal : Option Refusal} {c c' : List Instr}

/-- What stood there is still there, also after a refusal. -/
theorem Writes.prefix_leaves (h : Writes a.slots x refusal c) : a.code <+: (x.leaves a).code := by
  have hx := h a rfl
  cases refusal with
  | none =>
      obtain ⟨rs, hrun⟩ := hx
      simp [leaves, hrun]
  | some r =>
      obtain ⟨c', rs, hrun⟩ := hx
      simp [leaves, hrun]

/-- The segment that is added depends on the slot table only. -/
theorem Writes.adds_iff (h : Writes a.slots x refusal c) (hb : b.slots = a.slots) :
    x.Adds b c' ↔ refusal = none ∧ c' = c := by
  have hx := h b hb
  cases refusal with
  | none =>
      obtain ⟨rs, hrun⟩ := hx
      simp [Adds, hrun, eq_comm]
  | some r =>
      obtain ⟨c', rs, hrun⟩ := hx
      simp [Adds, hrun]

end Asm

/-! ## Where branches lead -/

/-- The distance at which a branch may go on. -/
def Instr.offset? : Instr → Option Int
  | branch d | branchIfZero d => some d
  | _ => none

/-- Where a code stands from position `p` on, none of its branches leads to itself, and all of them
lead to positions from `low` to `high`. -/
def BranchesWithin (low high p : Int) (code : List Instr) : Prop :=
  ∀ (k : Nat) i d, code[k]? = some i → i.offset? = some d →
    d ≠ 0 ∧ low ≤ p + k + d ∧ p + k + d ≤ high

namespace BranchesWithin

variable {low high low' high' p : Int} {i : Instr} {c c₁ c₂ : List Instr}

theorem nil : BranchesWithin low high p [] := by
  intro k i d hk
  simp at hk

theorem cons (hi : ∀ d, i.offset? = some d → d ≠ 0 ∧ low ≤ p + d ∧ p + d ≤ high)
    (hc : BranchesWithin low high (p + 1) c) : BranchesWithin low high p (i :: c) := by
  intro k j d hk hd
  cases k with
  | zero =>
      obtain rfl : i = j := by simpa using hk
      simpa using hi d hd
  | succ k =>
      have h := hc k j d (by simpa using hk) hd
      push_cast
      omega

theorem append (h₁ : BranchesWithin low high p c₁)
    (h₂ : BranchesWithin low high (p + c₁.length) c₂) : BranchesWithin low high p (c₁ ++ c₂) := by
  intro k i d hk hd
  by_cases hlt : k < c₁.length
  · rw [List.getElem?_append_left hlt] at hk
    exact h₁ k i d hk hd
  · rw [List.getElem?_append_right (Nat.le_of_not_lt hlt)] at hk
    have h := h₂ _ i d hk hd
    omega

theorem widen (h : BranchesWithin low high p c) (hlow : low' ≤ low) (hhigh : high ≤ high') :
    BranchesWithin low' high' p c := by
  intro k i d hk hd
  obtain ⟨hne, hl, hh⟩ := h k i d hk hd
  exact ⟨hne, by omega, by omega⟩

/-- Code without branches. -/
theorem of_forall (h : ∀ i ∈ c, i.offset? = none) : BranchesWithin low high p c := by
  intro k i d hk hd
  rw [h i (List.mem_of_getElem? hk)] at hd
  cases hd

end BranchesWithin

/-- An expression has no branches. -/
theorem Expr.offset?_of_mem_code {slots : List String} {e : Expr} :
    ∀ i ∈ e.code slots, i.offset? = none := by
  induction e with
  | var x => simp [code, Instr.offset?]
  | num n => simp [code, Instr.offset?]
  | bin op l r ihl ihr =>
      intro i hi
      rcases List.mem_append.1 hi with hi | hi
      · exact (List.mem_append.1 hi).elim (ihl i) (ihr i)
      · rw [List.mem_singleton.1 hi]
        rfl
  | input j ih =>
      intro i hi
      rcases List.mem_append.1 hi with hi | hi
      · exact ih i hi
      · rw [List.mem_singleton.1 hi]
        rfl
  | stray d => simp [code]

/-- A test with its branch, and then the rest of a segment. -/
theorem BranchesWithin.test {low high p : Int} {test c : List Instr} {skip : Int}
    (htest : ∀ i ∈ test, i.offset? = none) (hskip : 0 < skip) (hlow : low ≤ p)
    (hhigh : p + test.length + skip ≤ high)
    (hc : BranchesWithin low high (p + test.length + 1) c) :
    BranchesWithin low high p (test ++ .branchIfZero skip :: c) := by
  refine (of_forall htest).append (.cons ?_ hc)
  intro d hd
  obtain rfl : skip = d := Option.some.inj hd
  omega

/-- Both branches of a conditional lead forward, at most to its end. -/
theorem branchesWithin_condCode {test body orelse : List Instr}
    (htest : ∀ i ∈ test, i.offset? = none)
    (hbody : ∀ p : Int, BranchesWithin p (p + body.length) p body)
    (horelse : ∀ p : Int, BranchesWithin p (p + orelse.length) p orelse) (p : Int) :
    BranchesWithin p (p + (condCode test body orelse).length) p (condCode test body orelse) := by
  have hlen : ((condCode test body orelse).length : Int) =
      test.length + 1 + body.length + 1 + orelse.length := by
    simp only [condCode, List.length_append, List.length_cons]
    push_cast
    omega
  rw [hlen, condCode]
  refine .test htest (by omega) (by omega) (by omega) (.append ?_ (.cons ?_ ?_))
  · exact (hbody _).widen (by omega) (by omega)
  · intro d hd
    obtain rfl : (orelse.length + 1 : Int) = d := Option.some.inj hd
    omega
  · exact (horelse _).widen (by omega) (by omega)

/-- The first branch of a loop leads to its end, and the last one back to its beginning. -/
theorem branchesWithin_loopCode {test body : List Instr} (htest : ∀ i ∈ test, i.offset? = none)
    (hbody : ∀ p : Int, BranchesWithin p (p + body.length) p body) (p : Int) :
    BranchesWithin p (p + (loopCode test body).length) p (loopCode test body) := by
  have hlen : ((loopCode test body).length : Int) = test.length + 1 + body.length + 1 := by
    simp only [loopCode, List.length_append, List.length_cons, List.length_nil]
    push_cast
    omega
  rw [hlen, loopCode]
  refine .test htest (by omega) (by omega) (by omega) (.append ?_ (.cons ?_ .nil))
  · exact (hbody _).widen (by omega) (by omega)
  · intro d hd
    obtain rfl : (-(test.length + body.length + 1 : Nat) : Int) = d := Option.some.inj hd
    push_cast
    omega

mutual

/-- The branches of a statement lead to its own positions, or to its end. -/
theorem Stmt.branchesWithin (slots : List String) : ∀ (s : Stmt) (p : Int),
    BranchesWithin p (p + (s.code slots).length) p (s.code slots)
  | .assign x e, p => by
      rw [Stmt.code]
      exact (BranchesWithin.of_forall Expr.offset?_of_mem_code).append
        (.cons (by simp [Instr.offset?]) .nil)
  | .print e, p => by
      rw [Stmt.code]
      exact (BranchesWithin.of_forall Expr.offset?_of_mem_code).append
        (.cons (by simp [Instr.offset?]) .nil)
  | .cond t b o, p => by
      rw [Stmt.code]
      exact branchesWithin_condCode Expr.offset?_of_mem_code (Block.branchesWithin slots b)
        (Block.branchesWithin slots o) p
  | .loop t b, p => by
      rw [Stmt.code]
      exact branchesWithin_loopCode Expr.offset?_of_mem_code (Block.branchesWithin slots b) p
  | .stray d, p => by
      rw [Stmt.code]
      exact .nil

/-- The branches of a block lead to its own positions, or to its end. -/
theorem Block.branchesWithin (slots : List String) : ∀ (b : Block) (p : Int),
    BranchesWithin p (p + (Block.code slots b).length) p (Block.code slots b)
  | [], p => by
      rw [Block.code]
      exact .nil
  | s :: rest, p => by
      rw [Block.code, List.length_append]
      refine .append ((s.branchesWithin slots p).widen ?_ ?_)
        ((Block.branchesWithin slots rest _).widen ?_ ?_) <;> push_cast <;> omega

end

/-! ## Writing anywhere -/

/-- Some writing can be done behind what stands in `a`. -/
structure Asm.Relocatable (x : Asm Unit) (a : Assembly) : Prop where
  /-- What stood there is still there, also after a refusal. -/
  kept : a.code <+: (x.leaves a).code
  /-- The segment that is added is the one that is written where nothing stands. -/
  segment : ∀ c, x.Adds a c ↔ x.Adds a.cleared c
  /-- No branch of the segment is left as a placeholder, and all of them lead to a position of the
  segment or to its end. -/
  branches : ∀ a', x.run a = .ok () a' → ∀ (p : Nat) i d, a.code.length ≤ p →
    a'.code[p]? = some i → i.offset? = some d →
      d ≠ 0 ∧ (a.code.length : Int) ≤ p + d ∧ (p : Int) + d ≤ a'.code.length

theorem Asm.Writes.relocatable {x : Asm Unit} {a : Assembly} {refusal : Option Refusal}
    {c : List Instr} (h : Writes a.slots x refusal c)
    (hc : ∀ p : Int, BranchesWithin p (p + c.length) p c) : x.Relocatable a where
  kept := h.prefix_leaves
  segment c' := (h.adds_iff rfl).trans (h.adds_iff (b := a.cleared) rfl).symm
  branches := by
    intro a' hrun p i d hp hi hd
    obtain ⟨c', hc'⟩ : a.code <+: a'.code := by simpa [leaves, hrun] using h.prefix_leaves
    obtain ⟨-, rfl⟩ := (h.adds_iff rfl).1 ⟨a', hrun, hc'.symm⟩
    rw [← hc', List.getElem?_append_right hp] at hi
    obtain ⟨hne, hlow, hhigh⟩ := hc a.code.length _ i d hi hd
    rw [← hc', List.length_append]
    push_cast
    omega

/-- The code of a block is made of the codes of its statements. -/
theorem Block.segments_iff {slots : List String} {b : Block} {c : List Instr} :
    Block.refusal? slots b = none ∧ c = Block.code slots b ↔
      ∃ cs, List.Forall₂ (fun s c => s.refusal? slots = none ∧ c = s.code slots) b cs ∧
        c = cs.flatten := by
  induction b generalizing c with
  | nil => simp [Block.refusal?, Block.code]
  | cons s b ih =>
      rw [Block.refusal?, Block.code, Option.or_eq_none_iff]
      constructor
      · rintro ⟨⟨hs, hb⟩, rfl⟩
        obtain ⟨cs, hcs, hflat⟩ := ih.1 ⟨hb, rfl⟩
        exact ⟨s.code slots :: cs, .cons ⟨hs, rfl⟩ hcs, by rw [hflat, List.flatten_cons]⟩
      · rintro ⟨cs, hcs, rfl⟩
        cases hcs with
        | cons hs hrest =>
            obtain ⟨hs, rfl⟩ := hs
            obtain ⟨hb, hflat⟩ := ih.2 ⟨_, hrest, rfl⟩
            exact ⟨⟨hs, hb⟩, by rw [List.flatten_cons, hflat]⟩

/-- **Code can stand anywhere.** Behind any code and with any slot table, the writing of a statement
or a block changes nothing that stood there, even if it is refused. If it is not, the segment that
it adds is the one that it writes where nothing stands, and each branch of it has been settled, to
lead to a position of the segment or to its end. The segment of a block is made of the segments
that its statements have on their own. -/
theorem assemble_relocatable (a : Assembly) :
    (∀ s : Stmt, s.assemble.Relocatable a) ∧
    ∀ b : Block, (Block.assemble b).Relocatable a ∧
      ∀ c, (Block.assemble b).Adds a c ↔
        ∃ cs, List.Forall₂ (fun s c => s.assemble.Adds a.cleared c) b cs ∧ c = cs.flatten := by
  refine ⟨fun s => (s.assemble_writes a.slots).relocatable (s.branchesWithin a.slots),
    fun b => ⟨(Block.assemble_writes a.slots b).relocatable (Block.branchesWithin a.slots b), ?_⟩⟩
  intro c
  have hstmt : (fun (s : Stmt) c => s.assemble.Adds a.cleared c) =
      fun s c => s.refusal? a.slots = none ∧ c = s.code a.slots := by
    funext s c
    exact propext ((s.assemble_writes a.slots).adds_iff rfl)
  rw [(Block.assemble_writes a.slots b).adds_iff rfl, hstmt]
  exact Block.segments_iff

/-- A loop around a conditional that does nothing in either case. -/
def idleOnce : Block :=
  [.loop (.var "x") [.cond (.var "x") [] [], .assign "x" (.num 0)]]

/-- Behind code with a branch of its own that has not been settled, which stays as it is, the
segment of a loop is the one that it has alone, and its last branch leads back to its first
position. -/
theorem idleOnce_relocated :
    let a : Assembly := { code := [.enter 1, .branch 0], slots := ["x"] }
    let c : List Instr := [.getLocal 0, .branchIfZero 7, .getLocal 0, .branchIfZero 2, .branch 1,
      .literal 0, .setLocal 0, .branch (-7)]
    (Block.assemble idleOnce).Adds a c ∧ (Block.assemble idleOnce).Adds a.cleared c ∧
      ∃ a', (Block.assemble idleOnce).run a = .ok () a' ∧ a'.code[9]? = some (.branch (-7)) ∧
        (a.code.length : Int) ≤ 9 + -7 ∧ 9 + -7 ≤ (a'.code.length : Int) := by
  intro a c
  obtain ⟨hblock, -⟩ := (assemble_relocatable a).2 idleOnce
  have hadds : (Block.assemble idleOnce).Adds a c :=
    ((Block.assemble_writes a.slots idleOnce).adds_iff rfl).2 ⟨rfl, rfl⟩
  have ⟨a', hrun, hcode⟩ := hadds
  have hlast : a'.code[9]? = some (.branch (-7)) := by rw [hcode]; rfl
  refine ⟨hadds, (hblock.segment c).1 hadds, a', hrun, hlast, ?_⟩
  exact (hblock.branches a' hrun 9 (.branch (-7)) (-7) (by decide) hlast rfl).2

end WhileLang
