import WhileLang.Proofs.FramePointer

/-!
# Balanced frames restore what was there before

Frames and the saved frame pointers between them lie in one row of locals, and a store is checked
against the upper end of that row only. That is enough in balanced code, in which every frame that
is opened is closed with the same number of slots. A store then goes to a slot of the frame that is
open, and never reaches what lies below. So a frame that is closed leaves the locals and the frame
pointer as they were before it was opened, whatever they were and however deep frames have been
opened inside it.

* `Balanced`, `framed`: balanced code, and balanced code in a frame of its own.
* `InFrameOf`: in which frame a position of balanced code lies; `Balanced.inFrameOf` finds it.
* `State.Frame`: the locals of a state, split at the beginning of the open frame.
* `Balanced.keepsFrame`: balanced code stays in the open frame, by what one instruction does
  (`State.Frame.exec`).
* `StaysInFrame`: what an instruction may do in its own frame; `Machine.exists_staysInFrame`: on a
  run each one does no more.
* `Machine.frame_restores_caller`: what code in a frame does, from any state on.
-/

namespace WhileLang

/-! ## Balanced code -/

namespace Instr

/-- An instruction that goes on at the next position, and opens and closes no frame. -/
def isPlain : Instr → Bool
  | halt | enter _ | exit _ | branch _ | branchIfZero _ => false
  | _ => true

/-- An instruction that goes on at the next position. -/
def isStraight : Instr → Bool
  | halt | branch _ | branchIfZero _ => false
  | _ => true

end Instr

/-- Code in a frame of its own. -/
def framed (n : Nat) (c : List Instr) : List Instr :=
  .enter n :: (c ++ [.exit n])

/-- Code without branches in which all frames that are opened are closed again. -/
inductive Balanced : List Instr → Prop where
  | nil : Balanced []
  | single {i : Instr} : i.isPlain = true → Balanced [i]
  | append {c₁ c₂ : List Instr} : Balanced c₁ → Balanced c₂ → Balanced (c₁ ++ c₂)
  | frame (n : Nat) {c : List Instr} : Balanced c → Balanced (framed n c)

/-- When position `k` of a code is reached, the frame that is open is the one that was opened at
position `q`, with `count` slots: what lies between is balanced. -/
def InFrameOf (c : List Instr) (q count k : Nat) : Prop :=
  ∃ before between after, c = before ++ .enter count :: (between ++ after) ∧ Balanced between ∧
    q = before.length ∧ k = q + 1 + between.length

theorem length_framed (n : Nat) (c : List Instr) : (framed n c).length = c.length + 2 := by
  simp [framed]

namespace InFrameOf

variable {c c' : List Instr} {q count k : Nat}

theorem append_right (h : InFrameOf c q count k) (c' : List Instr) :
    InFrameOf (c ++ c') q count k := by
  obtain ⟨before, between, after, rfl, hb, hq, hk⟩ := h
  exact ⟨before, between, after ++ c', by simp, hb, hq, hk⟩

theorem append_left (h : InFrameOf c q count k) (c' : List Instr) :
    InFrameOf (c' ++ c) (c'.length + q) count (c'.length + k) := by
  obtain ⟨before, between, after, rfl, hb, rfl, rfl⟩ := h
  exact ⟨c' ++ before, between, after, by simp, hb, by simp, by omega⟩

/-- A position of code that is put in a frame lies in one that it lay in before, or in the new
one. -/
theorem exists_framed (n : Nat) (hk : k ≤ c.length)
    (h : Balanced (c.take k) ∨ ∃ q count, InFrameOf c q count k) :
    ∃ q count, InFrameOf (framed n c) q count (k + 1) := by
  rcases h with hc | ⟨q, count, hin⟩
  · refine ⟨0, n, [], c.take k, c.drop k ++ [.exit n], ?_, hc, rfl, ?_⟩
    · rw [← List.append_assoc, List.take_append_drop]
      rfl
    · rw [List.length_take_of_le hk]
      omega
  · have hin' := (hin.append_right [.exit n]).append_left [.enter n]
    rw [List.length_singleton, Nat.add_comm 1 k] at hin'
    exact ⟨1 + q, count, hin'⟩

end InFrameOf

namespace Balanced

variable {c : List Instr}

theorem isStraight (h : Balanced c) : ∀ i ∈ c, i.isStraight = true := by
  induction h with
  | nil => simp
  | @single i hi =>
      intro j hj
      rw [List.mem_singleton.1 hj]
      cases i <;> simp_all [Instr.isPlain, Instr.isStraight]
  | append _ _ ih₁ ih₂ => exact List.forall_mem_append.2 ⟨ih₁, ih₂⟩
  | frame n _ ih =>
      intro j hj
      simp only [framed, List.mem_cons, List.mem_append, List.not_mem_nil, or_false] at hj
      rcases hj with rfl | hj | rfl
      · rfl
      · exact ih j hj
      · rfl

/-- Up to any position balanced code is balanced, unless the position lies in a frame. -/
theorem take_or_inFrameOf (h : Balanced c) {k : Nat} (hk : k ≤ c.length) :
    Balanced (c.take k) ∨ ∃ q count, InFrameOf c q count k := by
  induction h generalizing k with
  | nil =>
      rw [List.take_nil]
      exact .inl .nil
  | single hi =>
      rcases Nat.le_one_iff_eq_zero_or_eq_one.1 hk with rfl | rfl
      · exact .inl .nil
      · exact .inl (.single hi)
  | @append c₁ c₂ h₁ _ ih₁ ih₂ =>
      by_cases hle : k ≤ c₁.length
      · rw [List.take_append_of_le_length hle]
        exact (ih₁ hle).imp_right fun ⟨q, count, h⟩ => ⟨q, count, h.append_right c₂⟩
      · obtain ⟨j, rfl⟩ : ∃ j, k = c₁.length + j := ⟨k - c₁.length, by omega⟩
        rw [List.length_append] at hk
        rw [List.take_length_add_append]
        exact (ih₂ (by omega)).imp h₁.append
          fun ⟨q, count, h⟩ => ⟨c₁.length + q, count, h.append_left c₁⟩
  | @frame n c h ih =>
      rw [length_framed] at hk
      rcases k with _ | k
      · exact .inl .nil
      · by_cases hle : k ≤ c.length
        · exact .inr (InFrameOf.exists_framed n hle (ih hle))
        · rw [List.take_of_length_le (by rw [length_framed]; omega)]
          exact .inl (.frame n h)

/-- Every position inside framed code lies in a frame. -/
theorem inFrameOf (h : Balanced c) {n k : Nat} (hpos : 0 < k) (hk : k < (framed n c).length) :
    ∃ q count, InFrameOf (framed n c) q count k := by
  obtain ⟨k, rfl⟩ : ∃ j, k = j + 1 := ⟨k - 1, by omega⟩
  rw [length_framed] at hk
  have hle : k ≤ c.length := by omega
  exact InFrameOf.exists_framed n hle (h.take_or_inFrameOf hle)

end Balanced

/-! ## What one instruction does to the open frame -/

/-- The locals of a state are what lies below the open frame, and its slots. -/
structure State.Frame (s : State) (below slots : List Int) : Prop where
  locals : s.locals = below ++ slots
  fp : s.fp = below.length

namespace Instr

variable {setting : Setting} {s t : State} {i : Instr} {below slots : List Int}

/-- What goes on at the next position moves the program counter by itself in no other way. -/
theorem advance_of_exec {d : Int} (hi : i.isStraight = true)
    (h : i.exec setting s = .done (.advance d) t) : d = 1 ∧ t.pc = s.pc := by
  obtain ⟨hpc, hd⟩ := exec_eq_done h
  rcases hd d rfl with hd | rfl | rfl
  · exact ⟨hd, hpc⟩
  · cases hi
  · cases hi

end Instr

namespace State.Frame

variable {setting : Setting} {s t : State} {i : Instr} {effect : Effect} {below slots : List Int}

theorem congr (hs : s.Frame below slots) (hlocals : t.locals = s.locals) (hfp : t.fp = s.fp) :
    t.Frame below slots :=
  ⟨hlocals.trans hs.locals, hfp.trans hs.fp⟩

/-- A plain instruction stays in the open frame, and only a store changes a slot. -/
theorem exec (hs : s.Frame below slots) (hi : i.isPlain = true)
    (h : i.exec setting s = .done effect t) :
    ∃ slots', t.Frame below slots' ∧ slots'.length = slots.length ∧
      ∀ j : Nat, i ≠ .setLocal j → slots'[j]? = slots[j]? := by
  rcases Instr.locals_cases h with ⟨hlocals, hfp, -⟩ |
    ⟨slot, v, k, rfl, h₀, hk, -, hlocals, hfp⟩ | ⟨count, rfl, -⟩ | ⟨count, rfl, -⟩
  · exact ⟨slots, hs.congr hlocals hfp, rfl, fun _ _ => rfl⟩
  · -- the frame pointer is a position, so the cell is a slot of the open frame
    obtain ⟨j, rfl⟩ : ∃ j : Nat, slot = j := ⟨slot.toNat, by omega⟩
    obtain rfl : k = below.length + j := by
      have := hs.fp
      omega
    refine ⟨slots.set j v, ⟨?_, hfp.trans hs.fp⟩, List.length_set, fun j' hj' => ?_⟩
    · rw [hlocals, hs.locals, List.set_append_right _ _ (Nat.le_add_right _ _),
        Nat.add_sub_cancel_left]
    · rw [List.getElem?_set_ne]
      rintro rfl
      exact hj' rfl
  · cases hi
  · cases hi

/-- Opening a frame, from any state on, puts zeros in its slots. -/
theorem enter {n : Nat} (h : (Instr.enter n).exec setting s = .done effect t) :
    t.Frame (s.locals ++ [s.fp]) (List.replicate n 0) := by
  rcases Instr.locals_cases h with ⟨-, -, hne⟩ | ⟨_, _, _, hi, -⟩ | ⟨count, hi, hlocals, hfp⟩ |
    ⟨_, hi, -⟩
  · exact absurd rfl (hne n).1
  · cases hi
  · cases hi
    exact ⟨by simp [hlocals], by simp [hfp]⟩
  · cases hi

/-- Closing a frame with all its slots takes back its opening. -/
theorem exit {n : Nat} {locals : List Int} {fp : Int} (hs : s.Frame (locals ++ [fp]) slots)
    (hn : slots.length = n) (h : (Instr.exit n).exec setting s = .done effect t) :
    t.locals = locals ∧ t.fp = fp := by
  rcases Instr.locals_cases h with ⟨-, -, hne⟩ | ⟨_, _, _, hi, -⟩ | ⟨_, hi, -⟩ |
    ⟨count, hi, -, hlocals, hfp⟩
  · exact absurd rfl (hne n).2
  · cases hi
  · cases hi
  · obtain rfl : n = count := by
      have := Instr.exit.inj hi
      omega
    have hsaved : s.locals.length - (n + 1) = locals.length := by
      rw [hs.locals, ← hn]
      simp
    rw [hsaved, hs.locals] at hlocals hfp
    exact ⟨by simp [hlocals], by simp [hfp]⟩

/-- Whatever an instruction does in a frame, what is left below is as it was. -/
theorem below_exec (hs : s.Frame below slots) (h : i.exec setting s = .done effect t) {k : Nat}
    (hk : k < below.length) {x : Int} (hx : t.locals[k]? = some x) : s.locals[k]? = some x := by
  rcases Instr.locals_cases h with ⟨hlocals, -⟩ | ⟨slot, v, k', -, h₀, hk', -, hlocals, -⟩ |
    ⟨count, -, hlocals, -⟩ | ⟨count, -, -, hlocals, -⟩
  · rwa [hlocals] at hx
  · have hfp := hs.fp
    rwa [hlocals, List.getElem?_set_ne (by omega)] at hx
  · rwa [hlocals, List.getElem?_append_left (by rw [hs.locals, List.length_append]; omega)] at hx
  · rw [hlocals, List.getElem?_take] at hx
    split at hx
    · exact hx
    · cases hx

end State.Frame

/-! ## What balanced code does to the open frame -/

/-- Nothing in the code `c` stores a value in slot `j` of the frame that is open when it begins. -/
def Unwritten (c : List Instr) (j : Nat) : Prop :=
  ∀ c₁ c₂, c = c₁ ++ .setLocal j :: c₂ → ¬ Balanced c₁

namespace Machine

variable {m : Machine} {s t : State} {p n : Nat} {c : List Instr}

/-- A step of an instruction that goes on at the next position. -/
theorem exec_of_runFor_one {i : Instr} (hi : i.isStraight = true)
    (hcode : StandsAt m.code p (i :: c)) (hpc : s.pc = p)
    (h : m.runFor 1 s = (.unfinished, t)) :
    t.pc = (p + 1 : Nat) ∧ ∃ u, i.exec m.toSetting s = .done (.advance 1) u ∧
      t.locals = u.locals ∧ t.fp = u.fp := by
  obtain ⟨j, d, u, -, hj, -, hexec, rfl⟩ := step_eq_running (step_of_runFor_one h)
  rw [hpc, instrAt?_natCast, hcode.head] at hj
  obtain rfl : i = j := Option.some.inj hj
  obtain ⟨rfl, hu⟩ := Instr.advance_of_exec hi hexec
  exact ⟨by simp [hu, hpc], u, hexec, rfl, rfl⟩

/-- Code without branches is executed from front to end. -/
theorem pc_of_runFor (hc : ∀ i ∈ c, i.isStraight = true) (hcode : StandsAt m.code p c)
    (hpc : s.pc = p) (h : m.runFor c.length s = (.unfinished, t)) :
    t.pc = (p + c.length : Nat) := by
  induction c generalizing p s with
  | nil =>
      obtain rfl : s = t := (Prod.mk.inj h).2
      exact hpc
  | cons i c ih =>
      rw [List.length_cons, Nat.add_comm] at h
      obtain ⟨u, hone, hrest⟩ := exists_of_runFor_add h
      obtain ⟨hi, hc⟩ := List.forall_mem_cons.1 hc
      obtain ⟨hu, -⟩ := exec_of_runFor_one hi hcode hpc hone
      rw [ih hc hcode.tail hu hrest, List.length_cons, Nat.add_right_comm, Nat.add_assoc]

/-- The code `c` stays in the frame that is open when it begins, and changes only slots in which
it stores something. -/
def KeepsFrame (m : Machine) (c : List Instr) : Prop :=
  ∀ (p : Nat) (s t : State) (below slots : List Int), StandsAt m.code p c → s.pc = p →
    s.Frame below slots → m.runFor c.length s = (.unfinished, t) →
    ∃ slots', t.Frame below slots' ∧ slots'.length = slots.length ∧
      ∀ j, Unwritten c j → slots'[j]? = slots[j]?

/-- In a frame that has just been opened, a slot holds zero unless something was stored in it. -/
theorem KeepsFrame.opened (h : m.KeepsFrame c) (hc : Balanced c)
    (hcode : StandsAt m.code p (.enter n :: c)) (hpc : s.pc = p)
    (hrun : m.runFor (1 + c.length) s = (.unfinished, t)) :
    t.pc = (p + 1 + c.length : Nat) ∧ ∃ slots, t.Frame (s.locals ++ [s.fp]) slots ∧
      slots.length = n ∧ ∀ j < n, Unwritten c j → slots[j]? = some 0 := by
  obtain ⟨u, hone, hrest⟩ := exists_of_runFor_add hrun
  obtain ⟨hu, u', hexec, hlocals, hfp⟩ := exec_of_runFor_one rfl hcode hpc hone
  have hframe := (State.Frame.enter hexec).congr hlocals hfp
  obtain ⟨slots, hslots, hlen, hkept⟩ := h _ _ _ _ _ hcode.tail hu hframe hrest
  rw [List.length_replicate] at hlen
  refine ⟨pc_of_runFor hc.isStraight hcode.tail hu hrest, slots, hslots, hlen,
    fun j hj hunwritten => ?_⟩
  rw [hkept j hunwritten, List.getElem?_replicate, if_pos hj]

/-- Code that stays in its frame, put in one, takes back its opening when it closes it. -/
theorem KeepsFrame.restores (h : m.KeepsFrame c) (hc : Balanced c)
    (hcode : StandsAt m.code p (framed n c)) (hpc : s.pc = p)
    (hrun : m.runFor (framed n c).length s = (.unfinished, t)) :
    t.locals = s.locals ∧ t.fp = s.fp := by
  rw [length_framed, show c.length + 2 = 1 + c.length + 1 by omega] at hrun
  obtain ⟨u, hbody, hlast⟩ := exists_of_runFor_add hrun
  have hopening : StandsAt m.code p (.enter n :: c) := by
    rw [framed, ← List.cons_append] at hcode
    exact hcode.left
  have hclosing : StandsAt m.code (p + 1 + c.length) [.exit n] := hcode.tail.right
  obtain ⟨hupc, slots, hframe, hlen, -⟩ := h.opened hc hopening hpc hbody
  obtain ⟨-, v, hexec, hlocals, hfp⟩ := exec_of_runFor_one rfl hclosing hupc hlast
  rw [hlocals, hfp]
  exact hframe.exit hlen hexec

end Machine

/-- **Balanced code stays in the open frame.** -/
theorem Balanced.keepsFrame {c : List Instr} (h : Balanced c) (m : Machine) : m.KeepsFrame c := by
  induction h with
  | nil =>
      intro p s t below slots _ _ hframe hrun
      obtain rfl : s = t := (Prod.mk.inj hrun).2
      exact ⟨slots, hframe, rfl, fun _ _ => rfl⟩
  | @single i hi =>
      intro p s t below slots hcode hpc hframe hrun
      have hstraight := Balanced.isStraight (.single hi) i (List.mem_singleton.2 rfl)
      obtain ⟨-, u, hexec, hlocals, hfp⟩ :=
        Machine.exec_of_runFor_one hstraight hcode hpc hrun
      obtain ⟨slots', hu, hlen, hkept⟩ := hframe.exec hi hexec
      refine ⟨slots', hu.congr hlocals hfp, hlen, fun j hj => hkept j ?_⟩
      rintro rfl
      exact hj [] [] rfl .nil
  | @append c₁ c₂ h₁ h₂ ih₁ ih₂ =>
      intro p s t below slots hcode hpc hframe hrun
      rw [List.length_append] at hrun
      obtain ⟨u, hrun₁, hrun₂⟩ := Machine.exists_of_runFor_add hrun
      obtain ⟨slots₁, hu, hlen₁, hkept₁⟩ := ih₁ _ _ _ _ _ hcode.left hpc hframe hrun₁
      have hupc := Machine.pc_of_runFor h₁.isStraight hcode.left hpc hrun₁
      obtain ⟨slots₂, ht, hlen₂, hkept₂⟩ := ih₂ _ _ _ _ _ hcode.right hupc hu hrun₂
      refine ⟨slots₂, ht, hlen₂.trans hlen₁, fun j hj => ?_⟩
      -- a store in either part is one in the whole, after balanced code
      have hj₁ : Unwritten c₁ j := by
        rintro d₁ d₂ rfl
        exact hj d₁ (d₂ ++ c₂) (by simp)
      have hj₂ : Unwritten c₂ j := by
        rintro d₁ d₂ rfl hd₁
        exact hj (c₁ ++ d₁) d₂ (by simp) (h₁.append hd₁)
      exact (hkept₂ j hj₂).trans (hkept₁ j hj₁)
  | frame n hc ih =>
      intro p s t below slots hcode hpc hframe hrun
      obtain ⟨hlocals, hfp⟩ := ih.restores hc hcode hpc hrun
      exact ⟨slots, hframe.congr hlocals hfp, rfl, fun _ _ => rfl⟩

/-! ## Code in a frame, from any state on -/

/-- What comes behind some code that an instruction opens. -/
theorem getElem?_behind (i : Instr) (pre mid post : List Instr) :
    (pre ++ i :: (mid ++ post))[pre.length + 1 + mid.length]? = post.head? := by
  rw [Nat.add_assoc, List.getElem?_append_right (Nat.le_add_right _ _), Nat.add_sub_cancel_left,
    Nat.add_comm 1, List.getElem?_cons_succ, List.getElem?_append_right (Nat.le_refl _),
    Nat.sub_self, List.head?_eq_getElem?]

/-- Between the opening of a frame and a position in it, nothing is stored in a slot if no store
in that frame names the slot. -/
theorem unwritten_of_inFrameOf {pre mid post : List Instr} {count j : Nat}
    (h : ∀ l < pre.length + 1 + mid.length,
      InFrameOf (pre ++ .enter count :: (mid ++ post)) pre.length count l →
        (pre ++ .enter count :: (mid ++ post))[l]? ≠ some (.setLocal j)) : Unwritten mid j := by
  rintro c₁ c₂ rfl hc₁
  have hlt : pre.length + 1 + c₁.length <
      pre.length + 1 + (c₁ ++ Instr.setLocal j :: c₂).length := by
    rw [List.length_append, List.length_cons]
    omega
  refine h _ hlt ⟨pre, c₁, .setLocal j :: (c₂ ++ post), by simp, hc₁, rfl, rfl⟩ ?_
  rw [List.append_assoc, List.cons_append]
  exact getElem?_behind _ pre c₁ _

/-- What the instruction `i` does between two states, in the frame of `count` slots that begins at
the position `base` of the locals; `unwritten` tells the slots in which nothing has been stored
since the frame was opened. -/
structure StaysInFrame (i : Instr) (base count : Nat) (unwritten : Nat → Prop)
    (before after : State) : Prop where
  /-- The frame is the one that is open. -/
  fp : before.fp = base
  /-- It has all its slots, and nothing lies above it. -/
  length : before.locals.length = base + count
  /-- A slot in which nothing has been stored holds zero. -/
  zero : ∀ j < count, unwritten j → before.locals[base + j]? = some 0
  /-- A slot in which nothing has been stored reads zero. -/
  read : ∀ j : Nat, i = .getLocal j → unwritten j → after.stack = 0 :: before.stack
  /-- What the instruction reads or writes is a slot of the frame. -/
  cell : ∀ slot, i.slot? = some slot → ∃ k : Nat, (k : Int) = base + slot ∧ base ≤ k ∧
    k < base + count ∧ i.UsesCell before after k
  /-- Nothing is written below the frame. -/
  below : ∀ k < base, ∀ x, after.locals[k]? = some x → before.locals[k]? = some x

namespace Machine

variable {m : Machine} {s t : State} {p n : Nat} {c : List Instr}

/-- An instruction in a frame whose slots are known stays there. -/
theorem staysInFrame {i : Instr} {below slots : List Int} {unwritten : Nat → Prop}
    (hs : s.Frame below slots) (hi : m.instrAt? s.pc = some i) (hstep : m.step s = .running t)
    (hzero : ∀ j < slots.length, unwritten j → slots[j]? = some 0) :
    StaysInFrame i below.length slots.length unwritten s t := by
  have hlen : s.locals.length = below.length + slots.length := by
    rw [hs.locals, List.length_append]
  have hslot : ∀ j < slots.length, unwritten j → s.locals[below.length + j]? = some 0 := by
    intro j hj hunwritten
    rw [hs.locals, List.getElem?_append_right (Nat.le_add_right _ _), Nat.add_sub_cancel_left]
    exact hzero j hj hunwritten
  have hcell : ∀ slot, i.slot? = some slot → ∃ k : Nat, (k : Int) = below.length + slot ∧
      below.length ≤ k ∧ k < below.length + slots.length ∧ i.UsesCell s t k := by
    intro slot hslot
    obtain ⟨h₀, k, hlt, huse, hk⟩ := usesCell_of_step hi hslot hstep
    rw [hs.fp] at hk
    exact ⟨k, by omega, by omega, by omega, huse⟩
  refine ⟨hs.fp, hlen, hslot, ?_, hcell, ?_⟩
  · rintro j rfl hunwritten
    obtain ⟨k, hk, -, hlt, v, hv, hstack, -⟩ := hcell j rfl
    obtain rfl : k = below.length + j := by omega
    rw [hslot j (by omega) hunwritten] at hv
    rw [hstack, ← Option.some.inj hv]
  · intro k hk x hx
    obtain ⟨j, d, u, -, -, -, hexec, rfl⟩ := step_eq_running hstep
    exact hs.below_exec hexec hk hx

/-- On its way through code without branches a run comes to each instruction, and the instruction
stays in the frame in which it lies. -/
theorem exists_staysInFrame {code : List Instr} (hstraight : ∀ i ∈ code, i.isStraight = true)
    (hcode : StandsAt m.code p code) (hpc : s.pc = p)
    (hrun : m.runFor code.length s = (.unfinished, t)) {q count k : Nat} {i : Instr}
    (hin : InFrameOf code q count k) (hi : code[k]? = some i) :
    ∃ opening before after, m.runFor q s = (.unfinished, opening) ∧
      m.runFor k s = (.unfinished, before) ∧ m.runFor (k + 1) s = (.unfinished, after) ∧
      m.instrAt? before.pc = some i ∧
      StaysInFrame i (opening.locals.length + 1) count
        (fun j => ∀ l < k, InFrameOf code q count l → code[l]? ≠ some (.setLocal j))
        before after := by
  obtain ⟨pre, mid, post, rfl, hmid, rfl, rfl⟩ := hin
  rw [getElem?_behind] at hi
  obtain ⟨rest, rfl⟩ := List.head?_eq_some_iff.1 hi
  -- the run passes the opening of the frame and comes to the instruction
  have hlen : (pre ++ .enter count :: (mid ++ i :: rest)).length =
      pre.length + (1 + mid.length + (1 + rest.length)) := by
    simp only [List.length_append, List.length_cons]
    omega
  rw [hlen] at hrun
  obtain ⟨opening, hopening, hrun⟩ := exists_of_runFor_add hrun
  obtain ⟨before, hbefore, hrun⟩ := exists_of_runFor_add hrun
  obtain ⟨after, hafter, -⟩ := exists_of_runFor_add hrun
  have hk : m.runFor (pre.length + 1 + mid.length) s = (.unfinished, before) := by
    rw [Nat.add_assoc]
    exact (reaches_of_runFor hopening _).trans hbefore
  have hopens : StandsAt m.code (p + pre.length) (.enter count :: mid) := by
    rw [← List.cons_append] at hcode
    exact hcode.right.left
  have hpcopening : opening.pc = (p + pre.length : Nat) :=
    pc_of_runFor (fun j hj => hstraight j (by simp [hj])) hcode.left hpc hopening
  obtain ⟨hpcbefore, slots, hframe, rfl, hzero⟩ :=
    (hmid.keepsFrame m).opened hmid hopens hpcopening hbefore
  have hinstr : m.instrAt? before.pc = some i := by
    rw [hpcbefore, instrAt?_natCast]
    exact hcode.right.tail.right.head
  refine ⟨opening, before, after, hopening, hk, (reaches_of_runFor hk 1).trans hafter, hinstr, ?_⟩
  have hbase : opening.locals.length + 1 = (opening.locals ++ [opening.fp]).length := by simp
  rw [hbase]
  exact staysInFrame hframe hinstr (step_of_runFor_one hafter)
    fun j hj hunwritten => hzero j hj (unwritten_of_inFrameOf hunwritten)

/-- **A frame restores what was there before.** Balanced code in a frame may stand anywhere and
begin in any state. If it is executed to its end, the frame pointer and all locals are what they
were before. On the way every position lies in a frame, its own or one that has been opened inside,
and the instruction there stays in that frame: it reads and writes slots of it only, finds zero in
those in which nothing has been stored, and writes nothing below. -/
theorem frame_restores_caller (hc : Balanced c) (hcode : StandsAt m.code p (framed n c))
    (hpc : s.pc = p) (hrun : m.runFor (framed n c).length s = (.unfinished, t)) :
    t.fp = s.fp ∧ t.locals = s.locals ∧
    (∀ k, 0 < k → k < (framed n c).length → ∃ q count, InFrameOf (framed n c) q count k) ∧
    ∀ q count k i, InFrameOf (framed n c) q count k → (framed n c)[k]? = some i →
      ∃ opening before after, m.runFor q s = (.unfinished, opening) ∧
        m.runFor k s = (.unfinished, before) ∧ m.runFor (k + 1) s = (.unfinished, after) ∧
        m.instrAt? before.pc = some i ∧
        StaysInFrame i (opening.locals.length + 1) count
          (fun j => ∀ l < k, InFrameOf (framed n c) q count l →
            (framed n c)[l]? ≠ some (.setLocal j)) before after := by
  obtain ⟨hlocals, hfp⟩ := (hc.keepsFrame m).restores hc hcode hpc hrun
  refine ⟨hfp, hlocals, fun k hpos hk => hc.inFrameOf hpos hk, ?_⟩
  intro q count k i hin hi
  exact exists_staysInFrame (hc.frame n).isStraight hcode hpc hrun hin hi

end Machine

/-- Stores a value in a slot, and then opens a frame and does the same there. -/
def storeTwice : List Instr :=
  [.literal 5, .setLocal 0] ++ framed 2 [.getLocal 0, .print, .literal 9, .setLocal 0] ++
    [.getLocal 0, .print]

theorem storeTwice_balanced : Balanced storeTwice := by
  refine .append (.append ?_ (.frame 2 ?_)) ?_
  · exact .append (.single rfl) (.single rfl)
  · exact .append (.single rfl) (.append (.single rfl) (.append (.single rfl) (.single rfl)))
  · exact .append (.single rfl) (.single rfl)

/-- A machine with `storeTwice` in a frame, behind its first instruction. -/
def storeTwiceMachine : Machine :=
  .unlimited (.halt :: (framed 1 storeTwice ++ [.halt])) []

/-- The frame pointer may point anywhere before the frame is opened. The slot of the inner frame
reads zero although the one of the outer frame has a value, which is there afterwards. -/
theorem storeTwice_restores_caller :
    let s : State := { pc := 1, fp := -3, stack := [4], locals := [7, 8] }
    Balanced storeTwice ∧ StandsAt storeTwiceMachine.code 1 (framed 1 storeTwice) ∧ s.pc = 1 ∧
    ∃ t, storeTwiceMachine.runFor (framed 1 storeTwice).length s = (.unfinished, t) ∧
      t.output = [0, 5] ∧ t.fp = -3 ∧ t.locals = [7, 8] ∧
      ∃ before after, storeTwiceMachine.runFor 4 s = (.unfinished, before) ∧
        storeTwiceMachine.runFor 5 s = (.unfinished, after) ∧
        before.locals = [7, 8, -3, 5, 3, 0, 0] ∧ after.stack = 0 :: before.stack := by
  intro s
  have hcode : StandsAt storeTwiceMachine.code 1 (framed 1 storeTwice) :=
    ⟨[.halt], [.halt], rfl, rfl⟩
  have hrun : storeTwiceMachine.runFor (framed 1 storeTwice).length s =
      (.unfinished, { s with pc := 13, steps := 12, output := [0, 5], printed := [0, 5] }) := by
    decide +kernel +revert
  obtain ⟨hfp, hlocals, -, hinside⟩ :=
    Machine.frame_restores_caller storeTwice_balanced hcode rfl hrun
  obtain ⟨opening, before, after, hopening, hbefore, hafter, -, hstays⟩ := hinside 3 2 4 _
    ⟨[.enter 1, .literal 5, .setLocal 0], [], _, rfl, .nil, rfl, rfl⟩ rfl
  -- a position in the inner frame comes after its opening
  have hread : after.stack = 0 :: before.stack := by
    refine hstays.read 0 rfl ?_
    rintro l hl ⟨pre, mid, post, -, -, -, rfl⟩
    omega
  obtain rfl : before = (storeTwiceMachine.runFor 4 s).2 := (congrArg Prod.snd hbefore).symm
  exact ⟨storeTwice_balanced, hcode, rfl, _, hrun, rfl, hfp, hlocals, _, after, hbefore, hafter,
    rfl, hread⟩

end WhileLang
