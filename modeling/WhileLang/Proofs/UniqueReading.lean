import Mathlib.Data.List.Forall2
import WhileLang.Proofs.ExpressionText

/-!
# Source text can be read in one way only

Two programs with the same source text are the same program, if their variables are identifiers. It
does not matter how far a level is indented, or whether there is any indentation at all, and names
may be keywords.

A line begins with blanks and then with a word, and what it says can be told from that word and from
what follows it. An assignment to a variable that is called like a keyword goes on with an equality
sign, which no expression begins with. The blocks of a program can then be told from what its lines
say: a block ends at the first line behind a statement that begins none.

* `SourceLine`: what a line says; `SourceLine.text_inj`: it can be told from the line.
* `Stmt.Legible`, `Block.Legible`: no node is misplaced, and all names are identifiers.
* `Stmt.outline`, `Block.outline`: what the lines of a program say; `Block.outline_inj`: no other
  program has lines that say the same.
* `Written`: a line of text says something; `Block.lines_written`: the lines of a program do.
* `Block.source_unambiguous`: source text can be read in one way only.
-/

namespace WhileLang

/-! ## Lines -/

/-- What stands behind a line is nothing, or another line. -/
def LineEnd (r : List Char) : Prop :=
  ∀ c ∈ r.head?, c = '\n'

theorem LineEnd.delimited {r : List Char} (h : LineEnd r) : Delimited r := by
  intro c hc
  simp [h c hc]

/-- What a line of source text says. -/
inductive SourceLine where
  /-- A variable is given a value. -/
  | assign (target : String) (value : Expr)
  /-- A value is printed. -/
  | print (value : Expr)
  /-- A block begins that is done if the test is not zero. -/
  | cond (test : Expr)
  /-- A block begins that is done if the test was zero. -/
  | orelse
  /-- A block begins that is done as long as the test is not zero. -/
  | loop (test : Expr)
  /-- A statement with blocks is finished. -/
  | finish

namespace SourceLine

/-- The names in the line are identifiers, and no node is misplaced. -/
def Legible : SourceLine → Prop
  | assign x e => isIdentifier x = true ∧ e.Legible
  | print e => e.Legible
  | cond t => t.Legible
  | orelse => True
  | loop t => t.Legible
  | finish => True

/-- The word at the beginning of a line. -/
def lead : SourceLine → List Char
  | assign x _ => x.toList
  | print _ => ['p', 'r', 'i', 'n', 't']
  | cond _ => ['i', 'f']
  | orelse => ['e', 'l', 's', 'e']
  | loop _ => ['w', 'h', 'i', 'l', 'e']
  | finish => ['e', 'n', 'd']

/-- What follows the first word of a line. -/
def rest : SourceLine → List Char
  | assign _ e => [' ', '=', ' '] ++ e.text ++ [';']
  | print e => [' '] ++ e.text ++ [';']
  | cond t => [' '] ++ t.text ++ [' ', 't', 'h', 'e', 'n']
  | orelse => []
  | loop t => [' '] ++ t.text ++ [' ', 'd', 'o']
  | finish => []

/-- The characters of a line. -/
def text (l : SourceLine) : List Char :=
  l.lead ++ l.rest

theorem lead_word {l : SourceLine} (hl : l.Legible) : ∀ c ∈ l.lead, c ∉ wordBounds := by
  cases l with
  | assign x e => exact word_of_isIdentifier hl.1
  | _ => simp [lead, wordBounds]

theorem lead_ne_nil {l : SourceLine} (hl : l.Legible) : l.lead ≠ [] := by
  cases l with
  | assign x e =>
      obtain ⟨c, rest, hc, -⟩ := head_of_isIdentifier hl.1
      simp [lead, hc]
  | _ => simp [lead]

theorem delimited_rest (l : SourceLine) {r : List Char} (hr : Delimited r) :
    Delimited (l.rest ++ r) := by
  cases l with
  | orelse | finish => exact hr
  | _ => simp [rest]

/-- The ways in which a line with an expression ends. -/
def endings : List (List Char) :=
  [[';'], [' ', 't', 'h', 'e', 'n'], [' ', 'd', 'o']]

theorem ended_of_mem_endings {t : List Char} (ht : t ∈ endings) (r : List Char) :
    Ended (t ++ r) := by
  simp only [endings, List.mem_cons, List.not_mem_nil, or_false] at ht
  rcases ht with rfl | rfl | rfl
  all_goals
    refine ⟨by simp, ?_⟩
    intro op s
    cases op <;> simp [BinOp.symbol]

/-- The expression in a line can be told from a text that begins with the line. -/
theorem value_inj {e f : Expr} {o t r s : List Char} (he : e.Legible) (hf : f.Legible)
    (ht : t ∈ endings) (h : o ++ e.text ++ t ++ r = o ++ f.text ++ t ++ s) : e = f ∧ r = s := by
  simp only [List.append_assoc, List.append_cancel_left_eq] at h
  obtain ⟨rfl, hrest⟩ := (Expr.readable he).2 f _ _ hf (ended_of_mem_endings ht r)
    (ended_of_mem_endings ht s) h
  exact ⟨rfl, List.append_cancel_left hrest⟩

/-- A line that goes on like an assignment is one. -/
theorem eq_assign_of_rest {x : String} {e : Expr} {m : SourceLine} {r s : List Char}
    (hm : m.Legible) (hs : LineEnd s) (h : (assign x e).rest ++ r = m.rest ++ s) :
    ∃ y f, m = assign y f := by
  have hvalue : ∀ {f : Expr} {t : List Char}, f.Legible → t ∈ endings →
      (assign x e).rest ++ r ≠ [' '] ++ f.text ++ t ++ s := by
    intro f t hf ht h
    rw [List.append_assoc] at h
    have hsign : '=' ∈ (f.text ++ (t ++ s)).head? :=
      (congrArg List.head? (List.cons.inj h).2).symm
    exact f.head_text hf (ended_of_mem_endings ht s).1 '=' hsign rfl
  cases m with
  | assign y f => exact ⟨y, f, rfl⟩
  | print f | cond f | loop f => exact absurd h (hvalue hm (by simp [endings]))
  | orelse | finish =>
      have hblank : ' ' ∈ s.head? := (congrArg List.head? h).symm
      cases hs ' ' hblank

/-- What a line says can be told from a text that begins with it. -/
theorem text_inj {l m : SourceLine} {r s : List Char} (hl : l.Legible) (hm : m.Legible)
    (hr : LineEnd r) (hs : LineEnd s) (h : l.text ++ r = m.text ++ s) : l = m ∧ r = s := by
  rw [text, text, List.append_assoc, List.append_assoc] at h
  obtain ⟨hlead, hrest⟩ := word_append_inj (lead_word hl) (lead_word hm)
    (l.delimited_rest hr.delimited).head_mem_wordBounds
    (m.delimited_rest hs.delimited).head_mem_wordBounds h
  have hassign : (∃ x e, l = assign x e) ↔ ∃ y f, m = assign y f := by
    constructor
    · rintro ⟨x, e, rfl⟩
      exact eq_assign_of_rest hm hs hrest
    · rintro ⟨y, f, rfl⟩
      exact eq_assign_of_rest hl hr hrest.symm
  cases l with
  | assign x e =>
      obtain ⟨y, f, rfl⟩ := hassign.1 ⟨x, e, rfl⟩
      obtain rfl : x = y := String.toList_inj.1 hlead
      obtain ⟨rfl, rfl⟩ := value_inj hl.2 hm.2 (by simp [endings]) hrest
      exact ⟨rfl, rfl⟩
  -- the first word of any other line is its keyword
  | print e =>
      cases m with
      | assign y f => simp at hassign
      | print f =>
          obtain ⟨rfl, rfl⟩ := value_inj hl hm (by simp [endings]) hrest
          exact ⟨rfl, rfl⟩
      | _ => simp [lead] at hlead
  | cond t =>
      cases m with
      | assign y f => simp at hassign
      | cond u =>
          obtain ⟨rfl, rfl⟩ := value_inj hl hm (by simp [endings]) hrest
          exact ⟨rfl, rfl⟩
      | _ => simp [lead] at hlead
  | loop t =>
      cases m with
      | assign y f => simp at hassign
      | loop u =>
          obtain ⟨rfl, rfl⟩ := value_inj hl hm (by simp [endings]) hrest
          exact ⟨rfl, rfl⟩
      | _ => simp [lead] at hlead
  | orelse =>
      cases m with
      | assign y f => simp at hassign
      | orelse => exact ⟨rfl, hrest⟩
      | _ => simp [lead] at hlead
  | finish =>
      cases m with
      | assign y f => simp at hassign
      | finish => exact ⟨rfl, hrest⟩
      | _ => simp [lead] at hlead

end SourceLine

/-! ## Programs -/

mutual

/-- No node inside the statement is misplaced, and its variables are identifiers. -/
def Stmt.Legible : Stmt → Prop
  | .assign x e => isIdentifier x = true ∧ e.Legible
  | .print e => e.Legible
  | .cond t b o => t.Legible ∧ Block.Legible b ∧ Block.Legible o
  | .loop t b => t.Legible ∧ Block.Legible b
  | .stray _ => False

/-- No node inside the block is misplaced, and its variables are identifiers. -/
def Block.Legible : Block → Prop
  | [] => True
  | s :: rest => s.Legible ∧ Block.Legible rest

end

mutual

/-- What the lines of a statement say. -/
def Stmt.outline : Stmt → List SourceLine
  | .assign x e => [.assign x e]
  | .print e => [.print e]
  | .cond t b o =>
    .cond t :: Block.outline b ++ (if o.isEmpty then [] else .orelse :: Block.outline o) ++
      [.finish]
  | .loop t b => .loop t :: Block.outline b ++ [.finish]
  | .stray _ => []

/-- What the lines of a block say. -/
def Block.outline : Block → List SourceLine
  | [] => []
  | s :: rest => s.outline ++ Block.outline rest

end

/-- What stands behind the lines of a block: nothing, or a line that ends the block. -/
def BlockEnd (r : List SourceLine) : Prop :=
  ∀ l ∈ r.head?, l = .orelse ∨ l = .finish

/-- The lines of a statement do not begin with one that ends a block. -/
theorem Stmt.not_blockEnd_outline {s : Stmt} (hs : s.Legible) (r : List SourceLine) :
    ¬ BlockEnd (s.outline ++ r) := by
  cases s with
  | stray d => exact hs.elim
  | _ => simp [BlockEnd, Stmt.outline]

/-- The lines of the block that is done if the test was zero, which are left out if it is empty. -/
def Block.alternative (o : Block) : List SourceLine :=
  if o.isEmpty then [] else .orelse :: o.outline

theorem blockEnd_nil : BlockEnd [] := by
  simp [BlockEnd]

theorem blockEnd_finish (r : List SourceLine) : BlockEnd (.finish :: r) := by
  simp [BlockEnd]

theorem blockEnd_alternative (o : Block) (r : List SourceLine) :
    BlockEnd (o.alternative ++ .finish :: r) := by
  unfold Block.alternative
  split <;> simp [BlockEnd]

/-- If a block can be told from its lines, so can the block that is done if a test was zero. -/
theorem Block.alternative_inj {o p : Block} {r u : List SourceLine}
    (ih : o.outline ++ .finish :: r = p.outline ++ .finish :: u → o = p ∧ r = u)
    (h : o.alternative ++ .finish :: r = p.alternative ++ .finish :: u) : o = p ∧ r = u := by
  unfold Block.alternative at h
  split at h
  · next ho =>
      split at h
      · next hp =>
          rw [List.isEmpty_iff] at ho hp
          subst ho hp
          exact ⟨rfl, (List.cons.inj h).2⟩
      · cases (List.cons.inj h).1
  · split at h
    · cases (List.cons.inj h).1
    · exact ih (List.cons.inj h).2

mutual

theorem Stmt.outline_inj : ∀ (s t : Stmt) (r u : List SourceLine), s.Legible → t.Legible →
    s.outline ++ r = t.outline ++ u → s = t ∧ r = u
  | .assign x e, t, r, u, hs, ht, h => by
      cases t with
      | assign y f => simpa [Stmt.outline] using h
      | stray d => exact ht.elim
      | _ => simp [Stmt.outline] at h
  | .print e, t, r, u, hs, ht, h => by
      cases t with
      | print f => simpa [Stmt.outline] using h
      | stray d => exact ht.elim
      | _ => simp [Stmt.outline] at h
  | .cond e b o, t, r, u, hs, ht, h => by
      cases t with
      | cond f c p =>
          rw [Stmt.outline, Stmt.outline, ← Block.alternative, ← Block.alternative] at h
          simp only [List.cons_append, List.append_assoc, List.cons.injEq, SourceLine.cond.injEq,
            List.nil_append] at h
          obtain ⟨rfl, hbody⟩ := h
          obtain ⟨rfl, helse⟩ := Block.outline_inj b c _ _ hs.2.1 ht.2.1 (blockEnd_alternative o r)
            (blockEnd_alternative p u) hbody
          have ih := Block.outline_inj o p _ _ hs.2.2 ht.2.2 (blockEnd_finish r) (blockEnd_finish u)
          obtain ⟨rfl, rfl⟩ := Block.alternative_inj (by simpa using ih) helse
          exact ⟨rfl, rfl⟩
      | stray d => exact ht.elim
      | _ => simp [Stmt.outline] at h
  | .loop e b, t, r, u, hs, ht, h => by
      cases t with
      | loop f c =>
          simp only [Stmt.outline, List.cons_append, List.append_assoc, List.cons.injEq,
            SourceLine.loop.injEq, List.nil_append] at h
          obtain ⟨rfl, hbody⟩ := h
          obtain ⟨rfl, hrest⟩ := Block.outline_inj b c _ _ hs.2 ht.2 (blockEnd_finish r)
            (blockEnd_finish u) hbody
          exact ⟨rfl, (List.cons.inj hrest).2⟩
      | stray d => exact ht.elim
      | _ => simp [Stmt.outline] at h
  | .stray d, t, r, u, hs, ht, h => hs.elim

/-- The statements of a block can be told from lines that begin with those of the block. -/
theorem Block.outline_inj : ∀ (b c : Block) (r u : List SourceLine), b.Legible → c.Legible →
    BlockEnd r → BlockEnd u → b.outline ++ r = c.outline ++ u → b = c ∧ r = u
  | [], [], r, u, _, _, _, _, h => ⟨rfl, h⟩
  | [], t :: c, r, u, _, hc, hr, _, h => by
      rw [Block.outline, Block.outline, List.nil_append, List.append_assoc] at h
      rw [h] at hr
      exact absurd hr (t.not_blockEnd_outline hc.1 _)
  | s :: b, [], r, u, hb, _, _, hu, h => by
      rw [Block.outline, Block.outline, List.nil_append, List.append_assoc] at h
      rw [← h] at hu
      exact absurd hu (s.not_blockEnd_outline hb.1 _)
  | s :: b, t :: c, r, u, hb, hc, hr, hu, h => by
      rw [Block.outline, Block.outline, List.append_assoc, List.append_assoc] at h
      obtain ⟨rfl, hrest⟩ := Stmt.outline_inj s t _ _ hb.1 hc.1 h
      obtain ⟨rfl, rfl⟩ := Block.outline_inj b c r u hb.2 hc.2 hr hu hrest
      exact ⟨rfl, rfl⟩

end

/-! ## Text -/

/-- A line of text says something: it is that behind blanks of some level. -/
structure Written (indent : String) (l : SourceLine) (line : String) : Prop where
  legible : l.Legible
  exists_margin : ∃ k, line.toList = (margin indent k).toList ++ l.text

theorem written_orelse (indent : String) (k : Nat) :
    Written indent .orelse (margin indent k ++ "else") :=
  ⟨trivial, k, String.toList_append⟩

theorem written_finish (indent : String) (k : Nat) :
    Written indent .finish (margin indent k ++ "end") :=
  ⟨trivial, k, String.toList_append⟩

mutual

theorem Stmt.lines_written (indent : String) : ∀ (k : Nat) (s : Stmt), s.Legible →
    ∃ ls, s.lines indent k = .ok ls ∧ List.Forall₂ (Written indent) s.outline ls
  | k, .assign x e, hs => by
      refine ⟨_, by rw [Stmt.lines, Expr.source_eq hs.2]; rfl, .cons ⟨hs, k, ?_⟩ .nil⟩
      simp [SourceLine.text, SourceLine.lead, SourceLine.rest]
  | k, .print e, hs => by
      refine ⟨_, by rw [Stmt.lines, Expr.source_eq hs]; rfl, .cons ⟨hs, k, ?_⟩ .nil⟩
      simp [SourceLine.text, SourceLine.lead, SourceLine.rest]
  | k, .cond t b o, hs => by
      obtain ⟨body, hb, hbody⟩ := Block.lines_written indent (k + 1) b hs.2.1
      obtain ⟨orelse, ho, horelse⟩ := Block.lines_written indent (k + 1) o hs.2.2
      refine ⟨_, by rw [Stmt.lines, Expr.source_eq hs.1, hb, ho]; rfl, ?_⟩
      refine .cons ⟨hs.1, k, ?_⟩ ?_
      · simp [SourceLine.text, SourceLine.lead, SourceLine.rest]
      · refine List.rel_append (List.rel_append hbody ?_) (.cons (written_finish indent k) .nil)
        split
        · exact .nil
        · exact .cons (written_orelse indent k) horelse
  | k, .loop t b, hs => by
      obtain ⟨body, hb, hbody⟩ := Block.lines_written indent (k + 1) b hs.2
      refine ⟨_, by rw [Stmt.lines, Expr.source_eq hs.1, hb]; rfl, ?_⟩
      refine .cons ⟨hs.1, k, ?_⟩ (List.rel_append hbody (.cons (written_finish indent k) .nil))
      simp [SourceLine.text, SourceLine.lead, SourceLine.rest]
  | _, .stray d, hs => hs.elim

/-- The lines of a block, from what they say. -/
theorem Block.lines_written (indent : String) : ∀ (k : Nat) (b : Block), b.Legible →
    ∃ ls, Block.lines indent k b = .ok ls ∧ List.Forall₂ (Written indent) b.outline ls
  | _, [], _ => ⟨[], rfl, .nil⟩
  | k, s :: b, hb => by
      obtain ⟨first, hs, hfirst⟩ := Stmt.lines_written indent k s hb.1
      obtain ⟨others, ho, hothers⟩ := Block.lines_written indent k b hb.2
      exact ⟨first ++ others, by rw [Block.lines, hs, ho]; rfl, List.rel_append hfirst hothers⟩

end

theorem Block.source_written (indent : String) {b : Block} (hb : b.Legible) :
    ∃ ls, b.source indent = .ok ("\n".intercalate ls) ∧
      List.Forall₂ (Written indent) b.outline ls := by
  obtain ⟨ls, hls, hwritten⟩ := Block.lines_written indent 0 b hb
  exact ⟨ls, by rw [Block.source, hls]; rfl, hwritten⟩

section

variable {indent : String}

theorem blank_of_mem_margin (hindent : ∀ c ∈ indent.toList, c = ' ') (k : Nat) :
    ∀ c ∈ (margin indent k).toList, c = ' ' := by
  intro c hc
  rw [margin, String.toList_join, List.mem_flatMap] at hc
  obtain ⟨s, hs, hc⟩ := hc
  rw [List.eq_of_mem_replicate hs] at hc
  exact hindent c hc

/-- The blanks of a line end where what it says begins. -/
theorem SourceLine.head_text {l : SourceLine} (hl : l.Legible) (r : List Char) :
    ∀ c ∈ (l.text ++ r).head?, ¬ c = ' ' := by
  obtain ⟨d, lead, hlead⟩ := List.exists_cons_of_ne_nil (lead_ne_nil hl)
  have hd : d ∉ wordBounds := lead_word hl d (by simp [hlead])
  intro c hc
  obtain rfl : d = c := by simpa [text, hlead] using hc
  rintro rfl
  exact hd (by decide)

/-- What a line says can be told from a text that begins with it, whatever its blanks are. -/
theorem Written.inj (hindent : ∀ c ∈ indent.toList, c = ' ') {l m : SourceLine} {v w : String}
    {r s : List Char} (hl : Written indent l v) (hm : Written indent m w) (hr : LineEnd r)
    (hs : LineEnd s) (h : v.toList ++ r = w.toList ++ s) : l = m ∧ r = s := by
  obtain ⟨j, hj⟩ := hl.exists_margin
  obtain ⟨k, hk⟩ := hm.exists_margin
  rw [hj, hk, List.append_assoc, List.append_assoc] at h
  obtain ⟨-, htext⟩ := append_inj_of_class (blank_of_mem_margin hindent j)
    (blank_of_mem_margin hindent k) (SourceLine.head_text hl.legible r)
    (SourceLine.head_text hm.legible s) h
  exact SourceLine.text_inj hl.legible hm.legible hr hs htext

/-- The characters of the lines that follow a line. -/
def following (lines : List String) : List Char :=
  lines.flatMap fun line => '\n' :: line.toList

theorem lineEnd_following (lines : List String) : LineEnd (following lines) := by
  cases lines <;> simp [LineEnd, following]

theorem toList_intercalate_cons (line : String) (lines : List String) :
    ("\n".intercalate (line :: lines)).toList = line.toList ++ following lines := by
  rw [String.toList_intercalate]
  induction lines generalizing line with
  | nil => simp [following]
  | cons next lines ih =>
      rw [List.map_cons, List.map_cons, List.intercalate_cons_cons, ← List.map_cons, ih next]
      simp [following]

theorem following_inj (hindent : ∀ c ∈ indent.toList, c = ' ') {ls ms : List SourceLine}
    {v w : List String} (hl : List.Forall₂ (Written indent) ls v)
    (hm : List.Forall₂ (Written indent) ms w) (h : following v = following w) : ls = ms := by
  induction hl generalizing ms w with
  | nil =>
      cases hm with
      | nil => rfl
      | cons _ _ => cases h
  | cons hline _ ih =>
      cases hm with
      | nil => cases h
      | cons hmine hrest =>
          obtain ⟨rfl, h⟩ := hline.inj hindent hmine (lineEnd_following _) (lineEnd_following _)
            (List.cons.inj h).2
          rw [ih hrest h]

/-- A text with a line in it is not empty. -/
theorem intercalate_ne_empty {l : SourceLine} {line : String} (h : Written indent l line)
    (lines : List String) : "\n".intercalate (line :: lines) ≠ "" := by
  intro hempty
  obtain ⟨k, hk⟩ := h.exists_margin
  have hnil : line.toList ++ following lines = [] := by
    rw [← toList_intercalate_cons, hempty]
    rfl
  simp only [hk, SourceLine.text, List.append_eq_nil_iff] at hnil
  exact SourceLine.lead_ne_nil h.legible hnil.1.2.1

/-- What lines say can be told from the text that they make up. -/
theorem intercalate_inj (hindent : ∀ c ∈ indent.toList, c = ' ') {ls ms : List SourceLine}
    {v w : List String} (hl : List.Forall₂ (Written indent) ls v)
    (hm : List.Forall₂ (Written indent) ms w)
    (h : "\n".intercalate v = "\n".intercalate w) : ls = ms := by
  cases hl with
  | nil =>
      cases hm with
      | nil => rfl
      | cons hmine _ => exact absurd h.symm (intercalate_ne_empty hmine _)
  | cons hline hlines =>
      cases hm with
      | nil => exact absurd h (intercalate_ne_empty hline _)
      | cons hmine hothers =>
          have htext := congrArg String.toList h
          rw [toList_intercalate_cons, toList_intercalate_cons] at htext
          obtain ⟨rfl, hrest⟩ := hline.inj hindent hmine (lineEnd_following _)
            (lineEnd_following _) htext
          rw [following_inj hindent hlines hothers hrest]

end

/-- **Source text can be read in one way only.** Every program has a text if its nodes are in place
and its variables are identifiers, and no two such programs have the same text, whatever number of
blanks a level is indented by. The same is true of expressions. -/
theorem Block.source_unambiguous (indent : String) (hindent : ∀ c ∈ indent.toList, c = ' ') :
    (∀ b c : Block, b.Legible → c.Legible →
      (∃ text, b.source indent = .ok text) ∧ (b.source indent = c.source indent → b = c)) ∧
    ∀ d e : Expr, d.Legible → e.Legible →
      (∃ text, d.source = .ok text) ∧ (d.source = e.source → d = e) := by
  constructor
  · intro b c hb hc
    obtain ⟨v, hv, hbv⟩ := Block.source_written indent hb
    obtain ⟨w, hw, hcw⟩ := Block.source_written indent hc
    refine ⟨⟨_, hv⟩, ?_⟩
    intro h
    rw [hv, hw] at h
    have houtline : b.outline = c.outline := intercalate_inj hindent hbv hcw (Except.ok.inj h)
    exact (Block.outline_inj b c [] [] hb hc blockEnd_nil blockEnd_nil (by rw [houtline])).1
  · intro d e hd he
    refine ⟨⟨_, Expr.source_eq hd⟩, ?_⟩
    intro h
    rw [Expr.source_eq hd, Expr.source_eq he] at h
    have htext : d.text = e.text := String.ofList_inj.1 (Except.ok.inj h)
    exact ((Expr.readable hd).2 e [] [] he ended_nil ended_nil (by rw [htext])).1

/-- An alternative that belongs to the inner one of two tests; all names are keywords. -/
def innerElse : Block :=
  [.cond (.var "then") [.cond (.var "if") [.print (.num (-1))] [.assign "end" (.var "args")]] []]

/-- The same alternative, but it belongs to the outer test. -/
def outerElse : Block :=
  [.cond (.var "then") [.cond (.var "if") [.print (.num (-1))] []] [.assign "end" (.var "args")]]

/-- The difference of a difference and one. -/
def leftDifference : Expr :=
  .bin .sub (.bin .sub (.var "x") (.num (-1))) (.num 1)

/-- The difference of a variable and a difference. -/
def rightDifference : Expr :=
  .bin .sub (.var "x") (.bin .sub (.num (-1)) (.num 1))

/-- Which test an alternative belongs to can be told without any indentation, and which difference
is taken first without a rule of precedence. -/
theorem innerElse_read_apart :
    ((∃ text, innerElse.source "" = .ok text) ∧ innerElse.source "" ≠ outerElse.source "") ∧
      leftDifference.source ≠ rightDifference.source := by
  have hthen : isIdentifier "then" = true := by decide
  have hif : isIdentifier "if" = true := by decide
  have hend : isIdentifier "end" = true := by decide
  have hargs : isIdentifier "args" = true := by decide
  have hx : isIdentifier "x" = true := by decide
  have hinner : innerElse.Legible := by
    simp [innerElse, Block.Legible, Stmt.Legible, Expr.Legible, hthen, hif, hend, hargs]
  have houter : outerElse.Legible := by
    simp [outerElse, Block.Legible, Stmt.Legible, Expr.Legible, hthen, hif, hend, hargs]
  obtain ⟨hblocks, hexprs⟩ := Block.source_unambiguous "" (by simp)
  obtain ⟨htext, hinj⟩ := hblocks innerElse outerElse hinner houter
  refine ⟨⟨htext, ?_⟩, ?_⟩
  · intro h
    simpa [innerElse, outerElse] using hinj h
  · intro h
    have heq := (hexprs leftDifference rightDifference (by simp [leftDifference, Expr.Legible, hx])
      (by simp [rightDifference, Expr.Legible, hx])).2 h
    simp [leftDifference, rightDifference] at heq

end WhileLang
