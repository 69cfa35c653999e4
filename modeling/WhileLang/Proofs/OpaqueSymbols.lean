import WhileLang.Proofs.RoundTrip

/-!
# Residual programs with opaque symbols

A symbol of a term is read from the variable of the same name. So the residual program of a chain
prints the values that the chain has in the store in which the program is started, as long as it
does not overwrite a symbol. The only variables that it assigns are its temporaries. Their names are
made of a stem and a position, without regard to the symbols, so a symbol may be named like one, and
then it is lost.

* `Term.eval`: the value of a term in a store.
* `Term.denote_foldl_print`: what a chain denotes if its values are defined.
* `Term.residual_prints_values`: the residual program prints the values, if no temporary is named
  like a symbol.
* `Term.captured_symbol`: it may print another value if one is.
-/

namespace WhileLang

namespace Term

/-- The value of a term in a store that has the symbols in it. There is none if an argument is read
that is not there, and effects have none. -/
def eval (args : List Int) (σ : Store) : Term → Option Int
  | num n => some (Word.wrap n)
  | symbol s => some (σ s)
  | bin op l r => (l.eval args σ).bind fun a => (r.eval args σ).map (op.eval a)
  | arg i => (i.eval args σ).bind (argument? args)
  | silent | print _ _ => none

variable {args : List Int} {σ : Store} {ρ : Reading}

/-- A term denotes its value under a reading that has its symbols from the store. -/
theorem denote_of_eval (hargs : ρ.argument = argument? args) {t : Term} {n : Int}
    (hsymbols : ∀ s ∈ t.symbols, ρ.symbol s = some (σ s)) (h : t.eval args σ = some n) :
    t.reduced.denote ρ = some (.value n) := by
  induction t generalizing n with
  | num k => exact congrArg (Option.map Meaning.value) h
  | symbol s =>
      obtain rfl := Option.some.inj h
      show (ρ.symbol s).map Meaning.value = _
      rw [hsymbols s (List.mem_singleton.2 rfl)]
      rfl
  | bin op l r ihl ihr =>
      obtain ⟨a, ha, h⟩ := Option.bind_eq_some_iff.1 h
      obtain ⟨b, hb, rfl⟩ := Option.map_eq_some_iff.1 h
      have hl := ihl (fun s hs => hsymbols s (List.mem_append_left _ hs)) ha
      have hr := ihr (fun s hs => hsymbols s (List.mem_append_right _ hs)) hb
      rw [reduced, denote, hl, hr]
      rfl
  | arg i ih =>
      obtain ⟨a, ha, h⟩ := Option.bind_eq_some_iff.1 h
      rw [reduced, denote, ih hsymbols ha]
      show (ρ.argument a).map Meaning.value = _
      rw [hargs, h]
      rfl
  | silent | print e v => cases h

/-- A chain whose values are defined denotes them, after what was printed before. -/
theorem denote_foldl_print (hargs : ρ.argument = argument? args) {vs : List Term}
    {ns out : List Int} {e : Term}
    (hsymbols : ∀ v ∈ vs, ∀ s ∈ v.symbols, ρ.symbol s = some (σ s))
    (hns : List.Forall₂ (fun v n => v.eval args σ = some n) vs ns)
    (he : e.reduced.denote ρ = some (.printed out)) :
    (vs.foldl print e).reduced.denote ρ = some (.printed (out ++ ns)) := by
  induction hns generalizing e out with
  | nil => simpa using he
  | @cons v n vs ns hv _ ih =>
      obtain ⟨hhead, hrest⟩ := List.forall_mem_cons.1 hsymbols
      have hnext : (print e v).reduced.denote ρ = some (.printed (out ++ [n])) := by
        rw [reduced, denote, he, denote_of_eval hargs hhead hv]
        rfl
      simpa using ih hrest hnext

/-- **The residual program of a chain prints its values**, whatever is in the store, if no temporary
is named like a symbol of the chain. Symbols have the values that the store gives them in the
beginning, and the values of the chain are to be defined for the arguments at hand. -/
theorem residual_prints_values {vs : List Term} {ns : List Int} {options : ResidualOptions}
    (hns : List.Forall₂ (fun v n => v.eval args σ = some n) vs ns)
    (hfresh : ∀ i s, temporary? options (ofPrints vs).flatten i = some s →
      s ∉ (ofPrints vs).symbols) :
    ∃ ss, (residual options (ofPrints vs).flatten).result = .ok ss ∧
      ∃ n τ, Execution.runFor args n ⟨ss, σ, []⟩ = (.finished, ⟨[], τ, ns⟩) := by
  -- the reading knows the symbols of the chain and no others, so that it knows no temporary
  let ρ : Reading :=
    ⟨fun s => if s ∈ (ofPrints vs).symbols then some (σ s) else none, argument? args⟩
  have hsymbols : ∀ v ∈ vs, ∀ s ∈ v.symbols, ρ.symbol s = some (σ s) := by
    intro v hv s hs
    refine if_pos ?_
    rw [symbols_ofPrints]
    exact List.mem_flatMap.2 ⟨v, hv, hs⟩
  have hstart : silent.reduced.denote ρ = some (.printed []) := rfl
  have hdenote : (ofPrints vs).reduced.denote ρ = some (.printed ns) := by
    simpa [ofPrints] using denote_foldl_print rfl hsymbols hns hstart
  obtain ⟨ss, hss⟩ := (ofPrints vs).residual_ok options
  have hstore : ∀ {s v}, ρ.symbol s = some v → σ s = v := fun hs =>
    Option.some.inj (Option.ite_none_right_eq_some.1 hs).2
  obtain ⟨τ, hperform⟩ :=
    residual_perform hss rfl (fun i s hs => if_neg (hfresh i s hs)) hstore hdenote
  obtain ⟨n, hn⟩ := Block.runFor_of_perform hperform
  exact ⟨ss, hss, n, τ, hn⟩

/-- The square of a symbol, and the symbol again. -/
def squareThenSymbol : List Term :=
  [bin .mul (symbol "x") (symbol "x"), symbol "x"]

/-- With the symbol at seven, they are 49 and 7. -/
theorem squareThenSymbol_printed :
    List.Forall₂ (fun v n => v.eval [] (fun _ => 7) = some n) squareThenSymbol [49, 7] ∧
    ∃ ss, (residual {} (ofPrints squareThenSymbol).flatten).result = .ok ss ∧
      ∃ n τ, Execution.runFor [] n ⟨ss, fun _ => 7, []⟩ = (.finished, ⟨[], τ, [49, 7]⟩) := by
  have hns : List.Forall₂ (fun v n => v.eval [] (fun _ => 7) = some n) squareThenSymbol [49, 7] :=
    .cons rfl (.cons rfl .nil)
  refine ⟨hns, residual_prints_values hns ?_⟩
  intro i s hs hmem
  have hi := temporary?_lt (ofPrints squareThenSymbol).flatten_wellFormed hs
  have hnone : ∀ i < (ofPrints squareThenSymbol).flatten.length,
      ∀ s ∈ (ofPrints squareThenSymbol).symbols,
        temporary? {} (ofPrints squareThenSymbol).flatten i ≠ some s := by decide
  exact hnone i hi s hmem hs

/-- The double of a number, which is shared, and a symbol that is named like its temporary. -/
def doubleThenSymbol : List Term :=
  [bin .add (num 1) (num 1), symbol "t1"]

/-- **A temporary may capture a symbol**: the symbol is five and the temporary one, and it is one
that is printed in the end. -/
theorem captured_symbol :
    List.Forall₂ (fun v n => v.eval [] (fun _ => 5) = some n) doubleThenSymbol [2, 5] ∧
    temporary? {} (ofPrints doubleThenSymbol).flatten 1 = some "t1" ∧
    ∃ ss, (residual {} (ofPrints doubleThenSymbol).flatten).result = .ok ss ∧
      ∃ n τ, Execution.runFor [] n ⟨ss, fun _ => 5, []⟩ = (.finished, ⟨[], τ, [2, 1]⟩) :=
  ⟨.cons rfl (.cons rfl .nil), by decide, _, rfl, 4, _, rfl⟩

end Term

end WhileLang
