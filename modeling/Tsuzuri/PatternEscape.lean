import Tsuzuri.PatternMatrix

/-!
# Values that escape a pattern matrix

A search that ends in a column vector no row covers leaves a derivation (`Escapes`), and the patterns it collected
denote values that no row matches (`Escapes.uncovered`).
-/

namespace PatternMatrix

open List

variable {C V T : Type} [DecidableEq C]

def Functional (Built : C → List V → V → Prop) : Prop :=
  ∀ c c' us vs v, Built c us v → Built c' vs v → c = c' ∧ us = vs

def AvoidsHeads (Built : C → List V → V → Prop) (rows : List (Row C)) (v : V) : Prop :=
  ∀ c arguments tail, .ctor c arguments :: tail ∈ rows → ∀ vs, ¬ Built c vs v

/-- `Escapes rows n ws`: a search for a vector of `n` columns that no row
covers ended with the patterns `ws`. -/
inductive Escapes (arity : C → Nat) (Splits : List (Row C) → C → Prop)
    (Heads : List (Row C) → Pat C → Prop) : List (Row C) → Nat → List (Pat C) → Prop
  | done {rows : List (Row C)} (h : ∀ row ∈ rows, row.all Pat.isWild = false) : Escapes arity Splits Heads rows 0 []
  | split {rows : List (Row C)} {n : Nat} {c : C} {arguments ws : List (Pat C)}
      (hc : Splits rows c) (hlen : arguments.length = arity c)
      (h : Escapes arity Splits Heads (specialize c (arity c) rows) (arity c + n) (arguments ++ ws)) :
      Escapes arity Splits Heads rows (n + 1) (.ctor c arguments :: ws)
  | head {rows : List (Row C)} {n : Nat} {w : Pat C} {ws : List (Pat C)} (hw : Heads rows w)
      (h : Escapes arity Splits Heads (defaults rows) n ws) :
      Escapes arity Splits Heads rows (n + 1) (w :: ws)

section Rows

variable {Built : C → List V → V → Prop} {rows : List (Row C)}

theorem covers_specialize (hunique : Functional Built) {c : C} {us rest : List V} {v : V}
    (hv : Built c us v) (h : Covers Built rows (v :: rest)) :
    Covers Built (specialize c us.length rows) (us ++ rest) := by
  obtain ⟨row, hrow, hm⟩ := h
  match row with
  | [] => simp [MatchesAll] at hm
  | .wild :: tail =>
    refine ⟨_, mem_filterMap.mpr ⟨_, hrow, rfl⟩, ?_⟩
    rw [matchesAll_append (by simp)]
    exact ⟨matchesAll_wilds us, (matchesAll_cons.mp hm).2⟩
  | .ctor c' arguments :: tail =>
    obtain ⟨hhead, htail⟩ := matchesAll_cons.mp hm
    rw [Matches] at hhead
    obtain ⟨vs, hvs, harguments⟩ := hhead
    obtain ⟨rfl, rfl⟩ := hunique _ _ _ _ _ hvs hv
    refine ⟨arguments ++ tail, mem_filterMap.mpr ⟨_, hrow, by simp [specializeRow]⟩, ?_⟩
    rw [matchesAll_append harguments.length_eq]
    exact ⟨harguments, htail⟩

omit [DecidableEq C] in
theorem covers_defaults {v : V} {rest : List V} (hv : AvoidsHeads Built rows v)
    (h : Covers Built rows (v :: rest)) : Covers Built (defaults rows) rest := by
  obtain ⟨row, hrow, hm⟩ := h
  match row with
  | [] => simp [MatchesAll] at hm
  | .wild :: tail =>
    exact ⟨tail, mem_filterMap.mpr ⟨_, hrow, rfl⟩, (matchesAll_cons.mp hm).2⟩
  | .ctor c arguments :: tail =>
    obtain ⟨hhead, -⟩ := matchesAll_cons.mp hm
    rw [Matches] at hhead
    obtain ⟨vs, hvs, -⟩ := hhead
    exact absurd hvs (hv c arguments tail hrow vs)

end Rows

section Derivations

variable {arity : C → Nat} {Splits : List (Row C) → C → Prop}
  {Heads : List (Row C) → Pat C → Prop} {rows : List (Row C)} {n : Nat} {ws : List (Pat C)}

theorem Escapes.length_eq (h : Escapes arity Splits Heads rows n ws) : ws.length = n := by
  induction h with
  | done => rfl
  | split _ hlen _ ih =>
    rw [length_append, hlen] at ih
    simpa using ih
  | head _ _ ih => simp [ih]

variable {fields : C → T → Option (List T)}

/-- The constructors of a split column belong to its type, with as many arguments as `arity` says. -/
def SplitsTyped (fields : C → T → Option (List T)) (arity : C → Nat) (Splits : List (Row C) → C → Prop) : Prop :=
  ∀ rows c τ τs, Splits rows c → RowsTyped fields rows (τ :: τs) → ∃ σs, fields c τ = some σs ∧ σs.length = arity c

def HeadsTyped (fields : C → T → Option (List T)) (Heads : List (Row C) → Pat C → Prop) : Prop :=
  ∀ rows w τ τs, Heads rows w → RowsTyped fields rows (τ :: τs) → w.Typed fields τ

omit [DecidableEq C] in
theorem typedAll_split : ∀ {ps qs : List (Pat C)} {σs τs : List T}, ps.length = σs.length →
    TypedAll fields (ps ++ qs) (σs ++ τs) → TypedAll fields ps σs ∧ TypedAll fields qs τs
  | [], _, [], _, _, h => ⟨typedAll_nil, h⟩
  | [], _, _ :: _, _, h, _ => by simp at h
  | _ :: _, _, [], _, h, _ => by simp at h
  | p :: ps, qs, σ :: σs, τs, hlen, h => by
    obtain ⟨hp, hrest⟩ := typedAll_cons.mp h
    obtain ⟨hps, hqs⟩ := typedAll_split (by simpa using hlen) hrest
    exact ⟨typedAll_cons.mpr ⟨hp, hps⟩, hqs⟩

theorem Escapes.typed (hsplits : SplitsTyped fields arity Splits)
    (hheads : HeadsTyped fields Heads) (h : Escapes arity Splits Heads rows n ws) :
    ∀ {τs : List T}, τs.length = n → RowsTyped fields rows τs → TypedAll fields ws τs := by
  induction h with
  | done =>
    intro τs hlen _
    obtain rfl := length_eq_zero_iff.mp hlen
    exact typedAll_nil
  | @split rows n c arguments ws hc harity _ ih =>
    intro τs hlen hrows
    obtain ⟨τ, τs, rfl⟩ := exists_cons_of_length_eq_add_one hlen
    obtain ⟨σs, hσ, hσlen⟩ := hsplits rows c τ τs hc hrows
    rw [← hσlen] at ih
    obtain ⟨harguments, hws⟩ := typedAll_split (harity.trans hσlen.symm)
      (ih (by simpa using hlen) (specialize_typed hσ hrows))
    rw [typedAll_cons, Pat.Typed]
    exact ⟨⟨σs, hσ, harguments⟩, hws⟩
  | @head rows n w ws hw _ ih =>
    intro τs hlen hrows
    obtain ⟨τ, τs, rfl⟩ := exists_cons_of_length_eq_add_one hlen
    exact typedAll_cons.mpr ⟨hheads rows w τ τs hw hrows, ih (by simpa using hlen) (defaults_typed hrows)⟩

variable {Built : C → List V → V → Prop} {HasType : V → T → Prop} {Good : T → Prop}

def SplitsApply (fields : C → T → Option (List T)) (Built : C → List V → V → Prop)
    (HasType : V → T → Prop) (Splits : List (Row C) → C → Prop) : Prop :=
  ∀ rows c τ τs σs vs, Splits rows c → RowsTyped fields rows (τ :: τs) → fields c τ = some σs →
    List.Forall₂ HasType vs σs → ∃ v, Built c vs v ∧ HasType v τ

/-- The pattern of a column that is not split denotes a value that no head of the rows builds. -/
def HeadsAvoid (fields : C → T → Option (List T)) (Built : C → List V → V → Prop)
    (HasType : V → T → Prop) (Good : T → Prop) (Heads : List (Row C) → Pat C → Prop) : Prop :=
  ∀ rows w τ τs, Heads rows w → Good τ → RowsTyped fields rows (τ :: τs) →
    ∃ v, HasType v τ ∧ Matches Built w v ∧ AvoidsHeads Built rows v

omit [DecidableEq C] in
theorem not_covers_of_width_zero (h : ∀ row ∈ rows, row.all Pat.isWild = false) : ¬ Covers Built rows [] := by
  rintro ⟨row, hrow, hm⟩
  obtain rfl := length_eq_zero_iff.mp hm.length_eq
  simpa using h [] hrow

theorem Escapes.uncovered (hunique : Functional Built) (hsplits : SplitsTyped fields arity Splits)
    (hgood : ∀ c τ σs, Good τ → fields c τ = some σs → ∀ σ ∈ σs, Good σ)
    (happly : SplitsApply fields Built HasType Splits) (havoid : HeadsAvoid fields Built HasType Good Heads)
    (h : Escapes arity Splits Heads rows n ws) :
    ∀ {τs : List T}, τs.length = n → (∀ τ ∈ τs, Good τ) → RowsTyped fields rows τs →
      ∃ vs, List.Forall₂ HasType vs τs ∧ MatchesAll Built ws vs ∧ ¬ Covers Built rows vs := by
  induction h with
  | done h =>
    intro τs hlen _ _
    obtain rfl := length_eq_zero_iff.mp hlen
    exact ⟨[], .nil, matchesAll_nil, not_covers_of_width_zero h⟩
  | @split rows n c arguments ws hc harity _ ih =>
    intro τs hlen hτs hrows
    obtain ⟨τ, τs, rfl⟩ := exists_cons_of_length_eq_add_one hlen
    obtain ⟨hτ, hτs⟩ := forall_mem_cons.mp hτs
    obtain ⟨σs, hσ, hσlen⟩ := hsplits rows c τ τs hc hrows
    rw [← hσlen] at ih harity
    obtain ⟨vs, htyped, hm, hcovers⟩ := ih (show (σs ++ τs).length = σs.length + n by simpa using hlen)
      (forall_mem_append.mpr ⟨hgood c τ σs hτ hσ, hτs⟩) (specialize_typed hσ hrows)
    have hus := List.forall₂_take_append vs σs τs htyped
    have hrest := List.forall₂_drop_append vs σs τs htyped
    rw [← take_append_drop σs.length vs] at hm hcovers
    generalize vs.take σs.length = us at hus hm hcovers
    generalize vs.drop σs.length = rest at hrest hm hcovers
    obtain ⟨v, hbuilt, hv⟩ := happly rows c τ τs σs us hc hrows hσ hus
    rw [matchesAll_append (harity.trans hus.length_eq.symm)] at hm
    refine ⟨v :: rest, .cons hv hrest, ?_, fun hcov => hcovers ?_⟩
    · rw [matchesAll_cons, Matches]
      exact ⟨⟨us, hbuilt, hm.1⟩, hm.2⟩
    · rw [← hus.length_eq]
      exact covers_specialize hunique hbuilt hcov
  | @head rows n w ws hw _ ih =>
    intro τs hlen hτs hrows
    obtain ⟨τ, τs, rfl⟩ := exists_cons_of_length_eq_add_one hlen
    obtain ⟨hτ, hτs⟩ := forall_mem_cons.mp hτs
    obtain ⟨v, hv, hmatch, havoids⟩ := havoid rows w τ τs hw hτ hrows
    obtain ⟨vs, htyped, hm, hcovers⟩ := ih (by simpa using hlen) hτs (defaults_typed hrows)
    exact ⟨v :: vs, .cons hv htyped, matchesAll_cons.mpr ⟨hmatch, hm⟩,
      fun hcov => hcovers (covers_defaults havoids hcov)⟩

end Derivations

end PatternMatrix
