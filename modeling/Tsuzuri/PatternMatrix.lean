import Mathlib.Data.List.Forall2

/-!
# Pattern matrices

Patterns over an arbitrary set of constructors, and the matrix operations of the usefulness search,
independent of any language.
-/

namespace PatternMatrix

variable {C V : Type}

inductive Pat (C : Type) where
  | wild
  | ctor (c : C) (arguments : List (Pat C))

abbrev Row (C : Type) := List (Pat C)

namespace Pat

def isWild : Pat C → Bool
  | .wild => true
  | .ctor .. => false

end Pat

/-! ## Matching -/

variable {p : Pat C} {ps : List (Pat C)} {v : V} {rows : List (Row C)}

section Matching

variable (Built : C → List V → V → Prop)

mutual

def Matches : Pat C → V → Prop
  | .wild, _ => True
  | .ctor c arguments, v => ∃ vs, Built c vs v ∧ MatchesAll arguments vs

def MatchesAll : List (Pat C) → List V → Prop
  | [], [] => True
  | p :: ps, v :: vs => Matches p v ∧ MatchesAll ps vs
  | _, _ => False

end

def Covers (rows : List (Row C)) (vs : List V) : Prop :=
  ∃ row ∈ rows, MatchesAll Built row vs

variable {Built}

@[simp] theorem matches_wild (v : V) : Matches Built .wild v := by simp [Matches]

@[simp] theorem matchesAll_nil : MatchesAll Built [] [] := by simp [MatchesAll]

@[simp] theorem matchesAll_cons {vs : List V} :
    MatchesAll Built (p :: ps) (v :: vs) ↔ Matches Built p v ∧ MatchesAll Built ps vs := by
  simp [MatchesAll]

theorem MatchesAll.length_eq : ∀ {ps : List (Pat C)} {vs : List V}, MatchesAll Built ps vs → ps.length = vs.length
  | [], [], _ => rfl
  | [], _ :: _, h | _ :: _, [], h => by simp [MatchesAll] at h
  | _ :: ps, _ :: vs, h => by
    rw [matchesAll_cons] at h
    simp [h.2.length_eq]

theorem matchesAll_append : ∀ {ps qs : List (Pat C)} {vs ws : List V}, ps.length = vs.length →
    (MatchesAll Built (ps ++ qs) (vs ++ ws) ↔ MatchesAll Built ps vs ∧ MatchesAll Built qs ws)
  | [], _, [], _, _ => by simp
  | [], _, _ :: _, _, h => by simp at h
  | _ :: _, _, [], _, h => by simp at h
  | p :: ps, qs, v :: vs, ws, h => by
    have hlen : ps.length = vs.length := by simpa using h
    simp [matchesAll_append hlen, and_assoc]

theorem matchesAll_wilds (vs : List V) : MatchesAll Built (List.replicate vs.length .wild) vs := by
  induction vs with
  | nil => simp
  | cons v vs ih => simpa [List.replicate_succ] using ih

theorem matchesAll_of_all_wild : ∀ {ps : List (Pat C)} {vs : List V},
    ps.all Pat.isWild = true → ps.length = vs.length → MatchesAll Built ps vs
  | [], [], _, _ => by simp
  | [], _ :: _, _, h => by simp at h
  | _ :: _, [], _, h => by simp at h
  | .wild :: ps, v :: vs, hall, hlen => by
    have hps : ps.all Pat.isWild = true := by simpa [Pat.isWild] using hall
    simpa using matchesAll_of_all_wild hps (by simpa using hlen)
  | .ctor c args :: ps, _ :: _, hall, _ => by simp [Pat.isWild] at hall

end Matching

/-! ## Typing

A column has a type `τ : T`; `fields c τ` lists the types of the
arguments of `c` in that column, when `c` belongs to it. -/

section Typing

variable {T : Type} (fields : C → T → Option (List T))

mutual

def Pat.Typed : Pat C → T → Prop
  | .wild, _ => True
  | .ctor c arguments, τ => ∃ σs, fields c τ = some σs ∧ TypedAll arguments σs

def TypedAll : List (Pat C) → List T → Prop
  | [], [] => True
  | p :: ps, τ :: τs => p.Typed τ ∧ TypedAll ps τs
  | _, _ => False

end

def RowsTyped (rows : List (Row C)) (τs : List T) : Prop :=
  ∀ row ∈ rows, TypedAll fields row τs

variable {fields}

@[simp] theorem typed_wild (τ : T) : (Pat.wild : Pat C).Typed fields τ := by simp [Pat.Typed]

@[simp] theorem typedAll_nil : TypedAll fields ([] : List (Pat C)) [] := by simp [TypedAll]

@[simp] theorem typedAll_cons {τ : T} {τs : List T} :
    TypedAll fields (p :: ps) (τ :: τs) ↔ p.Typed fields τ ∧ TypedAll fields ps τs := by
  simp [TypedAll]

theorem TypedAll.length_eq : ∀ {ps : List (Pat C)} {τs : List T}, TypedAll fields ps τs → ps.length = τs.length
  | [], [], _ => rfl
  | [], _ :: _, h => by simp [TypedAll] at h
  | _ :: _, [], h => by simp [TypedAll] at h
  | _ :: ps, _ :: τs, h => by
    rw [typedAll_cons] at h
    simp [h.2.length_eq]

theorem typedAll_append : ∀ {ps qs : List (Pat C)} {σs τs : List T},
    TypedAll fields ps σs → TypedAll fields qs τs → TypedAll fields (ps ++ qs) (σs ++ τs)
  | [], _, [], _, _, hq => by simpa using hq
  | [], _, _ :: _, _, hp, _ | _ :: _, _, [], _, hp, _ => by simp [TypedAll] at hp
  | p :: ps, qs, σ :: σs, τs, hp, hq => by
    rw [typedAll_cons] at hp
    simpa using ⟨hp.1, typedAll_append hp.2 hq⟩

theorem typedAll_wilds (σs : List T) : TypedAll fields (List.replicate σs.length (.wild : Pat C)) σs := by
  induction σs with
  | nil => simp
  | cons σ σs ih => simpa [List.replicate_succ] using ih

end Typing

/-! ## Splitting the first column -/

section Splitting

variable [DecidableEq C]

/-- What a row asks of the arguments of a value built by `c`, and of the rest
of the vector. -/
def specializeRow (c : C) (arity : Nat) : Row C → Option (Row C)
  | [] => none
  | .wild :: tail => some (List.replicate arity .wild ++ tail)
  | .ctor head arguments :: tail => if head = c then some (arguments ++ tail) else none

def specialize (c : C) (arity : Nat) (rows : List (Row C)) : List (Row C) :=
  rows.filterMap (specializeRow c arity)

def defaultRow : Row C → Option (Row C)
  | .wild :: tail => some tail
  | _ => none

def defaults (rows : List (Row C)) : List (Row C) := rows.filterMap defaultRow

variable {T : Type} {fields : C → T → Option (List T)} {Built : C → List V → V → Prop}
variable {c : C} {rest : List V}

theorem specializeRow_typed {τ : T} {σs τs : List T} (hc : fields c τ = some σs) {row row' : Row C}
    (hrow : TypedAll fields row (τ :: τs)) (h : specializeRow c σs.length row = some row') :
    TypedAll fields row' (σs ++ τs) := by
  match row, hrow, h with
  | .wild :: tail, hrow, h =>
    obtain rfl : List.replicate σs.length .wild ++ tail = row' := by
      simpa [specializeRow] using h
    exact typedAll_append (typedAll_wilds σs) (typedAll_cons.mp hrow).2
  | .ctor head arguments :: tail, hrow, h =>
    by_cases hhead : head = c
    · obtain rfl : arguments ++ tail = row' := by simpa [specializeRow, hhead] using h
      subst hhead
      obtain ⟨hctor, htail⟩ := typedAll_cons.mp hrow
      rw [Pat.Typed] at hctor
      obtain ⟨σs', hσ, harguments⟩ := hctor
      obtain rfl : σs = σs' := Option.some.inj (hc.symm.trans hσ)
      exact typedAll_append harguments htail
    · simp [specializeRow, hhead] at h

theorem specialize_typed {τ : T} {σs τs : List T} (hc : fields c τ = some σs)
    (hrows : RowsTyped fields rows (τ :: τs)) : RowsTyped fields (specialize c σs.length rows) (σs ++ τs) := by
  intro row' hrow'
  obtain ⟨row, hrow, h⟩ := List.mem_filterMap.mp hrow'
  exact specializeRow_typed hc (hrows row hrow) h

omit [DecidableEq C] in
theorem defaults_typed {τ : T} {τs : List T} (hrows : RowsTyped fields rows (τ :: τs)) :
    RowsTyped fields (defaults rows) τs := by
  intro row' hrow'
  obtain ⟨row, hrow, h⟩ := List.mem_filterMap.mp hrow'
  match row, h with
  | .wild :: tail, h =>
    obtain rfl : tail = row' := by simpa [defaultRow] using h
    exact (typedAll_cons.mp (hrows _ hrow)).2

theorem matchesAll_of_specializeRow {τ : T} {σs τs : List T} (hc : fields c τ = some σs) {row row' : Row C}
    (hrow : TypedAll fields row (τ :: τs)) {vs : List V} (hlen : vs.length = σs.length) (hv : Built c vs v)
    (h : specializeRow c σs.length row = some row') (hm : MatchesAll Built row' (vs ++ rest)) :
    MatchesAll Built row (v :: rest) := by
  match row, hrow, h with
  | .wild :: tail, _, h =>
    obtain rfl : List.replicate σs.length .wild ++ tail = row' := by
      simpa [specializeRow] using h
    rw [matchesAll_append (by simp [hlen])] at hm
    simpa using hm.2
  | .ctor head arguments :: tail, hrow, h =>
    by_cases hhead : head = c
    · obtain rfl : arguments ++ tail = row' := by simpa [specializeRow, hhead] using h
      subst hhead
      obtain ⟨hctor, -⟩ := typedAll_cons.mp hrow
      rw [Pat.Typed] at hctor
      obtain ⟨σs', hσ, harguments⟩ := hctor
      obtain rfl : σs = σs' := Option.some.inj (hc.symm.trans hσ)
      rw [matchesAll_append (by rw [harguments.length_eq, hlen])] at hm
      rw [matchesAll_cons]
      exact ⟨by rw [Matches]; exact ⟨vs, hv, hm.1⟩, hm.2⟩
    · simp [specializeRow, hhead] at h

theorem covers_of_specialize {τ : T} {σs τs : List T} (hc : fields c τ = some σs)
    (hrows : RowsTyped fields rows (τ :: τs)) {vs : List V} (hlen : vs.length = σs.length)
    (hv : Built c vs v) (h : Covers Built (specialize c σs.length rows) (vs ++ rest)) :
    Covers Built rows (v :: rest) := by
  obtain ⟨row', hrow', hm⟩ := h
  obtain ⟨row, hrow, hs⟩ := List.mem_filterMap.mp hrow'
  exact ⟨row, hrow, matchesAll_of_specializeRow hc (hrows row hrow) hlen hv hs hm⟩

omit [DecidableEq C] in
theorem covers_of_defaults (h : Covers Built (defaults rows) rest) : Covers Built rows (v :: rest) := by
  obtain ⟨row', hrow', hm⟩ := h
  obtain ⟨row, hrow, hd⟩ := List.mem_filterMap.mp hrow'
  match row, hd with
  | .wild :: tail, hd =>
    obtain rfl : tail = row' := by simpa [defaultRow] using hd
    exact ⟨_, hrow, by simpa using hm⟩

end Splitting

/-! ## Derivations of coverage

`Refuted rows query`: no value that `query` matches escapes `rows`, by
splitting columns. A search that ends without a witness has found such a
derivation; `Refuted.covers` reads it back as a statement about values. -/

section Refuted

variable [DecidableEq C] {T : Type} (fields : C → T → Option (List T))
  (Built : C → List V → V → Prop) (HasType : V → T → Prop)

/-- Every value of the type of the first column is built by one of `cs`, with `arity` arguments. -/
def Exhausts (arity : C → Nat) (rows : List (Row C)) (cs : List C) : Prop :=
  ∀ τ τs, RowsTyped fields rows (τ :: τs) → ∀ v, HasType v τ →
    ∃ c ∈ cs, ∃ vs, Built c vs v ∧ vs.length = arity c ∧ (fields c τ).isSome

inductive Refuted (arity : C → Nat) : List (Row C) → Row C → Prop
  | covered {rows : List (Row C)} {query : Row C} {row : Row C} (hrow : row ∈ rows)
      (hwild : row.all Pat.isWild = true) : Refuted arity rows query
  | ctor {rows : List (Row C)} {c : C} {arguments : List (Pat C)} {tail : Row C}
      (h : Refuted arity (specialize c arguments.length rows) (arguments ++ tail)) :
      Refuted arity rows (.ctor c arguments :: tail)
  | complete {rows : List (Row C)} {tail : Row C} {cs : List C} (hcs : Exhausts fields Built HasType arity rows cs)
      (h : ∀ c ∈ cs, Refuted arity (specialize c (arity c) rows) (List.replicate (arity c) .wild ++ tail)) :
      Refuted arity rows (.wild :: tail)
  | missing {rows : List (Row C)} {tail : Row C} (h : Refuted arity (defaults rows) tail) :
      Refuted arity rows (.wild :: tail)

variable {fields Built HasType}

def FieldsTyped (fields : C → T → Option (List T)) (Built : C → List V → V → Prop) (HasType : V → T → Prop) : Prop :=
  ∀ c vs v τ σs, Built c vs v → HasType v τ → fields c τ = some σs → List.Forall₂ HasType vs σs

theorem Refuted.covers (hfields : FieldsTyped fields Built HasType) {arity : C → Nat} {query : Row C}
    (h : Refuted fields Built HasType arity rows query) :
    ∀ {τs : List T}, RowsTyped fields rows τs → TypedAll fields query τs →
      ∀ {vs : List V}, List.Forall₂ HasType vs τs → MatchesAll Built query vs → Covers Built rows vs := by
  induction h with
  | @covered rows query row hrow hwild =>
    intro τs hrows hquery vs hvs hm
    exact ⟨row, hrow, matchesAll_of_all_wild hwild ((hrows row hrow).length_eq.trans hvs.length_eq.symm)⟩
  | @ctor rows c arguments tail _ ih =>
    intro τs hrows hquery vs hvs hm
    obtain _ | ⟨hv, hrest⟩ := hvs
    · simp [MatchesAll] at hm
    obtain ⟨hctor, htail⟩ := typedAll_cons.mp hquery
    rw [Pat.Typed] at hctor
    obtain ⟨σs, hσ, harguments⟩ := hctor
    obtain ⟨hhead, hmtail⟩ := matchesAll_cons.mp hm
    rw [Matches] at hhead
    obtain ⟨us, hus, hmus⟩ := hhead
    have htyped := hfields _ _ _ _ _ hus hv hσ
    rw [harguments.length_eq] at ih
    exact covers_of_specialize hσ hrows htyped.length_eq hus
      (ih (specialize_typed hσ hrows) (typedAll_append harguments htail) (List.rel_append htyped hrest)
        ((matchesAll_append hmus.length_eq).mpr ⟨hmus, hmtail⟩))
  | @complete rows tail cs hcs _ ih =>
    intro τs hrows hquery vs hvs hm
    obtain _ | ⟨hv, hrest⟩ := hvs
    · simp [MatchesAll] at hm
    obtain ⟨c, hc, us, hus, hlen, hsome⟩ := hcs _ _ hrows _ hv
    obtain ⟨σs, hσ⟩ := Option.isSome_iff_exists.mp hsome
    have htyped := hfields _ _ _ _ _ hus hv hσ
    have harity : arity c = σs.length := hlen.symm.trans htyped.length_eq
    replace ih := @ih c hc
    rw [harity] at ih
    refine covers_of_specialize hσ hrows htyped.length_eq hus (ih (specialize_typed hσ hrows)
        (typedAll_append (typedAll_wilds σs) (typedAll_cons.mp hquery).2)
        (List.rel_append htyped hrest)
        ((matchesAll_append (by simp [htyped.length_eq])).mpr ⟨?_, (matchesAll_cons.mp hm).2⟩))
    rw [← htyped.length_eq]
    exact matchesAll_wilds us
  | missing _ ih =>
    intro τs hrows hquery vs hvs hm
    obtain _ | ⟨hv, hrest⟩ := hvs
    · simp [MatchesAll] at hm
    exact covers_of_defaults (ih (defaults_typed hrows) (typedAll_cons.mp hquery).2 hrest (matchesAll_cons.mp hm).2)

end Refuted

end PatternMatrix
