import Mathlib.Algebra.BigOperators.Group.Finset.Basic
import Mathlib.Data.Fintype.Card
import Mathlib.Data.Finset.Card
import Mathlib.Tactic.Abel

/-!
# Runs of a system of steps

An action that is possible in a state gives the next state and what can be observed of the step.
-/

namespace Transition

variable {State Act Event : Type}

/-- The states and the observations of the runs. -/
inductive Run (step : State → Act → Option (State × List Event)) (s : State) :
    List Event → State → Prop
  | nil : Run step s [] s
  | step {es es' : List Event} {t u : State} {a : Act} (run : Run step s es t)
      (next : step t a = some (u, es')) : Run step s (es ++ es') u

section Run

variable {step : State → Act → Option (State × List Event)}
variable {P : List Event → State → Prop} {s t : State} {es : List Event} {as : List Act} {ok : State → Act → Prop}

theorem Run.invariant (hinit : P [] s)
    (hstep : ∀ {es es' t u a}, P es t → step t a = some (u, es') → P (es ++ es') u) (h : Run step s es t) : P es t := by
  induction h with
  | nil => exact hinit
  | step _ next ih => exact hstep ih next

def runActs (step : State → Act → Option (State × List Event)) (s : State) : List Act → Option (State × List Event)
  | [] => some (s, [])
  | a :: as => do
    let (t, es) ← step s a
    let (u, es') ← runActs step t as
    some (u, es ++ es')

theorem Run.trans {u : State} {es' : List Event} (h : Run step s es t) (h' : Run step t es' u) :
    Run step s (es ++ es') u := by
  induction h' with
  | nil => rwa [List.append_nil]
  | step _ next ih =>
    rw [← List.append_assoc]
    exact ih.step next

theorem Run.single {a : Act} (h : step s a = some (t, es)) : Run step s es t := by
  simpa using Run.nil.step h

theorem run_of_runActs : ∀ {s t : State} {es : List Event}, runActs step s as = some (t, es) → Run step s es t := by
  induction as with
  | nil =>
    intro s t es h
    cases h
    exact .nil
  | cons a as ih =>
    intro s t es h
    simp only [runActs, Option.bind_eq_bind, Option.bind_eq_some_iff, Prod.exists, Option.some.injEq,
      Prod.mk.injEq] at h
    obtain ⟨s', es₁, hfirst, t', es₂, hrest, rfl, rfl⟩ := h
    exact (Run.single hfirst).trans (ih hrest)

theorem run_of_any {p : State × List Event → Bool} (h : (runActs step s as).any p = true) :
    ∃ es t, Run step s es t ∧ p (t, es) = true := by
  obtain ⟨⟨t, es⟩, hrun, hp⟩ := (Option.any_eq_true p _).mp h
  exact ⟨es, t, run_of_runActs hrun, hp⟩

/-- The runs whose steps all meet a condition on the state before them. -/
inductive RunWhen (step : State → Act → Option (State × List Event)) (ok : State → Act → Prop) (s : State) :
    List Event → State → Prop
  | nil : RunWhen step ok s [] s
  | step {es es' : List Event} {t u : State} {a : Act} (run : RunWhen step ok s es t) (met : ok t a)
      (next : step t a = some (u, es')) : RunWhen step ok s (es ++ es') u

theorem RunWhen.invariant (hinit : P [] s)
    (hstep : ∀ {es es' t u a}, P es t → ok t a → step t a = some (u, es') → P (es ++ es') u)
    (h : RunWhen step ok s es t) : P es t := by
  induction h with
  | nil => exact hinit
  | step _ met next ih => exact hstep ih met next

def tested (test : State → Act → Bool) (step : State → Act → Option (State × List Event)) (s : State) (a : Act) :
    Option (State × List Event) :=
  if test s a then step s a else none

theorem runWhen_of_any {I : State → Prop} {test : State → Act → Bool} (hinit : I s)
    (hinv : ∀ {t u a es}, I t → step t a = some (u, es) → I u)
    (htest : ∀ {t a}, I t → test t a = true → ok t a) {p : State × List Event → Bool}
    (h : (runActs (tested test step) s as).any p = true) : ∃ es t, RunWhen step ok s es t ∧ p (t, es) = true := by
  obtain ⟨es, t, hrun, hp⟩ := run_of_any h
  have hwhen : RunWhen step ok s es t ∧ I t := by
    refine hrun.invariant (P := fun es t => RunWhen step ok s es t ∧ I t) ⟨.nil, hinit⟩ ?_
    rintro es es' t u a ⟨hrun, ht⟩ hstep
    unfold tested at hstep
    split at hstep
    · rename_i hpassed
      exact ⟨hrun.step (htest ht hpassed) hstep, hinv ht hstep⟩
    · exact nomatch hstep
  exact ⟨es, t, hwhen.1, hp⟩

end Run

/-! ## Counting parties -/

section Tally

variable {G : Type} [Fintype G]

def tally (p : G → Prop) [DecidablePred p] : Nat := (Finset.univ.filter p).card

abbrev one (p : Prop) [Decidable p] : Nat := if p then 1 else 0

variable {p q : G → Prop} [DecidablePred p] [DecidablePred q]

theorem tally_congr (h : ∀ g, p g ↔ q g) : tally p = tally q := by
  unfold tally
  congr 1
  ext g
  simp [h g]

theorem tally_mono (h : ∀ g, p g → q g) : tally p ≤ tally q :=
  Finset.card_le_card fun g hg => by
    simp only [Finset.mem_filter, Finset.mem_univ, true_and] at hg ⊢
    exact h g hg

theorem tally_eq_zero : tally p = 0 ↔ ∀ g, ¬p g := by
  simp [tally, Finset.filter_eq_empty_iff]

variable {g : G}

theorem tally_pos (h : p g) : 0 < tally p :=
  Nat.pos_of_ne_zero fun hzero => tally_eq_zero.mp hzero g h

theorem exists_of_tally (h : tally p ≠ 0) : ∃ g, p g := by
  by_contra hnone
  exact h (tally_eq_zero.mpr fun g hg => hnone ⟨g, hg⟩)

theorem two_le_tally {x : G} (hne : g ≠ x) (hg : p g) (hx : p x) : 2 ≤ tally p :=
  Finset.one_lt_card.mpr ⟨g, by simpa using hg, x, by simpa using hx, hne⟩

theorem le_tally (g : G) : (if p g then 1 else 0) ≤ tally p := by
  split
  · rename_i h
    exact tally_pos h
  · exact Nat.zero_le _

theorem tally_insert [DecidableEq G] {g : G} (hq : q g) (hp : ¬p g) (h : ∀ x, x ≠ g → (p x ↔ q x)) :
    tally q = tally p + 1 := by
  unfold tally
  rw [← Finset.card_insert_of_notMem (a := g) (by simpa using hp)]
  congr 1
  ext x
  by_cases hx : x = g
  · simp [hx, hq]
  · simp [hx, h x hx]

theorem tally_move [DecidableEq G] (g : G) (h : ∀ x, x ≠ g → (p x ↔ q x)) :
    tally p + (if q g then 1 else 0) = tally q + (if p g then 1 else 0) := by
  by_cases hp : p g <;> by_cases hq : q g
  · rw [if_pos hp, if_pos hq, tally_congr (p := p) (q := q)]
    intro x
    by_cases hx : x = g
    · subst hx
      exact iff_of_true hp hq
    · exact h x hx
  · rw [if_pos hp, if_neg hq, tally_insert hp hq fun x hx => (h x hx).symm]
  · rw [if_neg hp, if_pos hq, tally_insert hq hp h]
  · rw [if_neg hp, if_neg hq, tally_congr (p := p) (q := q)]
    intro x
    by_cases hx : x = g
    · subst hx
      exact iff_of_false hp hq
    · exact h x hx

theorem sum_move {M : Type} [AddCommMonoid M] [DecidableEq G] {f k : G → M} (g : G)
    (h : ∀ x, x ≠ g → f x = k x) : ∑ x, f x + k g = ∑ x, k x + f g := by
  rw [← Finset.add_sum_erase _ f (Finset.mem_univ g), ← Finset.add_sum_erase _ k (Finset.mem_univ g),
    Finset.sum_congr rfl fun x hx => h x (Finset.ne_of_mem_erase hx)]
  abel

end Tally

end Transition
