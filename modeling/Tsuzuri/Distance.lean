import Mathlib.Data.List.Chain
import Mathlib.Order.Basic
import Mathlib.Tactic.Common

/-!
# Distances in a graph

`Steps edge start n a`: a path of `n` edges leads from a start node to `a`.
-/

namespace Distance

open List

variable {α : Type} {edge : α → α → Prop} {start : α → Prop} {a b : α} {m n : Nat}

/-- A path of `n` edges leads from a start node to the node. -/
def Steps (edge : α → α → Prop) (start : α → Prop) : Nat → α → Prop
  | 0, a => start a
  | n + 1, b => ∃ a, Steps edge start n a ∧ edge a b

/-- The number of edges of a shortest path from a start node to `a` is `n`. -/
def IsDistance (edge : α → α → Prop) (start : α → Prop) (n : Nat) (a : α) : Prop :=
  Steps edge start n a ∧ ∀ m < n, ¬ Steps edge start m a

theorem isDistance_zero : IsDistance edge start 0 a ↔ start a :=
  ⟨fun h => h.1, fun h => ⟨h, fun _ hm => absurd hm (Nat.not_lt_zero _)⟩⟩

theorem IsDistance.le (h : IsDistance edge start n a) (hm : Steps edge start m a) : n ≤ m := by
  by_contra hlt
  exact h.2 m (not_le.mp hlt) hm

theorem IsDistance.unique (h : IsDistance edge start n a) (h' : IsDistance edge start m a) : n = m :=
  le_antisymm (h.le h'.1) (h'.le h.1)

theorem Steps.exists_distance (h : Steps edge start n a) : ∃ m ≤ n, IsDistance edge start m a := by
  induction n using Nat.strong_induction_on with
  | _ n ih =>
    by_cases hless : ∃ m < n, Steps edge start m a
    · obtain ⟨m, hlt, hm⟩ := hless
      obtain ⟨k, hk, hdist⟩ := ih m hlt hm
      exact ⟨k, hk.trans hlt.le, hdist⟩
    · exact ⟨n, le_rfl, h, fun m hlt hm => hless ⟨m, hlt, hm⟩⟩

theorem IsDistance.pred (h : IsDistance edge start (n + 1) b) : ∃ a, IsDistance edge start n a ∧ edge a b := by
  obtain ⟨a, ha, hedge⟩ := h.1
  refine ⟨a, ⟨ha, fun m hlt hm => ?_⟩, hedge⟩
  exact h.2 (m + 1) (Nat.succ_lt_succ hlt) ⟨a, hm, hedge⟩

theorem IsDistance.next_le (h : IsDistance edge start n a) (hedge : edge a b) :
    ∃ m ≤ n + 1, IsDistance edge start m b :=
  Steps.exists_distance ⟨a, h.1, hedge⟩

theorem IsDistance.succ (h : IsDistance edge start n a) (hedge : edge a b)
    (hfar : ∀ m ≤ n, ¬ IsDistance edge start m b) : IsDistance edge start (n + 1) b := by
  obtain ⟨m, hle, hm⟩ := h.next_le hedge
  obtain rfl : m = n + 1 := by
    by_contra hne
    exact hfar m (by omega) hm
  exact hm

theorem IsDistance.below (h : IsDistance edge start n b) (hle : m ≤ n) : ∃ a, IsDistance edge start m a := by
  induction n generalizing b with
  | zero =>
    obtain rfl := Nat.le_zero.mp hle
    exact ⟨b, h⟩
  | succ n ih =>
    rcases Nat.lt_or_ge n m with hlt | hge
    · obtain rfl : m = n + 1 := by omega
      exact ⟨b, h⟩
    · obtain ⟨a, ha, -⟩ := h.pred
      exact ih ha hge

/-! ## Paths as lists -/

/-- The nodes of a path from `a` to `b`, with an edge from each node to the next. -/
structure IsPath (edge : α → α → Prop) (a b : α) (path : List α) : Prop where
  head : path.head? = some a
  last : path.getLast? = some b
  chain : path.IsChain edge

theorem IsPath.single (a : α) : IsPath edge a a [a] := ⟨rfl, rfl, .singleton a⟩

theorem IsPath.cons {c : α} {path : List α} (h : IsPath edge b c path) (hedge : edge a b) :
    IsPath edge a c (a :: path) := by
  cases path with
  | nil => cases h.head
  | cons d path =>
    obtain ⟨hhead, hlast, hchain⟩ := h
    cases hhead
    exact ⟨rfl, by rwa [getLast?_cons_cons], .cons_cons hedge hchain⟩

theorem IsPath.mono {edge' : α → α → Prop} {path : List α} (h : IsPath edge a b path)
    (himp : ∀ x y, edge x y → edge' x y) : IsPath edge' a b path :=
  ⟨h.head, h.last, h.chain.imp himp⟩

theorem IsPath.steps {path : List α} (h : IsPath edge a b path) : Steps edge (fun x => x = a) (path.length - 1) b := by
  induction path using List.reverseRecOn generalizing b with
  | nil => cases h.head
  | append_singleton path c ih =>
    obtain ⟨hhead, hlast, hchain⟩ := h
    rw [getLast?_concat] at hlast
    cases hlast
    rcases eq_nil_or_concat path with rfl | ⟨before, d, rfl⟩
    · cases hhead
      exact rfl
    · rw [concat_eq_append] at *
      obtain ⟨hbefore, -, hlink⟩ := isChain_append.mp hchain
      have hd : IsPath edge a d (before ++ [d]) := by
        refine ⟨?_, getLast?_concat, hbefore⟩
        rw [head?_append] at hhead
        cases hb : (before ++ [d]).head? with
        | none => simp at hb
        | some x => rw [hb] at hhead; exact hhead
      have hstep := ih hd
      simp only [length_append, length_cons, length_nil] at hstep ⊢
      exact ⟨d, hstep, hlink d getLast?_concat c rfl⟩

end Distance
