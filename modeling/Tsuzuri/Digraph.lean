import Mathlib.Data.List.Basic
import Mathlib.Data.List.Count
import Mathlib.Algebra.Group.Nat.Defs
import Mathlib.Tactic.Common

/-!
# The graphs of the knowledge graph

A directed graph over the nodes below `len` in compressed sparse rows: the successors of `v` are the
targets from `offsets[v]` up to `offsets[v + 1]`.
-/

namespace Tsuzuri.Kg

open List

def usizeMax : Nat := 2 ^ 64 - 1

structure Rows where
  offsets : List Nat
  targets : List Nat
 

namespace Rows

def len (rows : Rows) : Nat := rows.offsets.length - 1

def successors (rows : Rows) (node : Nat) : List Nat :=
  (rows.targets.take (rows.offsets.getD (node + 1) 0)).drop (rows.offsets.getD node 0)

end Rows

/-- The rows of `fromEdges`: the successors are nodes, ascending and without duplicates, and the nodes as many as a
vector holds. -/
structure Digraph extends Rows where
  ascending : ∀ node, (toRows.successors node).Pairwise (· < ·)
  within : ∀ node, ∀ target ∈ toRows.successors node, node < toRows.len ∧ target < toRows.len
  fits : toRows.len < usizeMax

def edgeLe (a b : Nat × Nat) : Bool := a.1 < b.1 || (a.1 = b.1 && a.2 ≤ b.2)

theorem edgeLe_iff {a b : Nat × Nat} : edgeLe a b = true ↔ a.1 < b.1 ∨ (a.1 = b.1 ∧ a.2 ≤ b.2) := by
  simp [edgeLe]

theorem edgeLe_trans (a b c : Nat × Nat) (hab : edgeLe a b = true) (hbc : edgeLe b c = true) : edgeLe a c = true := by
  rw [edgeLe_iff] at *
  omega

theorem edgeLe_total (a b : Nat × Nat) : (edgeLe a b || edgeLe b a) = true := by
  rw [Bool.or_eq_true, edgeLe_iff, edgeLe_iff]
  omega

def dedup : List (Nat × Nat) → List (Nat × Nat)
  | a :: b :: rest => if a = b then dedup (b :: rest) else a :: dedup (b :: rest)
  | pairs => pairs

variable {pairs edges : List (Nat × Nat)} {e : Nat × Nat} {nodes a b : Nat}

theorem mem_dedup : e ∈ dedup pairs ↔ e ∈ pairs := by
  fun_induction dedup pairs with
  | case1 b rest ih => rw [ih, mem_cons (a := e) (b := b) (l := b :: rest)]; simp
  | case2 a b rest hne ih => simp only [mem_cons, ih]
  | case3 pairs hshort => rfl

theorem dedup_pairwise (hs : pairs.Pairwise fun a b => edgeLe a b = true) :
    (dedup pairs).Pairwise fun a b => edgeLe a b = true ∧ a ≠ b := by
  fun_induction dedup pairs with
  | case1 b rest ih => exact ih hs.of_cons
  | case2 a b rest hne ih =>
    refine pairwise_cons.mpr ⟨fun e he => ?_, ih hs.of_cons⟩
    have hab : edgeLe a b = true := rel_of_pairwise_cons hs mem_cons_self
    have hae : edgeLe a e = true := rel_of_pairwise_cons hs (mem_dedup.mp he)
    refine ⟨hae, ?_⟩
    rintro rfl
    rcases mem_cons.mp (mem_dedup.mp he) with heq | hmem
    · exact hne heq
    · have hba : edgeLe b a = true := rel_of_pairwise_cons hs.of_cons hmem
      rw [edgeLe_iff] at hab hba
      exact hne (Prod.ext (by omega) (by omega))
  | case3 pairs hshort =>
    rcases pairs with - | ⟨a, - | ⟨b, rest⟩⟩
    · exact .nil
    · exact pairwise_singleton _ _
    · exact absurd rfl (hshort a b rest)

/-! ## Rows of edges -/

def sortedPairs (nodes : Nat) (edges : List (Nat × Nat)) : List (Nat × Nat) :=
  dedup ((edges.filter fun e => e.1 < nodes && e.2 < nodes).mergeSort edgeLe)

/-- `offsets[from + 1] += 1` for each edge. -/
def countRows (pairs : List (Nat × Nat)) (offsets : List Nat) : List Nat :=
  pairs.foldl (fun offsets e => offsets.modify (e.1 + 1) (· + 1)) offsets

/-- `offsets[node + 1] += offsets[node]` for the nodes in order. -/
def sumRows (nodes : Nat) (offsets : List Nat) : List Nat :=
  (List.range nodes).foldl (fun offsets node => offsets.modify (node + 1) (· + offsets.getD node 0)) offsets

def rowsOf (nodes : Nat) (edges : List (Nat × Nat)) : Rows :=
  let pairs := sortedPairs nodes edges
  { offsets := sumRows nodes (countRows pairs (List.replicate (nodes + 1) 0))
    targets := pairs.map Prod.snd }

theorem mem_sortedPairs : e ∈ sortedPairs nodes edges ↔ e ∈ edges ∧ e.1 < nodes ∧ e.2 < nodes := by
  rw [sortedPairs, mem_dedup, (mergeSort_perm _ _).mem_iff, mem_filter]
  simp

theorem sortedPairs_pairwise (nodes : Nat) (edges : List (Nat × Nat)) :
    (sortedPairs nodes edges).Pairwise fun a b => edgeLe a b = true ∧ a ≠ b :=
  dedup_pairwise (pairwise_mergeSort edgeLe_trans edgeLe_total _)

@[simp] theorem countRows_length (pairs : List (Nat × Nat)) (offsets : List Nat) :
    (countRows pairs offsets).length = offsets.length := by
  induction pairs generalizing offsets with
  | nil => rfl
  | cons e pairs ih =>
    have := ih (offsets.modify (e.1 + 1) (· + 1))
    rwa [length_modify] at this

theorem countRows_getD (pairs : List (Nat × Nat)) (offsets : List Nat) (i : Nat) (hi : i < offsets.length) :
    (countRows pairs offsets).getD i 0 = offsets.getD i 0 + pairs.countP fun e => e.1 + 1 = i := by
  induction pairs generalizing offsets with
  | nil => rfl
  | cons e pairs ih =>
    have hstep := ih (offsets.modify (e.1 + 1) (· + 1)) (by rwa [length_modify])
    rw [countRows, foldl_cons]
    rw [countRows] at hstep
    rw [hstep, countP_cons]
    simp only [getD_eq_getElem?_getD, getElem?_modify, getElem?_eq_getElem hi]
    split
    · simp_all
      omega
    · simp_all

theorem sumRows_succ (nodes : Nat) (offsets : List Nat) : sumRows (nodes + 1) offsets =
      (sumRows nodes offsets).modify (nodes + 1) (· + (sumRows nodes offsets).getD nodes 0) := by
  simp [sumRows, range_succ]

@[simp] theorem sumRows_length (nodes : Nat) (offsets : List Nat) :
    (sumRows nodes offsets).length = offsets.length := by
  induction nodes with
  | zero => rfl
  | succ nodes ih => rw [sumRows_succ, length_modify, ih]

theorem countP_succ (pairs : List (Nat × Nat)) (v : Nat) :
    (pairs.countP fun e => e.1 + 1 = v + 1) + (pairs.countP fun e => e.1 < v) = pairs.countP fun e => e.1 < v + 1 := by
  induction pairs with
  | nil => rfl
  | cons e pairs ih =>
    simp only [countP_cons, decide_eq_true_eq] at ih ⊢
    split <;> split <;> split <;> omega

theorem sumRows_getD (nodes : Nat) (offsets : List Nat) (pairs : List (Nat × Nat))
    (hcount : ∀ i < offsets.length, offsets.getD i 0 = pairs.countP fun e => e.1 + 1 = i)
    (hlen : nodes < offsets.length) (i : Nat) (hi : i < offsets.length) : (sumRows nodes offsets).getD i 0 =
      if i ≤ nodes then pairs.countP fun e => e.1 < i else pairs.countP fun e => e.1 + 1 = i := by
  induction nodes generalizing i with
  | zero =>
    have h0 := hcount i hi
    by_cases hzero : i = 0
    · subst hzero
      simpa [sumRows] using h0
    · simpa [sumRows, hzero] using h0
  | succ nodes ih =>
    have hprev := ih (by omega) nodes (by omega)
    rw [if_pos (Nat.le_refl _)] at hprev
    have hi' : i < (sumRows nodes offsets).length := by rwa [sumRows_length]
    have hold := ih (by omega) i hi
    rw [sumRows_succ, hprev]
    rw [getD_eq_getElem?_getD, getElem?_eq_getElem hi', Option.getD_some] at hold
    rw [getD_eq_getElem?_getD, getElem?_modify, getElem?_eq_getElem hi']
    by_cases heq : nodes + 1 = i
    · subst heq
      rw [if_neg (by omega)] at hold
      rw [if_pos (Nat.le_refl _)]
      simp only [if_true, Option.map_eq_map, Option.map_some, Option.getD_some, hold]
      exact countP_succ pairs nodes
    · by_cases hle : i ≤ nodes
      · rw [if_pos hle] at hold
        rw [if_pos (by omega)]
        simp [heq, hold]
      · rw [if_neg hle] at hold
        rw [if_neg (by omega)]
        simp [heq, hold]

/-! ## The successors of a node -/

theorem take_countP_sorted (hs : pairs.Pairwise fun a b => a.1 ≤ b.1) (v : Nat) :
    pairs.take (pairs.countP fun e => e.1 < v) = pairs.filter fun e => e.1 < v := by
  induction pairs with
  | nil => rfl
  | cons e pairs ih =>
    by_cases hlt : e.1 < v
    · simp [hlt, ih hs.of_cons]
    · have hnone : ∀ p ∈ pairs, ¬ p.1 < v := by
        intro p hp
        have := rel_of_pairwise_cons hs hp
        omega
      have hfilter : pairs.filter (fun e => e.1 < v) = [] := by
        simpa [filter_eq_nil_iff] using hnone
      rw [countP_eq_length_filter, filter_cons_of_neg (by simpa using hlt), hfilter]
      rfl

theorem drop_countP_sorted (hs : pairs.Pairwise fun a b => a.1 ≤ b.1) (v : Nat) :
    pairs.drop (pairs.countP fun e => e.1 < v) = pairs.filter fun e => v ≤ e.1 := by
  induction pairs with
  | nil => rfl
  | cons e pairs ih =>
    by_cases hlt : e.1 < v
    · simp [hlt, ih hs.of_cons]
    · have hall : ∀ p ∈ e :: pairs, v ≤ p.1 := by
        intro p hp
        rcases mem_cons.mp hp with rfl | hp
        · omega
        · have := rel_of_pairwise_cons hs hp
          omega
      have hcount : (e :: pairs).countP (fun e => e.1 < v) = 0 := by
        rw [countP_eq_zero]
        intro p hp
        have := hall p hp
        simpa using this
      rw [hcount, drop_zero, filter_eq_self.mpr]
      simpa using hall

theorem rowsOf_len (nodes : Nat) (edges : List (Nat × Nat)) : (rowsOf nodes edges).len = nodes := by
  simp [rowsOf, Rows.len]

theorem offsets_rowsOf {i : Nat} (hi : i ≤ nodes) :
    (rowsOf nodes edges).offsets.getD i 0 = (sortedPairs nodes edges).countP fun e => e.1 < i := by
  have hsum := sumRows_getD nodes (countRows (sortedPairs nodes edges) (List.replicate (nodes + 1) 0))
    (sortedPairs nodes edges) ?_ (by simp) i (by simp; omega)
  · rw [if_pos hi] at hsum
    exact hsum
  · intro i hi
    rw [countRows_length] at hi
    rw [countRows_getD _ _ _ hi]
    simp only [length_replicate] at hi
    simp [hi]

theorem successors_rowsOf {node : Nat} : (rowsOf nodes edges).successors node =
      ((sortedPairs nodes edges).filter fun e => e.1 = node).map Prod.snd := by
  rw [Rows.successors]
  have hs : (sortedPairs nodes edges).Pairwise fun a b => a.1 ≤ b.1 := by
    refine (sortedPairs_pairwise nodes edges).imp ?_
    intro a b h
    have := edgeLe_iff.mp h.1
    omega
  by_cases hnode : node < nodes
  · rw [offsets_rowsOf hnode, offsets_rowsOf (Nat.le_of_lt hnode)]
    show ((((sortedPairs nodes edges).map Prod.snd).take _).drop _) = _
    rw [← map_take, ← map_drop, take_countP_sorted hs]
    have hcount : ((sortedPairs nodes edges).countP fun e => e.1 < node) =
        ((sortedPairs nodes edges).filter fun e => e.1 < node + 1).countP fun e => e.1 < node := by
      rw [countP_filter]
      refine countP_congr fun e _ => ?_
      simp only [decide_eq_true_eq, Bool.and_eq_true]
      omega
    rw [hcount, drop_countP_sorted (hs.filter _), filter_filter]
    congr 1
    refine filter_congr fun e _ => ?_
    rw [Bool.eq_iff_iff]
    simp only [Bool.and_eq_true, decide_eq_true_eq]
    omega
  · have hnone : (rowsOf nodes edges).offsets.getD (node + 1) 0 = 0 := by
      have hlen := rowsOf_len nodes edges
      rw [Rows.len] at hlen
      rw [getD_eq_getElem?_getD, getElem?_eq_none (by omega), Option.getD_none]
    rw [hnone, take_zero, drop_nil]
    symm
    rw [map_eq_nil_iff, filter_eq_nil_iff]
    intro e he
    have := (mem_sortedPairs.mp he).2.1
    simp only [decide_eq_true_eq]
    omega

theorem mem_successors_rowsOf : b ∈ (rowsOf nodes edges).successors a ↔ (a, b) ∈ edges ∧ a < nodes ∧ b < nodes := by
  rw [successors_rowsOf, mem_map]
  constructor
  · rintro ⟨e, he, rfl⟩
    rw [mem_filter, decide_eq_true_eq] at he
    obtain ⟨hmem, rfl⟩ := he
    exact mem_sortedPairs.mp hmem
  · intro h
    exact ⟨(a, b), mem_filter.mpr ⟨mem_sortedPairs.mpr h, by simp⟩, rfl⟩

def Digraph.fromEdges (nodes : Nat) (edges : List (Nat × Nat)) (hfits : nodes < usizeMax) : Digraph where
  toRows := rowsOf nodes edges
  ascending := by
    intro node
    rw [successors_rowsOf, pairwise_map]
    refine ((sortedPairs_pairwise nodes edges).filter _).imp_of_mem ?_
    intro a b ha hb h
    rw [mem_filter, decide_eq_true_eq] at ha hb
    have hle := edgeLe_iff.mp h.1
    have hne : a.2 ≠ b.2 := fun heq => h.2 (Prod.ext (ha.2.trans hb.2.symm) heq)
    omega
  within := by
    intro node target h
    rw [rowsOf_len]
    exact (mem_successors_rowsOf.mp h).2
  fits := by rwa [rowsOf_len]

def Digraph.fromLists (lists : List (List Nat)) (hfits : lists.length < usizeMax) : Digraph :=
  .fromEdges lists.length (lists.zipIdx.flatMap fun row => row.1.map fun target => (row.2, target)) hfits

namespace Digraph

def Edge (graph : Digraph) (a b : Nat) : Prop := b ∈ graph.successors a

variable {graph : Digraph} {hfits : nodes < usizeMax}

theorem Edge.source_lt (h : graph.Edge a b) : a < graph.len :=
  (graph.within a b h).1

theorem Edge.target_lt (h : graph.Edge a b) : b < graph.len :=
  (graph.within a b h).2

theorem edge_fromEdges : (fromEdges nodes edges hfits).Edge a b ↔ (a, b) ∈ edges ∧ a < nodes ∧ b < nodes :=
  mem_successors_rowsOf

theorem len_fromEdges : (fromEdges nodes edges hfits).len = nodes :=
  rowsOf_len nodes edges

def reversed (graph : Digraph) : Digraph :=
  .fromEdges graph.len
    ((List.range graph.len).flatMap fun source => (graph.successors source).map fun target => (target, source))
    graph.fits

theorem edge_reversed : graph.reversed.Edge a b ↔ graph.Edge b a := by
  rw [reversed, edge_fromEdges, mem_flatMap]
  constructor
  · rintro ⟨⟨source, -, hmem⟩, -⟩
    rw [mem_map] at hmem
    obtain ⟨target, htarget, heq⟩ := hmem
    cases heq
    exact htarget
  · intro h
    have hlt := h.source_lt
    exact ⟨⟨b, mem_range.mpr hlt, mem_map.mpr ⟨a, h, rfl⟩⟩, h.target_lt, hlt⟩

end Digraph

end Tsuzuri.Kg
