import Tsuzuri.Digraph
import Mathlib.Algebra.BigOperators.Group.Finset.Basic
import Mathlib.Algebra.Order.BigOperators.Group.Finset
import Mathlib.Data.Finset.Max
import Mathlib.Data.Fintype.EquivFin
import Mathlib.Logic.Relation
import Mathlib.Order.WellFounded

/-!
# Topological orders and forests

`topological_order` takes the least node that no node still to come has an edge to.
-/

namespace Tsuzuri.Kg

open List
open Relation (TransGen)
open Function (update)

/-- `indegree[to] += 1` for each edge. -/
def indegrees (graph : Digraph) : Nat → Nat :=
  (range graph.len).foldl (fun indegree node =>
    (graph.successors node).foldl (fun indegree target => update indegree target (indegree target + 1)) indegree)
      fun _ => 0

def release : List Nat → (Nat → Nat) → Finset Nat → Option ((Nat → Nat) × Finset Nat)
  | [], indegree, ready => some (indegree, ready)
  | target :: targets, indegree, ready =>
    if indegree target = 0 then none
    else release targets (update indegree target (indegree target - 1))
      (if indegree target - 1 = 0 then insert target ready else ready)

/-- The loop over the ready nodes, for less than `rounds` rounds. -/
def takeReady (graph : Digraph) : Nat → List Nat → (Nat → Nat) → Finset Nat → Option (List Nat)
  | 0, _, _, _ => none
  | rounds + 1, order, indegree, ready =>
    if h : ready.Nonempty then do
      let node := ready.min' h
      let (indegree, ready) ← release (graph.successors node) indegree (ready.erase node)
      takeReady graph rounds (order ++ [node]) indegree ready
    else some order

def topologicalOrder (graph : Digraph) : Option (Option (List Nat)) := do
  let indegree := indegrees graph
  let ready := (Finset.range graph.len).filter fun node => indegree node = 0
  let order ← takeReady graph (graph.len + 1) [] indegree ready
  some (if order.length = graph.len then some order else none)

/-- Every node once, and every edge from an earlier to a later one. -/
structure Topological (graph : Digraph) (order : List Nat) : Prop where
  nodes : order.Perm (range graph.len)
  forward : ∀ a b, graph.Edge a b → order.idxOf a < order.idxOf b

def Acyclic (graph : Digraph) : Prop := ∀ node, ¬TransGen graph.Edge node node

variable {nodes : List Nat} {n : Nat}

theorem subperm_range (hnodup : nodes.Nodup) (hlt : ∀ v ∈ nodes, v < n) : nodes.Subperm (range n) :=
  subperm_of_subset hnodup fun v hv => mem_range.mpr (hlt v hv)

theorem length_le_of_lt (hnodup : nodes.Nodup) (hlt : ∀ v ∈ nodes, v < n) : nodes.length ≤ n := by
  simpa using (subperm_range hnodup hlt).length_le

theorem nodup_snoc {node : Nat} (h : nodes.Nodup) (hnot : node ∉ nodes) : (nodes ++ [node]).Nodup :=
  nodup_append.mpr ⟨h, nodup_singleton _, fun _ ha _ hb heq => hnot (mem_singleton.mp hb ▸ heq ▸ ha)⟩

/-! ## Counts -/

section Order

variable {graph : Digraph} {order done : List Nat} {node v : Nat}

def owed (graph : Digraph) (order : List Nat) (v : Nat) : Nat :=
  ∑ u ∈ (Finset.range graph.len).filter (· ∉ order), (graph.successors u).count v

theorem count_targets (targets : List Nat) (d : Nat → Nat) :
    targets.foldl (fun d target => update d target (d target + 1)) d v = d v + targets.count v := by
  induction targets generalizing d with
  | nil => rfl
  | cons target targets ih =>
    rw [foldl_cons, ih, Function.update_apply, count_cons]
    by_cases h : v = target
    · subst h
      simp
      omega
    · simp [h, Ne.symm h]

theorem indegrees_eq : indegrees graph v = owed graph [] v := by
  have hfold : ∀ (nodes : List Nat) (d : Nat → Nat),
      nodes.foldl (fun d node => (graph.successors node).foldl (fun d target => update d target (d target + 1)) d) d v =
        d v + (nodes.map fun u => (graph.successors u).count v).sum := by
    intro nodes
    induction nodes with
    | nil => exact fun d => rfl
    | cons node nodes ih =>
      intro d
      rw [foldl_cons, ih, count_targets, map_cons, sum_cons, Nat.add_assoc]
  have hrange : (range graph.len).toFinset = Finset.range graph.len := by
    ext u
    simp
  rw [indegrees, hfold, owed, Nat.zero_add, ← sum_toFinset _ nodup_range, hrange]
  simp

theorem owed_eq_zero : owed graph order v = 0 ↔ ∀ u, graph.Edge u v → u ∈ order := by
  rw [owed, Finset.sum_eq_zero_iff]
  constructor
  · intro h u hu
    by_contra hnot
    exact count_eq_zero.mp (h u (by simp [hu.source_lt, hnot])) hu
  · intro h u hu
    rw [count_eq_zero]
    intro hmem
    simp only [Finset.mem_filter] at hu
    exact hu.2 (h u hmem)

theorem owed_append (hlt : node < graph.len) (hnot : node ∉ order) :
    (graph.successors node).count v + owed graph (order ++ [node]) v = owed graph order v := by
  have herase : (Finset.range graph.len).filter (· ∉ order ++ [node]) =
      ((Finset.range graph.len).filter (· ∉ order)).erase node := by
    ext u
    simp only [Finset.mem_filter, Finset.mem_erase, mem_append, mem_singleton]
    tauto
  rw [owed, herase]
  exact Finset.add_sum_erase _ (fun u => (graph.successors u).count v) (by simp [hlt, hnot])

theorem release_eq (targets : List Nat) : ∀ (d : Nat → Nat) (ready : Finset Nat), (∀ v, targets.count v ≤ d v) →
    ∃ ready', release targets d ready = some (fun v => d v - targets.count v, ready') ∧
      ∀ v, v ∈ ready' ↔ v ∈ ready ∨ v ∈ targets ∧ d v = targets.count v := by
  induction targets with
  | nil => exact fun d ready _ => ⟨ready, rfl, by simp⟩
  | cons target targets ih =>
    intro d ready hle
    have hpos := hle target
    rw [count_cons_self] at hpos
    obtain ⟨ready', hrun, hmem⟩ := ih (update d target (d target - 1))
      (if d target - 1 = 0 then insert target ready else ready) (by
      intro v
      have hv := hle v
      by_cases h : v = target
      · subst h
        rw [Function.update_self]
        omega
      · rw [Function.update_of_ne h]
        rwa [count_cons_of_ne (Ne.symm h)] at hv)
    refine ⟨ready', ?_, fun v => ?_⟩
    · rw [release, if_neg (by omega), hrun]
      congr 2
      funext v
      by_cases h : v = target
      · subst h
        rw [Function.update_self, count_cons_self]
        omega
      · rw [Function.update_of_ne h, count_cons_of_ne (Ne.symm h)]
    · rw [hmem]
      by_cases h : v = target
      · subst h
        have hpos := count_pos_iff (a := v) (l := targets)
        rw [Function.update_self, count_cons_self]
        split
        · simp only [Finset.mem_insert, mem_cons, true_or, true_and, true_iff]
          exact .inr (by omega)
        · simp only [mem_cons, true_or, true_and]
          refine or_congr_right ⟨fun hv => by omega, fun hv => ⟨hpos.mp (by omega), by omega⟩⟩
      · rw [Function.update_of_ne h, count_cons_of_ne (Ne.symm h), mem_cons, or_iff_right h]
        split <;> simp [h]

def Ready (graph : Digraph) (done : List Nat) (v : Nat) : Prop :=
  v < graph.len ∧ v ∉ done ∧ ∀ u, graph.Edge u v → u ∈ done

def Greedy (graph : Digraph) (order : List Nat) : Prop :=
  ∀ done v rest, order = done ++ v :: rest → Ready graph done v ∧ ∀ w, Ready graph done w → v ≤ w

theorem Greedy.mem (h : Greedy graph order) (hv : v ∈ order) : v < graph.len ∧ ∀ u, graph.Edge u v → u ∈ order := by
  obtain ⟨done, rest, rfl⟩ := append_of_mem hv
  obtain ⟨⟨hlt, -, hedges⟩, -⟩ := h done v rest rfl
  exact ⟨hlt, fun u hu => mem_append_left _ (hedges u hu)⟩

theorem Greedy.snoc (h : Greedy graph order) (hnode : Ready graph order node)
    (hleast : ∀ w, Ready graph order w → node ≤ w) : Greedy graph (order ++ [node]) := by
  intro done v rest heq
  rcases eq_nil_or_concat rest with rfl | ⟨rest, last, rfl⟩
  · obtain ⟨rfl, hv⟩ := append_inj' heq rfl
    obtain rfl : node = v := by simpa using hv
    exact ⟨hnode, hleast⟩
  · rw [concat_eq_append, ← cons_append, ← append_assoc] at heq
    exact h done v rest (append_inj' heq rfl).1

variable {rest : List Nat}

theorem idxOf_split (h : v ∉ done) : (done ++ v :: rest).idxOf v = done.length := by
  rw [idxOf_append_of_notMem h, idxOf_cons_self, Nat.add_zero]

theorem Greedy.topological (h : Greedy graph order) (hnodup : order.Nodup) (hlen : order.length = graph.len) :
    Topological graph order := by
  have hperm : order.Perm (range graph.len) :=
    (subperm_range hnodup fun v hv => (h.mem hv).1).perm_of_length_le (by rw [length_range, hlen])
  refine ⟨hperm, fun a b hedge => ?_⟩
  obtain ⟨done, rest, heq⟩ := append_of_mem (hperm.mem_iff.mpr (mem_range.mpr hedge.target_lt))
  obtain ⟨⟨-, hnot, hedges⟩, -⟩ := h done b rest heq
  rw [heq, idxOf_split hnot, idxOf_append_of_mem (hedges a hedge)]
  exact idxOf_lt_length_of_mem (hedges a hedge)

theorem Topological.ready (h : Topological graph (done ++ v :: rest)) : Ready graph done v := by
  have hnot : v ∉ done := fun hmem =>
    (nodup_append.mp (h.nodes.nodup_iff.mpr nodup_range)).2.2 v hmem v mem_cons_self rfl
  refine ⟨mem_range.mp (h.nodes.mem_iff.mp (by simp)), hnot, fun u hedge => ?_⟩
  have hlt := h.forward u v hedge
  rw [idxOf_split hnot] at hlt
  by_contra hu
  rw [idxOf_append_of_notMem hu] at hlt
  omega

theorem Greedy.least (h : Greedy graph order) (hlen : order.length = graph.len) {other : List Nat}
    (hother : Topological graph other) : order = other ∨ Lex (· < ·) order other := by
  have hsame : order.length = other.length := by rw [hlen, hother.nodes.length_eq, length_range]
  suffices hrest : ∀ rest done other', order = done ++ rest → other = done ++ other' →
      rest.length = other'.length → rest = other' ∨ Lex (· < ·) rest other' from hrest order [] other rfl rfl hsame
  intro rest
  induction rest with
  | nil =>
    intro done other' _ _ hlength
    exact .inl (length_eq_zero_iff.mp hlength.symm).symm
  | cons v rest ih =>
    intro done other' heq heq' hlength
    obtain - | ⟨w, other'⟩ := other'
    · cases hlength
    · obtain ⟨-, hle⟩ := h done v rest heq
      rcases (hle w (heq' ▸ hother).ready).lt_or_eq with hlt | rfl
      · exact .inr (.rel hlt)
      · exact (ih (done ++ [v]) other' (by simp [heq]) (by simp [heq']) (Nat.succ.inj hlength)).imp
          (fun h => by rw [h]) .cons

structure TakeInv (graph : Digraph) (order : List Nat) (indegree : Nat → Nat) (ready : Finset Nat) : Prop where
  greedy : Greedy graph order
  nodup : order.Nodup
  counts : ∀ v, indegree v = owed graph order v
  ready : ∀ v, v ∈ ready ↔ Ready graph order v

theorem TakeInv.step {indegree : Nat → Nat} {ready : Finset Nat} (h : TakeInv graph order indegree ready)
    (hne : ready.Nonempty) :
    ∃ indegree' ready', release (graph.successors (ready.min' hne)) indegree (ready.erase (ready.min' hne)) =
        some (indegree', ready') ∧ TakeInv graph (order ++ [ready.min' hne]) indegree' ready' := by
  have hnode := (h.ready _).mp (ready.min'_mem hne)
  have hleast : ∀ w, Ready graph order w → ready.min' hne ≤ w := fun w hw => ready.min'_le w ((h.ready w).mpr hw)
  generalize ready.min' hne = node at hnode hleast ⊢
  have howed : ∀ v, (graph.successors node).count v + owed graph (order ++ [node]) v = indegree v := fun v => by
    rw [h.counts, owed_append hnode.1 hnode.2.1]
  obtain ⟨ready', hrun, hmem⟩ := release_eq (graph.successors node) indegree (ready.erase node) fun v => by
    have := howed v
    omega
  refine ⟨_, ready', hrun, h.greedy.snoc hnode hleast, nodup_snoc h.nodup hnode.2.1, fun v => ?_, fun v => ?_⟩
  · have := howed v
    omega
  · have hcount := howed v
    have hzero := @owed_eq_zero graph (order ++ [node]) v
    rw [hmem, Finset.mem_erase, h.ready]
    constructor
    · rintro (⟨hne', hlt, hnot, hedges⟩ | ⟨hedge, heq⟩)
      · exact ⟨hlt, by simp [hnot, hne'], fun u hu => mem_append_left _ (hedges u hu)⟩
      · refine ⟨(graph.within _ _ hedge).2, ?_, hzero.mp (by omega)⟩
        rw [mem_append, mem_singleton]
        rintro (hv | rfl)
        · exact hnode.2.1 ((h.greedy.mem hv).2 node hedge)
        · exact hnode.2.1 (hnode.2.2 v hedge)
    · rintro ⟨hlt, hnot, hedges⟩
      rw [mem_append, mem_singleton, not_or] at hnot
      have hdone := hzero.mpr hedges
      by_cases hedge : v ∈ graph.successors node
      · exact .inr ⟨hedge, by omega⟩
      · rw [count_eq_zero.mpr hedge, hdone, h.counts] at hcount
        exact .inl ⟨hnot.2, hlt, hnot.1, owed_eq_zero.mp hcount.symm⟩

theorem takeReady_eq (rounds : Nat) : ∀ {order : List Nat} {indegree : Nat → Nat} {ready : Finset Nat},
    TakeInv graph order indegree ready → graph.len < rounds + order.length →
    ∃ result, takeReady graph rounds order indegree ready = some result ∧ Greedy graph result ∧ result.Nodup ∧
      ∀ v, ¬Ready graph result v := by
  induction rounds with
  | zero =>
    intro order indegree ready h hlen
    have := length_le_of_lt h.nodup fun v hv => (h.greedy.mem hv).1
    omega
  | succ rounds ih =>
    intro order indegree ready h hlen
    rw [takeReady]
    split
    · rename_i hne
      obtain ⟨indegree', ready', hrun, hinv⟩ := h.step hne
      obtain ⟨result, htake, hresult⟩ := ih hinv (by simp; omega)
      exact ⟨result, by simp [hrun, htake], hresult⟩
    · rename_i hempty
      refine ⟨order, rfl, h.greedy, h.nodup, fun v hv => hempty ⟨v, (h.ready v).mpr hv⟩⟩

theorem Topological.acyclic (h : Topological graph order) : Acyclic graph := by
  have hpath : ∀ {a b}, TransGen graph.Edge a b → order.idxOf a < order.idxOf b := by
    intro a b hab
    induction hab with
    | single hedge => exact h.forward _ _ hedge
    | tail _ hedge ih => exact ih.trans (h.forward _ _ hedge)
  exact fun node hcycle => (hpath hcycle).false

theorem length_of_acyclic (h : Acyclic graph) (hgreedy : Greedy graph order) (hnodup : order.Nodup)
    (hstuck : ∀ v, ¬Ready graph order v) : order.length = graph.len := by
  by_contra hlen
  let path : Fin graph.len → Fin graph.len → Prop := fun a b => TransGen graph.Edge a b
  have : IsTrans _ path := ⟨fun _ _ _ hab hbc => hab.trans hbc⟩
  have : Std.Irrefl path := ⟨fun a => h a⟩
  obtain ⟨v, hv, hnot⟩ : ∃ v, v < graph.len ∧ v ∉ order := by
    by_contra hall
    push Not at hall
    have hsub : range graph.len ⊆ order := fun v hv => hall v (mem_range.mp hv)
    have := (subperm_of_subset nodup_range hsub).length_le
    rw [length_range] at this
    exact hlen (Nat.le_antisymm (length_le_of_lt hnodup fun v hv => (hgreedy.mem hv).1) this)
  obtain ⟨m, hm, hmin⟩ := (Finite.wellFounded_of_trans_of_irrefl path).has_min {w | w.1 ∉ order} ⟨⟨v, hv⟩, hnot⟩
  refine hstuck m ⟨m.2, hm, fun u hedge => ?_⟩
  by_contra hu
  exact hmin ⟨u, hedge.source_lt⟩ hu (.single hedge)

def OrderFound (graph : Digraph) (result : Option (List Nat)) : Prop :=
  (result.isSome = true ↔ Acyclic graph) ∧ ∀ order, result = some order → Topological graph order ∧
    ∀ other, Topological graph other → order = other ∨ Lex (· < ·) order other

theorem topologicalOrder_eq (graph : Digraph) :
    ∃ result, topologicalOrder graph = some result ∧ OrderFound graph result := by
  have hstart : TakeInv graph [] (indegrees graph)
      ((Finset.range graph.len).filter fun node => indegrees graph node = 0) := by
    refine ⟨fun done v rest h => by simp at h, nodup_nil, fun v => indegrees_eq, fun v => ?_⟩
    simp only [Finset.mem_filter, Finset.mem_range, indegrees_eq, owed_eq_zero, Ready, not_mem_nil,
      not_false_eq_true, true_and]
  obtain ⟨order, hrun, hgreedy, hnodup, hstuck⟩ := takeReady_eq (graph.len + 1) hstart (by simp)
  refine ⟨if order.length = graph.len then some order else none, by simp [topologicalOrder, hrun], ?_, ?_⟩
  · split
    · rename_i hlen
      simpa using (hgreedy.topological hnodup hlen).acyclic
    · rename_i hlen
      simpa using fun h => hlen (length_of_acyclic h hgreedy hnodup hstuck)
  · intro result hresult
    split at hresult
    · rename_i hlen
      cases hresult
      exact ⟨hgreedy.topological hnodup hlen, fun other hother => hgreedy.least hlen hother⟩
    · cases hresult

end Order

/-! ## Forests -/

inductive Seen
  | unseen | walking | done
deriving DecidableEq

def parentOf (parents : List (Option Nat)) (node : Nat) : Option Nat :=
  match parents[node]? with
  | some (some parent) => if parent < parents.length then some parent else none
  | _ => none

/-- A walk of less than `steps` steps, and where it stops. -/
def walkFrom (parents : List (Option Nat)) :
    Nat → (Nat → Seen) → List Nat → Nat → Option ((Nat → Seen) × List Nat × Nat)
  | 0, _, _, _ => none
  | steps + 1, state, walk, node =>
    if state node = .unseen then
      match parentOf parents node with
      | some parent => walkFrom parents steps (update state node .walking) (walk ++ [node]) parent
      | none => some (update state node .walking, walk ++ [node], node)
    else some (state, walk, node)

def cycleFrom (parents : List (Option Nat)) : List Nat → (Nat → Seen) → Option (Option Nat)
  | [], _ => some none
  | start :: starts, state => do
    let (state, walk, node) ← walkFrom parents (parents.length + 1) state [] start
    if state node = .walking ∧ (parentOf parents node).isSome then some (some node)
    else cycleFrom parents starts fun v => if v ∈ walk then .done else state v

def forestCycle (parents : List (Option Nat)) : Option (Option Nat) :=
  cycleFrom parents (range parents.length) fun _ => .unseen

section Forest

variable {parents : List (Option Nat)} {node v : Nat}

def Parent (parents : List (Option Nat)) (a b : Nat) : Prop := parentOf parents a = some b

/-- Following the parents from a node ends at a root. -/
inductive Ends (parents : List (Option Nat)) : Nat → Prop
  | root {node : Nat} (h : parentOf parents node = none) : Ends parents node
  | step {node parent : Nat} (h : Parent parents node parent) (hparent : Ends parents parent) : Ends parents node

theorem Parent.lt {a b : Nat} (h : Parent parents a b) : a < parents.length ∧ b < parents.length := by
  unfold Parent parentOf at h
  split at h
  · rename_i parent hget
    split at h
    · rename_i hlt
      cases h
      exact ⟨(List.getElem?_eq_some_iff.mp hget).1, hlt⟩
    · cases h
  · cases h

theorem Ends.of_path (h : Ends parents node) (hpath : TransGen (Parent parents) v node) : Ends parents v := by
  induction hpath using TransGen.head_induction_on with
  | single hedge => exact .step hedge h
  | head hedge _ ih => exact .step hedge ih

theorem Ends.not_cycle (h : Ends parents node) : ¬TransGen (Parent parents) node node := by
  induction h with
  | root hroot =>
    intro hcycle
    obtain ⟨b, hedge, -⟩ := TransGen.head'_iff.mp hcycle
    cases hroot.symm.trans hedge
  | step hedge _ ih =>
    intro hcycle
    obtain ⟨b, hedge', hback⟩ := TransGen.head'_iff.mp hcycle
    obtain rfl := Option.some.inj (hedge.symm.trans hedge')
    exact ih (.tail' hback hedge)

/-- The states, in front of a node to which the nodes of the walk lead. -/
structure WalkInv (parents : List (Option Nat)) (state : Nat → Seen) (walk : List Nat) : Prop where
  nodup : walk.Nodup
  within : ∀ v ∈ walk, v < parents.length
  walking : ∀ v, state v = .walking ↔ v ∈ walk
  done : ∀ v, state v = .done → Ends parents v

theorem walkFrom_eq (steps : Nat) : ∀ {state : Nat → Seen} {walk : List Nat} {node : Nat},
    WalkInv parents state walk → (∀ v ∈ walk, TransGen (Parent parents) v node) → node < parents.length →
    parents.length < steps + walk.length →
    ∃ state' walk' last, walkFrom parents steps state walk node = some (state', walk', last) ∧
      WalkInv parents state' walk' ∧ (∀ v ∈ walk, v ∈ walk') ∧ (node ∈ walk' ∨ state' node = .done) ∧
      (state' last = .walking ∧ (parentOf parents last).isSome → TransGen (Parent parents) last last) ∧
      (¬(state' last = .walking ∧ (parentOf parents last).isSome) → ∀ v ∈ walk', Ends parents v) := by
  induction steps with
  | zero =>
    intro state walk node h _ _ hlen
    have := length_le_of_lt h.nodup h.within
    omega
  | succ steps ih =>
    intro state walk node h hpaths hnode hlen
    rw [walkFrom]
    split
    · rename_i hunseen
      have hnot : node ∉ walk := fun hmem => by
        rw [(h.walking node).mpr hmem] at hunseen
        cases hunseen
      have hinv : WalkInv parents (update state node .walking) (walk ++ [node]) := by
        refine ⟨nodup_snoc h.nodup hnot, fun v hv => ?_, fun v => ?_, fun v => ?_⟩
        · rcases mem_append.mp hv with hv | hv
          · exact h.within v hv
          · exact mem_singleton.mp hv ▸ hnode
        · by_cases heq : v = node
          · simp [heq]
          · simp [heq, h.walking]
        · by_cases heq : v = node
          · simp [heq]
          · rw [Function.update_of_ne heq]
            exact h.done v
      split
      · rename_i parent hparent
        have hedge : Parent parents node parent := hparent
        obtain ⟨state', walk', last, hrun, hinv', hsub, -, hends⟩ := ih hinv (fun v hv => by
          rcases mem_append.mp hv with hv | hv
          · exact (hpaths v hv).tail hedge
          · exact mem_singleton.mp hv ▸ .single hedge) hedge.lt.2 (by rw [length_append, length_singleton]; omega)
        exact ⟨state', walk', last, hrun, hinv', fun v hv => hsub v (mem_append_left _ hv),
          .inl (hsub node (by simp)), hends⟩
      · rename_i hroot
        refine ⟨_, _, node, rfl, hinv, fun v hv => mem_append_left _ hv, .inl (by simp), fun hlast => ?_,
          fun _ v hv => ?_⟩
        · rw [hroot] at hlast
          cases hlast.2
        · rcases mem_append.mp hv with hv | hv
          · exact (Ends.root hroot).of_path (hpaths v hv)
          · exact mem_singleton.mp hv ▸ .root hroot
    · rename_i hseen
      have hcases : node ∈ walk ∨ state node = .done := by
        rw [← h.walking]
        cases hstate : state node
        · exact absurd hstate hseen
        · exact .inl rfl
        · exact .inr rfl
      refine ⟨state, walk, node, rfl, h, fun v hv => hv, hcases, fun hlast => ?_, fun hlast v hv => ?_⟩
      · exact hpaths node ((h.walking node).mp hlast.1)
      · rcases hcases with hmem | hdone
        · obtain ⟨b, hedge, -⟩ := TransGen.head'_iff.mp (hpaths node hmem)
          exact absurd ⟨(h.walking node).mpr hmem, Option.isSome_of_eq_some hedge⟩ hlast
        · exact (h.done node hdone).of_path (hpaths v hv)

theorem cycleFrom_eq (starts : List Nat) : ∀ {state : Nat → Seen}, WalkInv parents state [] →
    (∀ v ∈ starts, v < parents.length) →
    ∃ result, cycleFrom parents starts state = some result ∧ (result = none → ∀ v ∈ starts, Ends parents v) ∧
      ∀ v, result = some v → TransGen (Parent parents) v v := by
  induction starts with
  | nil => exact fun _ _ => ⟨none, rfl, by simp, by simp⟩
  | cons start starts ih =>
    intro state h hlt
    obtain ⟨state', walk, last, hrun, hinv, -, hreached, hcycle, hends⟩ :=
      walkFrom_eq (parents.length + 1) h (by simp) (hlt start mem_cons_self) (by simp)
    rw [cycleFrom, hrun]
    simp only [Option.bind_eq_bind, Option.bind_some]
    split
    · rename_i hlast
      refine ⟨some last, rfl, by simp, fun v hv => ?_⟩
      cases hv
      exact hcycle hlast
    · rename_i hlast
      have hinv' : WalkInv parents (fun v => if v ∈ walk then Seen.done else state' v) [] := by
        refine ⟨nodup_nil, by simp, fun v => ?_, fun v => ?_⟩
        · have := hinv.walking v
          simp only [not_mem_nil, iff_false]
          split <;> simp_all
        · intro hv
          split at hv
          · rename_i hmem
            exact hends hlast v hmem
          · exact hinv.done v hv
      obtain ⟨result, hrun', hnone, hsome⟩ := ih hinv' fun v hv => hlt v (mem_cons_of_mem _ hv)
      refine ⟨result, hrun', fun hresult v hv => ?_, hsome⟩
      rcases mem_cons.mp hv with rfl | hv
      · exact hreached.elim (hends hlast v) (hinv.done v)
      · exact hnone hresult v hv

def CycleFound (parents : List (Option Nat)) (result : Option Nat) : Prop :=
  (result = none ↔ ∀ v < parents.length, Ends parents v) ∧ ∀ v, result = some v → TransGen (Parent parents) v v

theorem forestCycle_eq (parents : List (Option Nat)) :
    ∃ result, forestCycle parents = some result ∧ CycleFound parents result := by
  have hstart : WalkInv parents (fun _ => .unseen) [] := ⟨nodup_nil, by simp, by simp, fun v hv => by cases hv⟩
  obtain ⟨result, hrun, hnone, hsome⟩ := cycleFrom_eq (range parents.length) hstart fun v hv => mem_range.mp hv
  refine ⟨result, hrun, ⟨fun h v hv => hnone h v (mem_range.mpr hv), fun h => ?_⟩, hsome⟩
  cases result with
  | none => rfl
  | some v =>
    obtain ⟨b, hedge, -⟩ := TransGen.head'_iff.mp (hsome v rfl)
    exact absurd (hsome v rfl) (h v (Parent.lt hedge).1).not_cycle

end Forest

/-- Both searches end with the right answer. -/
theorem orders_right : (∀ graph : Digraph, ∃ result, topologicalOrder graph = some result ∧ OrderFound graph result) ∧
      ∀ parents : List (Option Nat), ∃ result, forestCycle parents = some result ∧ CycleFound parents result :=
  ⟨topologicalOrder_eq, forestCycle_eq⟩

end Tsuzuri.Kg
