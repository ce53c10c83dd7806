import Mathlib.Data.List.Sort
import Mathlib.Logic.Function.Basic
import Tsuzuri.Digraph

/-!
# Searches of the knowledge graph

`bfs` goes one layer at a time, in the order of the nodes, and stops after a depth or when a number
of nodes beyond the start nodes is reached.
-/

namespace Tsuzuri.Kg

open List

/-- The edges from the nearest start node, and the node of the previous layer that reached it first. -/
structure Visit where
  node : Nat
  depth : Nat
  parent : Option Nat
 

/-- `layer.sort_unstable()`. -/
def sortNodes (layer : List Nat) : List Nat := layer.mergeSort fun a b => a ≤ b

/-- What `bfs` keeps while it goes through a layer. -/
structure Frontier where
  seen : Nat → Bool
  reached : Nat
  next : List Nat
  visits : List Visit

def startNode (graph : Digraph) (s : Frontier) (node : Nat) : Frontier :=
  if node < graph.len && !s.seen node then
    { s with
      seen := Function.update s.seen node true
      next := s.next ++ [node]
      visits := s.visits ++ [{ node, depth := 0, parent := none }] }
  else s

def reachSuccessor (limit level source : Nat) (s : Frontier) (target : Nat) : Except (List Visit) Frontier :=
  if s.seen target then .ok s
  else if s.reached = limit then .error s.visits
  else
    .ok { seen := Function.update s.seen target true
          reached := s.reached + 1
          next := s.next ++ [target]
          visits := s.visits ++ [{ node := target, depth := level, parent := some source }] }

def reachLayer (graph : Digraph) (limit level : Nat) (layer : List Nat) (s : Frontier) : Except (List Visit) Frontier :=
  layer.foldlM (fun s source => (graph.successors source).foldlM (reachSuccessor limit level source) s) s

/-- The layers from `level` on, of which `layers` are left. -/
def bfsLayers (graph : Digraph) (limit : Nat) : Nat → Nat → Frontier → List Visit
  | 0, _, s => s.visits
  | layers + 1, level, s =>
    match reachLayer graph limit level (sortNodes s.next) { s with next := [] } with
    | .error visits => visits
    | .ok s => if s.next.isEmpty then s.visits else bfsLayers graph limit layers (level + 1) s

def bfs (graph : Digraph) (start : List Nat) (depth limit : Nat) : List Visit :=
  bfsLayers graph limit depth 1
    (start.foldl (startNode graph) { seen := fun _ => false, reached := 0, next := [], visits := [] })

/-- Whether some node of layer `depth` has a successor that `bfs` with this depth leaves unvisited. -/
def reachesBeyond (graph : Digraph) (start : List Nat) (depth : Nat) : Bool :=
  let visits := bfs graph start depth usizeMax
  let seen := visits.foldl (fun seen visit => Function.update seen visit.node true) fun _ => false
  (visits.filter fun visit => visit.depth = depth).any fun visit =>
    (graph.successors visit.node).any fun target => !seen target

def reverseReach (graph : Digraph) (targets : List Nat) (depth : Nat) : List Visit :=
  bfs graph.reversed targets depth usizeMax

/-! ## Shortest paths -/

/-- What `shortest_path` keeps while it goes through a layer. -/
structure Trail where
  seen : Nat → Bool
  parent : Nat → Option Nat
  next : List Nat

/-- The path from the start to `node`, in front of `path`, of at most `fuel` steps back. -/
def followBack (parent : Nat → Option Nat) : Nat → Nat → List Nat → List Nat
  | 0, _, path => path
  | fuel + 1, node, path =>
    match parent node with
    | some previous => followBack parent fuel previous (previous :: path)
    | none => path

def trailSuccessor (target source : Nat) (s : Trail) (successor : Nat) : Except (Nat → Option Nat) Trail :=
  if s.seen successor then .ok s
  else
    let parent := Function.update s.parent successor (some source)
    if successor = target then .error parent
    else
      .ok { seen := Function.update s.seen successor true
            parent
            next := s.next ++ [successor] }

def trailLayer (graph : Digraph) (target : Nat) (layer : List Nat) (s : Trail) : Except (Nat → Option Nat) Trail :=
  layer.foldlM (fun s source => (graph.successors source).foldlM (trailSuccessor target source) s) s

def trailLayers (graph : Digraph) (target depth : Nat) : Nat → Trail → Option (List Nat)
  | 0, _ => none
  | layers + 1, s =>
    match trailLayer graph target (sortNodes s.next) { s with next := [] } with
    | .error parent => some (followBack parent depth target [target])
    | .ok s => if s.next.isEmpty then none else trailLayers graph target depth layers s

def shortestPath (graph : Digraph) (source target depth : Nat) : Option (List Nat) :=
  if source ≥ graph.len || target ≥ graph.len then none
  else if source = target then some [source]
  else
    trailLayers graph target depth depth
      { seen := Function.update (fun _ => false) source true
        parent := fun _ => none
        next := [source] }

/-! ## One layer as a list of edges -/

section Layer

variable {ε σ : Type} {graph : Digraph}

def layerEdges (graph : Digraph) (layer : List Nat) : List (Nat × Nat) :=
  layer.flatMap fun source => (graph.successors source).map fun target => (source, target)

theorem foldlM_layerEdges (step : Nat → σ → Nat → Except ε σ) (layer : List Nat) (s : σ) :
    layer.foldlM (fun s source => (graph.successors source).foldlM (step source) s) s =
      (layerEdges graph layer).foldlM (fun s e => step e.1 s e.2) s := by
  induction layer generalizing s with
  | nil => rfl
  | cons source layer ih =>
    rw [foldlM_cons, layerEdges, flatMap_cons, foldlM_append, foldlM_map]
    refine bind_congr fun s => ?_
    exact ih s

theorem mem_layerEdges {layer : List Nat} {a b : Nat} :
    (a, b) ∈ layerEdges graph layer ↔ a ∈ layer ∧ graph.Edge a b := by
  rw [layerEdges, mem_flatMap]
  constructor
  · rintro ⟨source, hsource, hmem⟩
    obtain ⟨target, htarget, heq⟩ := mem_map.mp hmem
    cases heq
    exact ⟨hsource, htarget⟩
  · rintro ⟨hmem, hedge⟩
    exact ⟨a, hmem, mem_map.mpr ⟨b, hedge, rfl⟩⟩

theorem mem_sortNodes {layer : List Nat} {a : Nat} : a ∈ sortNodes layer ↔ a ∈ layer :=
  (mergeSort_perm _ _).mem_iff

theorem sortNodes_pairwise (layer : List Nat) : (sortNodes layer).Pairwise (· ≤ ·) := by
  refine (pairwise_mergeSort ?_ ?_ layer).imp fun h => of_decide_eq_true h
  · intro a b c hab hbc
    simp only [decide_eq_true_eq] at *
    omega
  · intro a b
    simp only [Bool.or_eq_true, decide_eq_true_eq]
    omega

theorem layerEdges_pairwise {layer : List Nat} (hs : layer.Pairwise (· ≤ ·)) :
    (layerEdges graph layer).Pairwise fun p q => p.1 ≤ q.1 := by
  rw [layerEdges, pairwise_flatMap]
  constructor
  · intro source _
    rw [pairwise_map]
    exact (graph.ascending source).imp fun _ => Nat.le_refl _
  · refine hs.imp fun hle => ?_
    intro p hp q hq
    obtain ⟨_, -, rfl⟩ := mem_map.mp hp
    obtain ⟨_, -, rfl⟩ := mem_map.mp hq
    exact hle

end Layer

end Tsuzuri.Kg
