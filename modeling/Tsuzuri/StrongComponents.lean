import Mathlib.Logic.Function.Basic
import Tsuzuri.Components
import Tsuzuri.Digraph

/-!
# The strongly connected components of a graph

Tarjan's algorithm with an explicit stack.
-/

namespace Tsuzuri.Kg

structure Tarjan where
  index : Nat → Option Nat
  low : Nat → Nat
  onStack : Nat → Bool
  component : Nat → Option Nat
  stack : List Nat
  nextIndex : Nat
  components : Nat
  frames : List (Nat × Nat)

namespace Tarjan

def indexOf (s : Tarjan) (node : Nat) : Nat := (s.index node).getD 0

def visit (s : Tarjan) (node : Nat) : Tarjan :=
  { s with
    index := Function.update s.index node (some s.nextIndex)
    low := Function.update s.low node s.nextIndex
    nextIndex := s.nextIndex + 1
    stack := node :: s.stack
    onStack := Function.update s.onStack node true
    frames := (node, 0) :: s.frames }

/-- `low[node] = low[node].min(bound)`. -/
def lower (s : Tarjan) (node bound : Nat) : Tarjan :=
  { s with low := Function.update s.low node (min (s.low node) bound) }

/-- The nodes of the stack down to `node` become a component. -/
def popUntil (node : Nat) : List Nat → Tarjan → Tarjan
  | [], s => { s with stack := [] }
  | member :: rest, s =>
    let s' :=
      { s with
        stack := rest
        onStack := Function.update s.onStack member false
        component := Function.update s.component member (some s.components) }
    if member = node then s' else popUntil node rest s'

def popComponent (s : Tarjan) (node : Nat) : Tarjan :=
  let s := popUntil node s.stack s
  { s with components := s.components + 1 }

def tellParent (s : Tarjan) (node : Nat) : Tarjan :=
  match s.frames with
  | (parent, _) :: _ => s.lower parent (s.low node)
  | [] => s

def leave (s : Tarjan) (node : Nat) : Tarjan :=
  let s := s.tellParent node
  if s.low node = s.indexOf node then s.popComponent node else s

/-- One round of `while let Some(..) = frames.last_mut()`. -/
def step (graph : Digraph) (s : Tarjan) : Tarjan :=
  match s.frames with
  | [] => s
  | (node, position) :: frames =>
    match (graph.successors node)[position]? with
    | some successor =>
      let s := { s with frames := (node, position + 1) :: frames }
      if s.index successor = none then s.visit successor
      else if s.onStack successor then s.lower node (s.indexOf successor)
      else s
    | none => { s with frames }.leave node

def unvisited (graph : Digraph) (s : Tarjan) : List Nat → Nat
  | [] => 0
  | node :: nodes =>
    (if s.index node = none then (graph.successors node).length + 1 else 0) + unvisited graph s nodes

def pending (graph : Digraph) : List (Nat × Nat) → Nat
  | [] => 0
  | (node, position) :: frames => ((graph.successors node).length - position + 1) + pending graph frames

def fresh : Tarjan where
  index := fun _ => none
  low := fun _ => 0
  onStack := fun _ => false
  component := fun _ => none
  stack := []
  nextIndex := 0
  components := 0
  frames := []

def search (graph : Digraph) (s : Tarjan) (root : Nat) : Tarjan :=
  if s.index root = none then (step graph)^[unvisited graph fresh (List.range graph.len)] (s.visit root)
  else s

end Tarjan

def stronglyConnected (graph : Digraph) : Nat → Option Nat :=
  ((List.range graph.len).foldl (Tarjan.search graph) Tarjan.fresh).component

end Tsuzuri.Kg
