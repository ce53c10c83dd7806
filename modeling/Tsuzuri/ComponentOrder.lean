import Tsuzuri.StrongComponentsSound
import Tsuzuri.TopologicalOrder

/-!
# Components and orders
-/

namespace Tsuzuri.Kg

open List
open Components (Linked OnCycle)

/-- A graph has a topological order exactly when Tarjan's search finds every node alone in its component and no node
has an edge to itself. -/
theorem topologicalOrder_iff_components (graph : Digraph) : (∃ order, topologicalOrder graph = some (some order)) ↔
      (∀ a b, a < graph.len → b < graph.len → stronglyConnected graph a = stronglyConnected graph b → a = b) ∧
        ∀ a, ¬graph.Edge a a := by
  obtain ⟨result, hresult, hiff, -⟩ := topologicalOrder_eq graph
  have horder : (∃ order, topologicalOrder graph = some (some order)) ↔ Acyclic graph := by
    rw [hresult, ← hiff, Option.isSome_iff_exists]
    simp
  rw [horder]
  constructor
  · refine fun h => ⟨fun a b ha hb hsame => ?_, fun a hedge => h a (.single hedge)⟩
    by_contra hne
    exact h a (((component_eq_iff graph ha hb).mp hsame).onCycle hne)
  · rintro ⟨halone, hloop⟩ a hcycle
    obtain ⟨b, hedge, hlinked⟩ := OnCycle.exists_edge hcycle
    have hedge : graph.Edge a b := hedge
    obtain rfl := halone a b hedge.source_lt hedge.target_lt
      ((component_eq_iff graph hedge.source_lt hedge.target_lt).mpr hlinked)
    exact hloop a hedge

end Tsuzuri.Kg
