import Mathlib.Order.Bounds.Basic
import Tsuzuri.Distance
import Tsuzuri.GraphSearch

/-!
# The layers of a search

What a search does with a layer is one list of edges (`layerEdges`), of which the first to each new node counts
(`fresh`).
-/

namespace Tsuzuri.Kg

open Distance List

/-! ## The edges that discover a node -/

def fresh : (Nat → Bool) → List (Nat × Nat) → List (Nat × Nat)
  | _, [] => []
  | seen, e :: edges =>
    if seen e.2 then fresh seen edges else e :: fresh (Function.update seen e.2 true) edges

variable {seen : Nat → Bool} {edges : List (Nat × Nat)} {e : Nat × Nat} {b : Nat}

theorem fresh_cons : fresh seen (e :: edges) =
    if seen e.2 then fresh seen edges else e :: fresh (Function.update seen e.2 true) edges := rfl

theorem mem_of_mem_fresh (h : e ∈ fresh seen edges) : e ∈ edges ∧ seen e.2 = false := by
  induction edges generalizing seen with
  | nil => cases h
  | cons f edges ih =>
    rw [fresh_cons] at h
    split at h
    · exact ⟨mem_cons_of_mem _ (ih h).1, (ih h).2⟩
    · rename_i hf
      rcases mem_cons.mp h with rfl | hmem
      · exact ⟨mem_cons_self, by simpa using hf⟩
      · obtain ⟨hin, hseen⟩ := ih hmem
        refine ⟨mem_cons_of_mem _ hin, ?_⟩
        by_contra hne
        rw [Function.update_apply] at hseen
        split at hseen
        · cases hseen
        · exact hne hseen

theorem mem_fresh_targets : b ∈ (fresh seen edges).map Prod.snd ↔ seen b = false ∧ b ∈ edges.map Prod.snd := by
  induction edges generalizing seen with
  | nil => simp [fresh]
  | cons e edges ih =>
    rw [fresh_cons]
    by_cases he : seen e.2 = true
    · rw [if_pos he, ih, map_cons, mem_cons]
      constructor
      · rintro ⟨hb, hmem⟩
        exact ⟨hb, .inr hmem⟩
      · rintro ⟨hb, rfl | hmem⟩
        · rw [he] at hb
          cases hb
        · exact ⟨hb, hmem⟩
    · rw [if_neg he, map_cons, map_cons, mem_cons, mem_cons, ih]
      by_cases hb : b = e.2
      · subst hb
        simpa using he
      · simp [hb]

theorem fresh_nodup (seen : Nat → Bool) (edges : List (Nat × Nat)) : ((fresh seen edges).map Prod.snd).Nodup := by
  induction edges generalizing seen with
  | nil => exact nodup_nil
  | cons e edges ih =>
    rw [fresh_cons]
    split
    · exact ih seen
    · rw [map_cons, nodup_cons]
      refine ⟨fun hmem => ?_, ih _⟩
      have hseen := (mem_fresh_targets.mp hmem).1
      rw [Function.update_self] at hseen
      cases hseen

theorem fresh_least {f : Nat × Nat} (hs : edges.Pairwise fun p q => p.1 ≤ q.1) (he : e ∈ fresh seen edges)
    (hf : f ∈ edges) (htarget : f.2 = e.2) : e.1 ≤ f.1 := by
  induction edges generalizing seen with
  | nil => cases hf
  | cons g edges ih =>
    rw [fresh_cons] at he
    split at he
    · rename_i hg
      rcases mem_cons.mp hf with rfl | hf
      · have hseen := (mem_of_mem_fresh he).2
        rw [← htarget, hg] at hseen
        cases hseen
      · exact ih hs.of_cons he hf
    · rcases mem_cons.mp he with rfl | he
      · rcases mem_cons.mp hf with rfl | hf
        · exact le_rfl
        · exact rel_of_pairwise_cons hs hf
      · rcases mem_cons.mp hf with rfl | hf
        · have hseen := (mem_of_mem_fresh he).2
          rw [← htarget, Function.update_self] at hseen
          cases hseen
        · exact ih hs.of_cons he hf

def markTargets (seen : Nat → Bool) (edges : List (Nat × Nat)) (b : Nat) : Bool :=
  seen b || decide (b ∈ edges.map Prod.snd)

theorem markTargets_cons (seen : Nat → Bool) (e : Nat × Nat) (edges : List (Nat × Nat)) :
    markTargets (Function.update seen e.2 true) edges = markTargets seen (e :: edges) := by
  funext b
  rw [Bool.eq_iff_iff]
  simp only [markTargets, Function.update_apply, map_cons, mem_cons, Bool.or_eq_true, decide_eq_true_eq]
  split
  · rename_i heq
    simp [heq]
  · rename_i hne
    simp [hne]

theorem markTargets_eq_true : markTargets seen edges b = true ↔ seen b = true ∨ b ∈ edges.map Prod.snd := by
  rw [markTargets, Bool.or_eq_true, decide_eq_true_eq]

def visitOf (level : Nat) (e : Nat × Nat) : Visit := { node := e.2, depth := level, parent := some e.1 }

def Frontier.extend (s : Frontier) (level : Nat) (found : List (Nat × Nat)) : Frontier where
  seen := markTargets s.seen found
  reached := s.reached + found.length
  next := s.next ++ found.map Prod.snd
  visits := s.visits ++ found.map (visitOf level)

theorem Frontier.extend_nil (s : Frontier) (level : Nat) : s.extend level [] = s := by
  have hseen : markTargets s.seen [] = s.seen := by
    funext b
    simp [markTargets]
  simp [Frontier.extend, hseen]

theorem reachSuccessors_eq (limit level : Nat) (edges : List (Nat × Nat)) (s : Frontier) (hlimit : s.reached ≤ limit) :
    edges.foldlM (fun s e => reachSuccessor limit level e.1 s e.2) s =
      if (fresh s.seen edges).length ≤ limit - s.reached then .ok (s.extend level (fresh s.seen edges))
      else .error (s.visits ++ ((fresh s.seen edges).take (limit - s.reached)).map (visitOf level)) := by
  induction edges generalizing s with
  | nil =>
    rw [fresh, length_nil, if_pos (Nat.zero_le _), Frontier.extend_nil]
    rfl
  | cons e edges ih =>
    rw [foldlM_cons, fresh, reachSuccessor]
    by_cases hseen : s.seen e.2 = true
    · rw [if_pos hseen, if_pos hseen]
      exact ih s hlimit
    · rw [if_neg hseen, if_neg hseen]
      by_cases hfull : s.reached = limit
      · rw [if_pos hfull, hfull, Nat.sub_self, if_neg (by simp)]
        simp [bind, Except.bind]
      · rw [if_neg hfull]
        have hstep := ih
          { seen := Function.update s.seen e.2 true, reached := s.reached + 1, next := s.next ++ [e.2]
            visits := s.visits ++ [visitOf level e] } (by simp only; omega)
        obtain ⟨room, hroom⟩ : ∃ room, limit - s.reached = room + 1 := ⟨limit - s.reached - 1, by omega⟩
        have hroom' : limit - (s.reached + 1) = room := by omega
        simp only [hroom', Frontier.extend, markTargets_cons] at hstep
        simp only [hroom, length_cons, Nat.add_le_add_iff_right, take_succ_cons, map_cons, Frontier.extend]
        refine hstep.trans ?_
        split
        · simp [Nat.add_assoc, Nat.add_comm 1]
        · simp

/-! ## The visits of a search -/

section Visits

variable {graph : Digraph} {start : List Nat}

def StartNode (graph : Digraph) (start : List Nat) (a : Nat) : Prop := a ∈ start ∧ a < graph.len

abbrev Dist (graph : Digraph) (start : List Nat) : Nat → Nat → Prop :=
  IsDistance graph.Edge (StartNode graph start)

def LeastParent (graph : Digraph) (start : List Nat) (v : Visit) : Prop :=
  match v.parent with
  | none => v.depth = 0
  | some p => ∃ d, v.depth = d + 1 ∧ IsLeast {q | Dist graph start d q ∧ graph.Edge q v.node} p

/-- What is right of the visits of a search, whether or not it came to its end. -/
structure RightVisits (graph : Digraph) (start : List Nat) (depth : Nat) (visits : List Visit) : Prop where
  distance : ∀ v ∈ visits, v.depth ≤ depth ∧ Dist graph start v.depth v.node
  parent : ∀ v ∈ visits, LeastParent graph start v
  once : (visits.map Visit.node).Nodup

def beyond (visits : List Visit) : Nat := visits.countP fun v => 0 < v.depth

/-- The nodes seen after the layers up to `level`, and the last of these layers. -/
structure SeenLayers (graph : Digraph) (start : List Nat) (level : Nat) (seen : Nat → Bool) (layer : List Nat) :
    Prop where
  seen : ∀ a, seen a = true ↔ ∃ d ≤ level, Dist graph start d a
  next : ∀ a, a ∈ layer ↔ Dist graph start level a

def discovered (graph : Digraph) (seen : Nat → Bool) (layer : List Nat) : List (Nat × Nat) :=
  fresh seen (layerEdges graph (sortNodes layer))

variable {a d : Nat} {taken : List Nat}

theorem dist_zero : Dist graph start 0 a ↔ a ∈ start ∧ a < graph.len := isDistance_zero

section Seen

variable {level : Nat} {seen : Nat → Bool} {layer : List Nat}

theorem SeenLayers.sound (h : SeenLayers graph start level seen layer) (he : e ∈ discovered graph seen layer) :
    Dist graph start (level + 1) e.2 ∧ IsLeast {q | Dist graph start level q ∧ graph.Edge q e.2} e.1 := by
  obtain ⟨hmem, hunseen⟩ := mem_of_mem_fresh he
  obtain ⟨hlayer, hedge⟩ := mem_layerEdges.mp hmem
  have hsource := (h.next e.1).mp (mem_sortNodes.mp hlayer)
  refine ⟨hsource.succ hedge fun m hle hm => ?_, ⟨hsource, hedge⟩, ?_⟩
  · rw [(h.seen e.2).mpr ⟨m, hle, hm⟩] at hunseen
    cases hunseen
  · rintro q ⟨hq, hqe⟩
    have hin : (q, e.2) ∈ layerEdges graph (sortNodes layer) :=
      mem_layerEdges.mpr ⟨mem_sortNodes.mpr ((h.next q).mpr hq), hqe⟩
    exact fresh_least (layerEdges_pairwise (sortNodes_pairwise _)) he hin rfl

theorem SeenLayers.complete (h : SeenLayers graph start level seen layer) :
    b ∈ (discovered graph seen layer).map Prod.snd ↔ Dist graph start (level + 1) b := by
  constructor
  · intro hb
    obtain ⟨e, he, rfl⟩ := mem_map.mp hb
    exact (h.sound he).1
  · intro hb
    refine mem_fresh_targets.mpr ⟨?_, ?_⟩
    · by_contra hseen
      rw [Bool.not_eq_false, h.seen] at hseen
      obtain ⟨d, hle, hd⟩ := hseen
      have := hd.unique hb
      omega
    · obtain ⟨a, ha, hedge⟩ := hb.pred
      exact mem_map.mpr ⟨(a, b), mem_layerEdges.mpr ⟨mem_sortNodes.mpr ((h.next a).mpr ha), hedge⟩, rfl⟩

theorem SeenLayers.extend (h : SeenLayers graph start level seen layer) :
    SeenLayers graph start (level + 1) (markTargets seen (discovered graph seen layer))
      ((discovered graph seen layer).map Prod.snd) := by
  refine ⟨fun a => ?_, fun a => h.complete⟩
  rw [markTargets_eq_true, h.complete, h.seen]
  constructor
  · rintro (⟨d, hle, hd⟩ | hd)
    · exact ⟨d, hle.trans (Nat.le_succ _), hd⟩
    · exact ⟨level + 1, le_rfl, hd⟩
  · rintro ⟨d, hle, hd⟩
    rcases Nat.lt_or_ge level d with hlt | hge
    · obtain rfl : d = level + 1 := by omega
      exact .inr hd
    · exact .inl ⟨d, hge, hd⟩

theorem SeenLayers.not_dist (h : SeenLayers graph start level seen layer) (hempty : layer.isEmpty = true)
    (hle : level ≤ d) : ¬ Dist graph start d a := by
  intro hd
  obtain ⟨b, hb⟩ := hd.below hle
  have hmem := (h.next b).mpr hb
  rw [isEmpty_iff.mp hempty] at hmem
  cases hmem

end Seen

structure Layers (graph : Digraph) (start : List Nat) (level : Nat) (s : Frontier) : Prop
    extends SeenLayers graph start level s.seen s.next where
  visits : RightVisits graph start level s.visits
  all : ∀ a, s.seen a = true ↔ ∃ v ∈ s.visits, v.node = a
  reached : s.reached = beyond s.visits

variable {level : Nat} {s : Frontier}

theorem Layers.rightVisits_append (h : Layers graph start level s) {found : List (Nat × Nat)}
    (hsub : found.Sublist (discovered graph s.seen s.next)) :
    RightVisits graph start (level + 1) (s.visits ++ found.map (visitOf (level + 1))) := by
  constructor
  · intro v hv
    rcases mem_append.mp hv with hv | hv
    · exact ⟨(h.visits.distance v hv).1.trans (Nat.le_succ _), (h.visits.distance v hv).2⟩
    · obtain ⟨e, he, rfl⟩ := mem_map.mp hv
      exact ⟨le_rfl, (h.sound (hsub.subset he)).1⟩
  · intro v hv
    rcases mem_append.mp hv with hv | hv
    · exact h.visits.parent v hv
    · obtain ⟨e, he, rfl⟩ := mem_map.mp hv
      exact ⟨level, rfl, (h.sound (hsub.subset he)).2⟩
  · rw [map_append, map_map, nodup_append]
    refine ⟨h.visits.once, (fresh_nodup _ _).sublist (hsub.map Prod.snd), ?_⟩
    rintro a ha b hb rfl
    obtain ⟨v, hv, hva⟩ := mem_map.mp ha
    obtain ⟨e, he, heb⟩ := mem_map.mp hb
    have hunseen := (mem_of_mem_fresh (hsub.subset he)).2
    rw [(h.all e.2).mpr ⟨v, hv, hva.trans heb.symm⟩] at hunseen
    cases hunseen

theorem beyond_append (visits : List Visit) (found : List (Nat × Nat)) (level : Nat) :
    beyond (visits ++ found.map (visitOf (level + 1))) = beyond visits + found.length := by
  have hall : (found.map (visitOf (level + 1))).countP (fun v => 0 < v.depth) = found.length := by
    rw [countP_map, countP_eq_length.mpr]
    intro e _
    simp [visitOf]
  rw [beyond, countP_append, hall, beyond]

theorem Layers.extend (h : Layers graph start level s) : Layers graph start (level + 1)
      (Frontier.extend { s with next := [] } (level + 1) (discovered graph s.seen s.next)) := by
  refine { h.toSeenLayers.extend with
    visits := h.rightVisits_append (List.Sublist.refl _)
    all := fun a => ?_
    reached := ?_ }
  · show markTargets s.seen (discovered graph s.seen s.next) a = true ↔ _
    rw [markTargets_eq_true, h.all]
    constructor
    · rintro (⟨v, hv, hva⟩ | hmem)
      · exact ⟨v, mem_append_left _ hv, hva⟩
      · obtain ⟨e, he, rfl⟩ := mem_map.mp hmem
        exact ⟨_, mem_append_right _ (mem_map_of_mem he), rfl⟩
    · rintro ⟨v, hv, rfl⟩
      rcases mem_append.mp hv with hv | hv
      · exact .inl ⟨v, hv, rfl⟩
      · obtain ⟨e, he, rfl⟩ := mem_map.mp hv
        exact .inr (mem_map_of_mem he)
  · show s.reached + (discovered graph s.seen s.next).length = _
    rw [h.reached]
    exact (beyond_append _ _ _).symm

structure RightSearch (graph : Digraph) (start : List Nat) (depth limit : Nat) (visits : List Visit) : Prop
    extends RightVisits graph start depth visits where
  bounded : beyond visits ≤ limit
  complete : beyond visits < limit → ∀ d ≤ depth, ∀ a, Dist graph start d a → ∃ v ∈ visits, v.node = a
  starts : ∀ a, StartNode graph start a → ∃ v ∈ visits, v.node = a

theorem Layers.visited (h : Layers graph start level s) (hle : d ≤ level) (hd : Dist graph start d a) :
    ∃ v ∈ s.visits, v.node = a :=
  (h.all a).mp ((h.seen a).mpr ⟨d, hle, hd⟩)

theorem Layers.starts (h : Layers graph start level s) (ha : StartNode graph start a) : ∃ v ∈ s.visits, v.node = a :=
  h.visited (Nat.zero_le _) (isDistance_zero.mpr ha)

theorem RightVisits.mono {depth depth' : Nat} {visits : List Visit} (h : RightVisits graph start depth visits)
    (hle : depth ≤ depth') : RightVisits graph start depth' visits :=
  { h with distance := fun v hv => ⟨(h.distance v hv).1.trans hle, (h.distance v hv).2⟩ }

theorem bfsLayers_right (limit layers : Nat) (h : Layers graph start level s) (hlimit : s.reached ≤ limit) :
    RightSearch graph start (level + layers) limit (bfsLayers graph limit layers (level + 1) s) := by
  induction layers generalizing level s with
  | zero =>
    rw [h.reached] at hlimit
    exact { h.visits with
      bounded := hlimit
      complete := fun _ d hle a hd => h.visited hle hd
      starts := fun a ha => h.starts ha }
  | succ layers ih =>
    rw [bfsLayers, reachLayer, foldlM_layerEdges]
    have hrun : (layerEdges graph (sortNodes s.next)).foldlM
        (fun s e => reachSuccessor limit (level + 1) e.1 s e.2) { s with next := [] } =
      if (discovered graph s.seen s.next).length ≤ limit - s.reached then
        .ok (Frontier.extend { s with next := [] } (level + 1) (discovered graph s.seen s.next))
      else .error (s.visits ++ ((discovered graph s.seen s.next).take (limit - s.reached)).map (visitOf (level + 1))) :=
      reachSuccessors_eq _ _ _ _ hlimit
    rw [hrun]
    by_cases hroom : (discovered graph s.seen s.next).length ≤ limit - s.reached
    · rw [if_pos hroom]
      have hnext := h.extend
      have hreached :
          (Frontier.extend { s with next := [] } (level + 1) (discovered graph s.seen s.next)).reached ≤ limit := by
        simp only [Frontier.extend]
        omega
      by_cases hempty :
          (Frontier.extend { s with next := [] } (level + 1) (discovered graph s.seen s.next)).next.isEmpty = true
      · simp only [hempty, if_true]
        rw [hnext.reached] at hreached
        refine { hnext.visits.mono (by omega) with
          bounded := hreached
          complete := fun _ d hle a hd => ?_
          starts := fun a ha => hnext.starts ha }
        rcases Nat.lt_or_ge level d with hlt | hge
        · exact absurd hd (hnext.toSeenLayers.not_dist hempty hlt)
        · exact hnext.visited (by omega) hd
      · simp only [hempty]
        have hrest := ih hnext hreached
        rw [Nat.add_right_comm, Nat.add_assoc] at hrest
        exact hrest
    · rw [if_neg hroom]
      have htake : ((discovered graph s.seen s.next).take (limit - s.reached)).length = limit - s.reached := by
        rw [length_take]
        omega
      have hcount := beyond_append s.visits ((discovered graph s.seen s.next).take (limit - s.reached)) level
      rw [htake, ← h.reached] at hcount
      refine { (h.rightVisits_append (take_sublist _ _)).mono (by omega) with
        bounded := hcount.le.trans (by omega)
        complete := fun hless => ?_
        starts := fun a ha => ?_ }
      · have hless' := hcount ▸ hless
        omega
      · obtain ⟨v, hv, hva⟩ := h.starts ha
        exact ⟨v, mem_append_left _ hv, hva⟩

structure Started (graph : Digraph) (taken : List Nat) (s : Frontier) : Prop where
  seen : ∀ a, s.seen a = true ↔ a ∈ taken ∧ a < graph.len
  next : ∀ a, a ∈ s.next ↔ a ∈ taken ∧ a < graph.len
  visits : s.visits = s.next.map fun node => { node, depth := 0, parent := none }
  once : s.next.Nodup
  reached : s.reached = 0

theorem Started.step (h : Started graph taken s) (node : Nat) :
    Started graph (taken ++ [node]) (startNode graph s node) := by
  rw [startNode]
  by_cases hnew : node < graph.len ∧ s.seen node = false
  · rw [if_pos (by simpa using hnew)]
    refine ⟨fun a => ?_, fun a => ?_, ?_, ?_, h.reached⟩
    · simp only [Function.update_apply, mem_append, mem_singleton]
      by_cases ha : a = node
      · simp [ha, hnew.1]
      · simp [ha, h.seen]
    · simp only [mem_append, mem_singleton, h.next]
      constructor
      · rintro (⟨hmem, hlt⟩ | rfl)
        · exact ⟨.inl hmem, hlt⟩
        · exact ⟨.inr rfl, hnew.1⟩
      · rintro ⟨hmem | rfl, hlt⟩
        · exact .inl ⟨hmem, hlt⟩
        · exact .inr rfl
    · simp [h.visits]
    · rw [nodup_append]
      refine ⟨h.once, nodup_singleton _, ?_⟩
      rintro a ha b hb rfl
      rw [mem_singleton] at hb
      rw [h.next, ← h.seen, hb, hnew.2] at ha
      cases ha
  · rw [if_neg (by simpa using hnew)]
    have hold : node < graph.len → node ∈ taken := by
      intro hlt
      rw [not_and, Bool.not_eq_false] at hnew
      exact ((h.seen node).mp (hnew hlt)).1
    have hsame : ∀ a, (a ∈ taken ++ [node] ∧ a < graph.len) ↔ a ∈ taken ∧ a < graph.len := by
      intro a
      rw [mem_append, mem_singleton]
      constructor
      · rintro ⟨hmem | rfl, hlt⟩
        · exact ⟨hmem, hlt⟩
        · exact ⟨hold hlt, hlt⟩
      · rintro ⟨hmem, hlt⟩
        exact ⟨.inl hmem, hlt⟩
    exact ⟨fun a => (h.seen a).trans (hsame a).symm, fun a => (h.next a).trans (hsame a).symm, h.visits,
      h.once, h.reached⟩

theorem Started.run (h : Started graph taken s) (nodes : List Nat) :
    Started graph (taken ++ nodes) (nodes.foldl (startNode graph) s) := by
  induction nodes generalizing taken s with
  | nil => rwa [append_nil]
  | cons node nodes ih =>
    have hrest := ih (h.step node)
    rwa [append_assoc] at hrest

theorem Started.layers (h : Started graph start s) : Layers graph start 0 s := by
  have hzero : ∀ a, (∃ d ≤ 0, Dist graph start d a) ↔ a ∈ start ∧ a < graph.len := by
    intro a
    constructor
    · rintro ⟨d, hle, hd⟩
      obtain rfl := Nat.le_zero.mp hle
      exact dist_zero.mp hd
    · intro ha
      exact ⟨0, le_rfl, dist_zero.mpr ha⟩
  have hvisit : ∀ v, v ∈ s.visits ↔ ∃ a, Dist graph start 0 a ∧ v = { node := a, depth := 0, parent := none } := by
    intro v
    rw [h.visits, mem_map]
    refine exists_congr fun a => ?_
    rw [h.next, dist_zero]
    exact and_congr_right fun _ => eq_comm
  refine ⟨⟨fun a => (h.seen a).trans (hzero a).symm, fun a => (h.next a).trans dist_zero.symm⟩, ?_, ?_, ?_⟩
  · constructor
    · intro v hv
      obtain ⟨a, ha, rfl⟩ := (hvisit v).mp hv
      exact ⟨le_rfl, ha⟩
    · intro v hv
      obtain ⟨a, ha, rfl⟩ := (hvisit v).mp hv
      exact rfl
    · rw [h.visits, map_map]
      exact (map_id s.next).symm ▸ h.once
  · intro a
    rw [h.seen]
    constructor
    · intro ha
      exact ⟨_, (hvisit _).mpr ⟨a, dist_zero.mpr ha, rfl⟩, rfl⟩
    · rintro ⟨v, hv, rfl⟩
      obtain ⟨a, ha, rfl⟩ := (hvisit v).mp hv
      exact dist_zero.mp ha
  · rw [h.reached, beyond, h.visits, eq_comm, countP_eq_zero]
    intro v hv
    obtain ⟨a, -, rfl⟩ := mem_map.mp hv
    simp

theorem rightSearch_bfs (graph : Digraph) (start : List Nat) (depth limit : Nat) :
    RightSearch graph start depth limit (bfs graph start depth limit) := by
  have hempty : Started graph [] { seen := fun _ => false, reached := 0, next := [], visits := [] } :=
    ⟨by simp, by simp, rfl, nodup_nil, rfl⟩
  have hstart := hempty.run start
  have hright := bfsLayers_right limit depth hstart.layers (hstart.reached.le.trans (Nat.zero_le _))
  rwa [Nat.zero_add] at hright

end Visits

end Tsuzuri.Kg
