import Tsuzuri.GraphSearchSound

/-!
# Bounds and shortest paths

A search without a limit visits every node within the depth, so `reachesBeyond` is exact.
-/

namespace Tsuzuri.Kg

open Distance List

variable {graph : Digraph} {start : List Nat}

variable {d a depth b level source target : Nat} {visits : List Visit} {parent : Nat → Option Nat}
  {found : List (Nat × Nat)} {s : Trail}

theorem Dist.lt_len (h : Dist graph start d a) : a < graph.len := by
  cases d with
  | zero => exact (dist_zero.mp h).2
  | succ d =>
    obtain ⟨b, -, hedge⟩ := h.pred
    exact hedge.target_lt

theorem RightVisits.beyond_lt (h : RightVisits graph start depth visits) : beyond visits < usizeMax := by
  have hsub : (visits.map Visit.node).Subperm (List.range graph.len) := by
    refine subperm_of_subset h.once fun a ha => ?_
    obtain ⟨v, hv, rfl⟩ := mem_map.mp ha
    exact mem_range.mpr (h.distance v hv).2.lt_len
  have hlen := hsub.length_le
  rw [length_map, length_range] at hlen
  exact (countP_le_length.trans hlen).trans_lt graph.fits

theorem RightSearch.visited (h : RightSearch graph start depth usizeMax visits) :
    (∃ v ∈ visits, v.node = a) ↔ ∃ d ≤ depth, Dist graph start d a := by
  constructor
  · rintro ⟨v, hv, rfl⟩
    exact ⟨v.depth, h.distance v hv⟩
  · rintro ⟨d, hle, hd⟩
    exact h.complete h.beyond_lt d hle a hd

theorem seen_visits (visits : List Visit) (seen : Nat → Bool) (a : Nat) :
    visits.foldl (fun seen visit => Function.update seen visit.node true) seen a = true ↔
      seen a = true ∨ ∃ v ∈ visits, v.node = a := by
  induction visits generalizing seen with
  | nil => simp
  | cons v visits ih =>
    rw [foldl_cons, ih, Function.update_apply]
    by_cases hv : a = v.node
    · simp [hv]
    · simp [hv, Ne.symm hv]

theorem reachesBeyond_iff : reachesBeyond graph start depth = true ↔ ∃ a, Dist graph start (depth + 1) a := by
  have hright := rightSearch_bfs graph start depth usizeMax
  rw [reachesBeyond]
  generalize bfs graph start depth usizeMax = visits at hright
  simp only [any_eq_true, mem_filter, decide_eq_true_eq, Bool.not_eq_true']
  have hseen : ∀ a, (visits.foldl (fun seen visit => Function.update seen visit.node true)
      (fun _ => false) a = false) ↔ ¬ ∃ d ≤ depth, Dist graph start d a := by
    intro a
    rw [← hright.visited, ← Bool.not_eq_true, seen_visits]
    simp
  constructor
  · rintro ⟨v, ⟨hv, hdepth⟩, b, hedge, hb⟩
    rw [hseen] at hb
    have hdist := (hright.distance v hv).2
    rw [hdepth] at hdist
    exact ⟨b, hdist.succ hedge fun m hle hm => hb ⟨m, hle, hm⟩⟩
  · rintro ⟨b, hb⟩
    obtain ⟨a, ha, hedge⟩ := hb.pred
    obtain ⟨v, hv, rfl⟩ := hright.visited.mpr ⟨depth, le_rfl, ha⟩
    refine ⟨v, ⟨hv, (hright.distance v hv).2.unique ha⟩, b, hedge, (hseen b).mpr ?_⟩
    rintro ⟨d, hle, hd⟩
    have := hd.unique hb
    omega

def LeastEdge (graph : Digraph) (start : List Nat) (p b : Nat) : Prop :=
  ∃ d, Dist graph start (d + 1) b ∧ IsLeast {q | Dist graph start d q ∧ graph.Edge q b} p

theorem LeastEdge.edge {p : Nat} (h : LeastEdge graph start p b) : graph.Edge p b := by
  obtain ⟨d, -, hleast⟩ := h
  exact hleast.1.2

def RightParents (graph : Digraph) (start : List Nat) (level : Nat) (parent : Nat → Option Nat) : Prop :=
  ∀ d ≤ level, ∀ b, Dist graph start d b → match d with
    | 0 => parent b = none
    | _ + 1 => ∃ p, parent b = some p ∧ LeastEdge graph start p b

theorem followBack_path (h : RightParents graph [source] level parent) : ∀ (fuel : Nat) {node : Nat} {path : List Nat},
    d ≤ fuel → d ≤ level → Dist graph [source] d node → IsPath (LeastEdge graph [source]) node target path →
      IsPath (LeastEdge graph [source]) source target (followBack parent fuel node path) ∧
        (followBack parent fuel node path).length = path.length + d := by
  induction d with
  | zero =>
    intro fuel node path _ hlevel hdist hpath
    have hnone := h 0 hlevel node hdist
    obtain rfl : node = source := mem_singleton.mp (dist_zero.mp hdist).1
    cases fuel with
    | zero => exact ⟨hpath, rfl⟩
    | succ fuel =>
      rw [followBack, hnone]
      exact ⟨hpath, rfl⟩
  | succ d ih =>
    intro fuel node path hfuel hlevel hdist hpath
    obtain ⟨fuel, rfl⟩ : ∃ f, fuel = f + 1 := ⟨fuel - 1, by omega⟩
    obtain ⟨p, hp, hleast⟩ := h (d + 1) hlevel node hdist
    obtain ⟨e, he, hsource⟩ := hleast
    have hed : e + 1 = d + 1 := he.unique hdist
    obtain rfl : e = d := by omega
    rw [followBack, hp]
    have hpath' := hpath.cons (a := p) ⟨e, he, hsource⟩
    obtain ⟨hright, hlen⟩ := ih fuel (by omega) (by omega) hsource.1.1 hpath'
    refine ⟨hright, hlen.trans ?_⟩
    rw [length_cons]
    omega

def setParents (parent : Nat → Option Nat) (found : List (Nat × Nat)) : Nat → Option Nat :=
  found.foldl (fun parent e => Function.update parent e.2 (some e.1)) parent

theorem setParents_of_notMem (hb : b ∉ found.map Prod.snd) : setParents parent found b = parent b := by
  induction found generalizing parent with
  | nil => rfl
  | cons e found ih =>
    rw [map_cons, mem_cons, not_or] at hb
    exact (ih hb.2).trans (Function.update_of_ne hb.1 _ _)

theorem setParents_of_mem {e : Nat × Nat} (hnodup : (found.map Prod.snd).Nodup) (he : e ∈ found) :
    setParents parent found e.2 = some e.1 := by
  induction found generalizing parent with
  | nil => cases he
  | cons f found ih =>
    rw [map_cons, nodup_cons] at hnodup
    rcases mem_cons.mp he with rfl | he
    · exact (setParents_of_notMem hnodup.1).trans (Function.update_self _ _ _)
    · exact ih hnodup.2 he

theorem RightParents.extend {seen : Nat → Bool} {layer : List Nat}
    (h : RightParents graph start level parent) (hlayers : SeenLayers graph start level seen layer)
    (hsub : found.Sublist (discovered graph seen layer)) : RightParents graph start level (setParents parent found) ∧
      ∀ e ∈ found, setParents parent found e.2 = some e.1 ∧ LeastEdge graph start e.1 e.2 := by
  constructor
  · intro d hle b hd
    have hb : b ∉ found.map Prod.snd := by
      intro hmem
      have hnext := hlayers.complete.mp ((hsub.map Prod.snd).subset hmem)
      have := hd.unique hnext
      omega
    have hold := h d hle b hd
    cases d with
    | zero => exact (setParents_of_notMem hb).trans hold
    | succ d => rwa [setParents_of_notMem hb]
  · intro e he
    exact ⟨setParents_of_mem ((fresh_nodup _ _).sublist (hsub.map Prod.snd)) he, level, hlayers.sound (hsub.subset he)⟩

/-! ## A layer of `shortestPath` -/

def Trail.extend (s : Trail) (found : List (Nat × Nat)) : Trail where
  seen := markTargets s.seen found
  parent := setParents s.parent found
  next := s.next ++ found.map Prod.snd

theorem trailSuccessors_ok (target : Nat) (edges : List (Nat × Nat)) (s : Trail)
    (hnot : target ∉ (fresh s.seen edges).map Prod.snd) :
    edges.foldlM (fun s e => trailSuccessor target e.1 s e.2) s = .ok (s.extend (fresh s.seen edges)) := by
  induction edges generalizing s with
  | nil =>
    have hseen : markTargets s.seen [] = s.seen := by
      funext b
      simp [markTargets]
    simp [fresh, Trail.extend, hseen, setParents, pure, Except.pure]
  | cons e edges ih =>
    rw [fresh] at hnot ⊢
    rw [foldlM_cons, trailSuccessor]
    by_cases hseen : s.seen e.2 = true
    · rw [if_pos hseen] at hnot ⊢
      rw [if_pos hseen]
      exact ih s hnot
    · rw [if_neg hseen, map_cons, mem_cons, not_or] at hnot
      rw [if_neg hseen, if_neg hseen, if_neg (Ne.symm hnot.1)]
      refine (ih _ hnot.2).trans ?_
      simp only [Trail.extend, markTargets_cons, setParents, foldl_cons, map_cons, append_assoc, singleton_append]

theorem trailSuccessors_error (target : Nat) (edges : List (Nat × Nat)) (s : Trail)
    (hmem : target ∈ (fresh s.seen edges).map Prod.snd) :
    ∃ found source, (found ++ [(source, target)]).Sublist (fresh s.seen edges) ∧
      edges.foldlM (fun s e => trailSuccessor target e.1 s e.2) s =
        .error (setParents s.parent (found ++ [(source, target)])) := by
  induction edges generalizing s with
  | nil => cases hmem
  | cons e edges ih =>
    rw [fresh] at hmem ⊢
    rw [foldlM_cons, trailSuccessor]
    by_cases hseen : s.seen e.2 = true
    · rw [if_pos hseen] at hmem ⊢
      rw [if_pos hseen]
      exact ih s hmem
    · rw [if_neg hseen, map_cons, mem_cons] at hmem
      rw [if_neg hseen, if_neg hseen]
      by_cases htarget : e.2 = target
      · subst htarget
        refine ⟨[], e.1, List.Sublist.cons_cons _ (nil_sublist _), ?_⟩
        rw [if_pos rfl]
        rfl
      · rw [if_neg htarget]
        obtain ⟨found, source, hsub, heq⟩ := ih
          { seen := Function.update s.seen e.2 true, parent := Function.update s.parent e.2 (some e.1)
            next := s.next ++ [e.2] } (hmem.resolve_left (Ne.symm htarget))
        exact ⟨e :: found, source, hsub.cons_cons e, heq⟩

/-- After the layers up to `level`, none of which has the target. -/
structure TrailLayers (graph : Digraph) (source target level : Nat) (s : Trail) : Prop
    extends SeenLayers graph [source] level s.seen s.next where
  parents : RightParents graph [source] level s.parent
  target : s.seen target = false

theorem TrailLayers.extend (h : TrailLayers graph source target level s)
    (hnot : target ∉ (discovered graph s.seen s.next).map Prod.snd) : TrailLayers graph source target (level + 1)
      (Trail.extend { s with next := [] } (discovered graph s.seen s.next)) := by
  obtain ⟨hold, hnew⟩ := h.parents.extend h.toSeenLayers (List.Sublist.refl _)
  refine { h.toSeenLayers.extend with parents := fun d hle b hd => ?_, target := ?_ }
  · rcases Nat.lt_or_ge level d with hlt | hge
    · obtain rfl : d = level + 1 := by omega
      obtain ⟨e, he, rfl⟩ := mem_map.mp (h.toSeenLayers.complete.mpr hd)
      exact ⟨e.1, hnew e he⟩
    · exact hold d hge b hd
  · show markTargets s.seen _ target = false
    rw [← Bool.not_eq_true, markTargets_eq_true, not_or]
    exact ⟨by simp [h.target], hnot⟩

def RightPath (graph : Digraph) (source target depth : Nat) : Option (List Nat) → Prop
  | some path => IsPath (LeastEdge graph [source]) source target path ∧
      ∃ d ≤ depth, path.length = d + 1 ∧ Dist graph [source] d target
  | none => ∀ d ≤ depth, ¬ Dist graph [source] d target

theorem trailLayers_right (layers : Nat) (h : TrailLayers graph source target level s)
    (hdepth : level + layers = depth) :
    RightPath graph source target depth (trailLayers graph target depth layers s) := by
  have hfar : ∀ d ≤ level, ¬ Dist graph [source] d target := by
    intro d hle hd
    have hseen := (h.seen target).mpr ⟨d, hle, hd⟩
    rw [h.target] at hseen
    cases hseen
  induction layers generalizing level s with
  | zero =>
    obtain rfl : level = depth := hdepth
    exact hfar
  | succ layers ih =>
    rw [trailLayers, trailLayer, foldlM_layerEdges]
    by_cases hmem : target ∈ (discovered graph s.seen s.next).map Prod.snd
    · obtain ⟨found, p, hsub, hrun⟩ :=
        trailSuccessors_error target (layerEdges graph (sortNodes s.next)) { s with next := [] } hmem
      rw [hrun]
      have hdist := h.toSeenLayers.complete.mp hmem
      obtain ⟨hold, hnew⟩ := h.parents.extend h.toSeenLayers hsub
      obtain ⟨hparent, hleast⟩ := hnew (p, target) (by simp)
      have hparents : RightParents graph [source] level (setParents s.parent (found ++ [(p, target)])) := hold
      obtain ⟨d, hd, hsource⟩ := hleast
      have hlevel : d + 1 = level + 1 := hd.unique hdist
      obtain rfl : d = level := by omega
      obtain ⟨fuel, rfl⟩ : ∃ fuel, depth = fuel + 1 := ⟨depth - 1, by omega⟩
      obtain ⟨hpath, hlen⟩ := followBack_path hparents fuel (by omega) le_rfl hsource.1.1
        ((IsPath.single target).cons (a := p) ⟨d, hd, hsource⟩)
      have hback : followBack (setParents s.parent (found ++ [(p, target)])) (fuel + 1) target [target] =
          followBack (setParents s.parent (found ++ [(p, target)])) fuel p [p, target] := by
        rw [followBack, hparent]
      exact ⟨hback ▸ hpath, d + 1, by omega, by rw [hback, hlen]; simp; omega, hdist⟩
    · have hrun : (layerEdges graph (sortNodes s.next)).foldlM (fun s e => trailSuccessor target e.1 s e.2)
          { s with next := [] } = .ok (Trail.extend { s with next := [] } (discovered graph s.seen s.next)) :=
        trailSuccessors_ok _ _ _ hmem
      rw [hrun]
      have hnext := h.extend hmem
      by_cases hempty : (Trail.extend { s with next := [] } (discovered graph s.seen s.next)).next.isEmpty = true
      · show RightPath graph source target depth (if _ then _ else _)
        rw [if_pos hempty]
        intro d hle hd
        rcases Nat.lt_or_ge level d with hlt | hge
        · exact hnext.toSeenLayers.not_dist hempty hlt hd
        · exact hfar d hge hd
      · show RightPath graph source target depth (if _ then _ else _)
        rw [if_neg hempty]
        refine ih hnext (by omega) fun d hle hd => ?_
        have hseen := (hnext.seen target).mpr ⟨d, hle, hd⟩
        rw [hnext.target] at hseen
        cases hseen

/-! ## Paths of the graph -/

theorem dist_source (hlt : source < graph.len) : Dist graph [source] = IsDistance graph.Edge fun x => x = source := by
  have hstart : StartNode graph [source] = fun x => x = source := by
    funext x
    refine propext ⟨fun h => mem_singleton.mp h.1, ?_⟩
    rintro rfl
    exact ⟨mem_singleton_self _, hlt⟩
  rw [Dist, hstart]

theorem rightPath_shortestPath (hsource : source < graph.len) (target depth : Nat) :
    RightPath graph source target depth (shortestPath graph source target depth) := by
  have hzero : Dist graph [source] 0 source := dist_zero.mpr ⟨mem_singleton_self _, hsource⟩
  rw [shortestPath]
  by_cases htarget : target < graph.len
  · rw [if_neg (by simp; omega)]
    by_cases heq : source = target
    · subst heq
      rw [if_pos rfl]
      exact ⟨.single _, 0, Nat.zero_le _, rfl, hzero⟩
    · rw [if_neg heq]
      refine trailLayers_right depth ?_ (Nat.zero_add depth)
      have honly : ∀ a, Dist graph [source] 0 a ↔ a = source := by
        intro a
        rw [dist_zero, mem_singleton]
        exact ⟨fun h => h.1, fun h => ⟨h, h ▸ hsource⟩⟩
      refine ⟨⟨fun a => ?_, fun a => ?_⟩, fun d hle b _ => ?_, ?_⟩
      · show Function.update (fun _ => false) source true a = true ↔ _
        rw [Function.update_apply]
        constructor
        · intro h
          split at h
          · rename_i ha
            exact ⟨0, le_rfl, (honly a).mpr ha⟩
          · cases h
        · rintro ⟨d, hle, hd⟩
          obtain rfl := Nat.le_zero.mp hle
          rw [if_pos ((honly a).mp hd)]
      · rw [honly, mem_singleton]
      · obtain rfl := Nat.le_zero.mp hle
        exact rfl
      · exact Function.update_of_ne (Ne.symm heq) true fun _ => false
  · rw [if_pos (by simp; omega)]
    exact fun d _ hd => htarget hd.lt_len

def PathOf (graph : Digraph) (source target : Nat) (path : List Nat) : Prop :=
  source < graph.len ∧ IsPath graph.Edge source target path

theorem PathOf.dist {path : List Nat} (h : PathOf graph source target path) :
    ∃ d, d + 1 ≤ path.length ∧ Dist graph [source] d target := by
  obtain ⟨d, hle, hd⟩ := h.2.steps.exists_distance
  rw [← dist_source h.1] at hd
  have hpos : 0 < path.length := by
    cases path with
    | nil => cases h.2.head
    | cons a path => exact Nat.succ_pos _
  exact ⟨d, by omega, hd⟩

/-- A path that is found is a shortest one, least at each step, and one is found where there is one of at most
`depth` edges. -/
structure RightShortest (graph : Digraph) (source target depth : Nat) (found : Option (List Nat)) : Prop where
  path : ∀ path, found = some path → PathOf graph source target path ∧
    ∀ other, PathOf graph source target other → path.length ≤ other.length
  least : ∀ path, found = some path → path.IsChain (LeastEdge graph [source])
  isSome : found.isSome = true ↔ ∃ path, PathOf graph source target path ∧ path.length ≤ depth + 1

theorem rightShortest (graph : Digraph) (source target depth : Nat) :
    RightShortest graph source target depth (shortestPath graph source target depth) := by
  by_cases hsource : source < graph.len
  · have hright := rightPath_shortestPath hsource target depth
    cases hfound : shortestPath graph source target depth with
    | none =>
      rw [hfound] at hright
      refine ⟨by simp, by simp, ?_⟩
      simp only [Option.isSome_none, Bool.false_eq_true, false_iff]
      rintro ⟨path, hpath, hlen⟩
      obtain ⟨d, hd, hdist⟩ := hpath.dist
      exact hright d (by omega) hdist
    | some path =>
      rw [hfound] at hright
      obtain ⟨hpath, d, hle, hlen, hdist⟩ := hright
      have hof : PathOf graph source target path := ⟨hsource, hpath.mono fun _ _ h => h.edge⟩
      refine ⟨?_, ?_, ?_⟩
      · rintro _ ⟨⟩
        refine ⟨hof, fun other hother => ?_⟩
        obtain ⟨e, he, hedist⟩ := hother.dist
        have := hdist.unique hedist
        omega
      · rintro _ ⟨⟩
        exact hpath.chain
      · simp only [Option.isSome_some, true_iff]
        exact ⟨path, hof, by omega⟩
  · have hnone : shortestPath graph source target depth = none := by
      rw [shortestPath, if_pos (by simp; omega)]
    rw [hnone]
    refine ⟨by simp, by simp, ?_⟩
    simp only [Option.isSome_none, Bool.false_eq_true, false_iff]
    rintro ⟨path, hpath, -⟩
    exact hsource hpath.1

theorem searches_right (graph : Digraph) (start : List Nat) (source target depth limit : Nat) :
    RightSearch graph start depth limit (bfs graph start depth limit) ∧
      RightSearch graph.reversed start depth usizeMax (reverseReach graph start depth) ∧
      (∀ a, (∃ v ∈ reverseReach graph start depth, v.node = a) ↔ ∃ d ≤ depth, Dist graph.reversed start d a) ∧
      (∀ a b, graph.reversed.Edge a b ↔ graph.Edge b a) ∧
      (reachesBeyond graph start depth = true ↔ ∃ a, Dist graph start (depth + 1) a) ∧
      RightShortest graph source target depth (shortestPath graph source target depth) :=
  ⟨rightSearch_bfs _ _ _ _, rightSearch_bfs _ _ _ _, fun _ => (rightSearch_bfs _ _ _ _).visited,
    fun _ _ => Digraph.edge_reversed, reachesBeyond_iff, rightShortest _ _ _ _⟩

def shortChain (last : Bool) : Digraph :=
  .fromEdges 3 (if last then [(0, 1), (1, 2)] else [(0, 1)]) (by decide)

theorem successors_shortChain (last : Bool) :
    (shortChain last).successors 0 = [1] ∧ (shortChain last).successors 1 = if last then [2] else [] := by
  have hpairs : sortedPairs 3 (if last then [(0, 1), (1, 2)] else [(0, 1)]) =
      if last then [(0, 1), (1, 2)] else [(0, 1)] := by
    rw [sortedPairs, mergeSort_of_pairwise (by cases last <;> decide)]
    cases last <;> rfl
  constructor
  · refine successors_rowsOf.trans ?_
    rw [hpairs]
    cases last <;> rfl
  · refine successors_rowsOf.trans ?_
    rw [hpairs]
    cases last <;> rfl

theorem bfs_shortChain (last : Bool) : bfs (shortChain last) [0] 2 1 = [⟨0, 0, none⟩, ⟨1, 1, some 0⟩] := by
  obtain ⟨h0, h1⟩ := successors_shortChain last
  have hlen : (shortChain last).len = 3 := Digraph.len_fromEdges
  have hsort : ∀ a, sortNodes [a] = [a] := fun a => mergeSort_of_pairwise (pairwise_singleton _ _)
  cases last <;>
    simp [bfs, startNode, hlen, bfsLayers, reachLayer, hsort, h0, h1, reachSuccessor, bind, Except.bind, pure,
      Except.pure, Function.update]

/-- The visits of a search do not tell whether the limit made it leave out a node. -/
theorem cut_not_reported : ¬ ∃ report : List Nat → Nat → Nat → List Visit → Bool, ∀ graph start depth limit,
      report start depth limit (bfs graph start depth limit) = true ↔
        ∃ d ≤ depth, ∃ a, Dist graph start d a ∧ ¬ ∃ v ∈ bfs graph start depth limit, v.node = a := by
  rintro ⟨report, h⟩
  have hedge : ∀ last a b, (shortChain last).Edge a b ↔
      (a, b) ∈ (if last then [(0, 1), (1, 2)] else [(0, 1)]) ∧ a < 3 ∧ b < 3 :=
    fun last a b => Digraph.edge_fromEdges
  have hstart : ∀ last, Dist (shortChain last) [0] 0 0 := by
    intro last
    have hlen : (shortChain last).len = 3 := Digraph.len_fromEdges
    exact dist_zero.mpr ⟨by simp, by omega⟩
  have hcut := (h (shortChain true) [0] 2 1).mpr ?_
  · rw [bfs_shortChain, ← bfs_shortChain false] at hcut
    obtain ⟨d, -, a, hd, hnot⟩ := (h (shortChain false) [0] 2 1).mp hcut
    rw [bfs_shortChain] at hnot
    -- the nodes of `0 → 1` are the visited ones
    have hnodes : a = 0 ∨ a = 1 := by
      cases d with
      | zero => exact .inl (by simpa using (dist_zero.mp hd).1)
      | succ d =>
        obtain ⟨b, -, hb⟩ := hd.pred
        have := (hedge false b a).mp hb
        simp at this
        exact .inr this.1.2
    rcases hnodes with rfl | rfl
    · exact hnot ⟨_, mem_cons_self, rfl⟩
    · exact hnot ⟨_, mem_cons_of_mem _ mem_cons_self, rfl⟩
  · have hone : Dist (shortChain true) [0] 1 1 := by
      refine (hstart true).succ ((hedge true 0 1).mpr (by decide)) fun m hle hm => ?_
      obtain rfl := Nat.le_zero.mp hle
      simpa using (dist_zero.mp hm).1
    have hsteps : Steps (shortChain true).Edge (StartNode (shortChain true) [0]) 2 2 :=
      ⟨1, hone.1, (hedge true 1 2).mpr (by decide)⟩
    obtain ⟨d, hle, hd⟩ := hsteps.exists_distance
    refine ⟨d, hle, 2, hd, ?_⟩
    rw [bfs_shortChain]
    simp

end Tsuzuri.Kg
