import Mathlib.Order.Bounds.Basic
import Tsuzuri.StrongComponents

/-!
# The blocks of the stack

Between two frames the stack holds one block: the frame's node and, above it, nodes that the search left.
-/

namespace Tsuzuri.Kg

open Relation Components List
open Function (update update_of_ne update_self)

namespace Tarjan

variable {graph : Digraph} {index : Nat → Option Nat} {low : Nat → Nat}

def numberOf (index : Nat → Option Nat) (a : Nat) : Nat := (index a).getD 0

/-- The block of a frame: `above` lies on the frame's node, `below` is the rest of the stack. -/
structure Block (graph : Digraph) (index : Nat → Option Nat) (low : Nat → Nat) (node position : Nat)
    (above below : List Nat) : Prop where
  linked : ∀ x ∈ above, Linked graph.successors x node
  done : ∀ x ∈ above, ∀ w ∈ graph.successors x, index w ≠ none
  seen : ∀ w ∈ (graph.successors node).take position, index w ≠ none
  bound : ∀ w ∈ below, ((∃ x ∈ above, w ∈ graph.successors x) ∨ w ∈ (graph.successors node).take position) →
    low node ≤ numberOf index w
  lowest : ∃ w ∈ node :: below, numberOf index w = low node ∧ Reach graph.successors node w

def Blocks (graph : Digraph) (index : Nat → Option Nat) (low : Nat → Nat) : List (Nat × Nat) → List Nat → Prop
  | [], stack => stack = []
  | (node, position) :: frames, stack =>
    ∃ above below, stack = above ++ node :: below ∧ Block graph index low node position above below ∧
      (∀ parent ∈ frames.head?, Reach graph.successors parent.1 node) ∧ Blocks graph index low frames below

variable {index' : Nat → Option Nat} {low' : Nat → Nat} {node successor a : Nat}
  {above below : List Nat} {frames : List (Nat × Nat)} {t : Tarjan}

theorem Block.congr {position : Nat} (h : Block graph index low node position above below)
    (hindex : ∀ a, index a ≠ none → index' a ≠ none) (hlow : low' node = low node)
    (hnumber : ∀ a ∈ node :: below, numberOf index' a = numberOf index a) :
    Block graph index' low' node position above below := by
  refine ⟨h.linked, fun x hx w hw => hindex w (h.done x hx w hw), fun w hw => hindex w (h.seen w hw), ?_, ?_⟩
  · intro w hw hedge
    rw [hlow, hnumber w (mem_cons_of_mem _ hw)]
    exact h.bound w hw hedge
  · obtain ⟨w, hw, heq, hreach⟩ := h.lowest
    exact ⟨w, hw, by rw [hlow, hnumber w hw, heq], hreach⟩

theorem Blocks.congr (hindex : ∀ a, index a ≠ none → index' a ≠ none) :
    ∀ {frames : List (Nat × Nat)} {stack : List Nat}, Blocks graph index low frames stack →
      (∀ a ∈ stack, low' a = low a ∧ numberOf index' a = numberOf index a) → Blocks graph index' low' frames stack := by
  intro frames
  induction frames with
  | nil => exact fun h _ => h
  | cons frame frames ih =>
    rintro stack ⟨above, below, rfl, hblock, hparent, hrest⟩ hsame
    have hmem : ∀ a ∈ frame.1 :: below, a ∈ above ++ frame.1 :: below := fun a ha => mem_append_right _ ha
    refine ⟨above, below, rfl, ?_, hparent, ih hrest fun a ha => ?_⟩
    · exact hblock.congr hindex (hsame _ (hmem _ mem_cons_self)).1 fun a ha => (hsame a (hmem a ha)).2
    · exact hsame a (hmem a (mem_cons_of_mem _ ha))

theorem Block.advance {position : Nat} (h : Block graph index low node position above below)
    (hsuccessor : (graph.successors node)[position]? = some successor) (hvisited : index successor ≠ none)
    (hlow : successor ∈ below → low node ≤ numberOf index successor) :
    Block graph index low node (position + 1) above below := by
  have htake : ∀ w, w ∈ (graph.successors node).take (position + 1) ↔
      w ∈ (graph.successors node).take position ∨ w = successor := by
    intro w
    rw [take_add_one, hsuccessor, Option.toList_some, mem_append, mem_singleton]
  refine ⟨h.linked, h.done, fun w hw => ?_, fun w hw hedge => ?_, h.lowest⟩
  · rcases (htake w).mp hw with hw | rfl
    · exact h.seen w hw
    · exact hvisited
  · rcases hedge with hedge | hedge
    · exact h.bound w hw (.inl hedge)
    · rcases (htake w).mp hedge with hedge | rfl
      · exact h.bound w hw (.inr hedge)
      · exact hlow hw

theorem Blocks.reach : ∀ {frames : List (Nat × Nat)} {node position : Nat} {stack : List Nat},
    Blocks graph index low ((node, position) :: frames) stack → ∀ w ∈ stack, Reach graph.successors w node := by
  intro frames
  induction frames with
  | nil =>
    rintro node position stack ⟨above, below, rfl, hblock, -, hbelow⟩ w hw
    obtain rfl : below = [] := hbelow
    rcases mem_append.mp hw with hw | hw
    · exact (hblock.linked w hw).1
    · rw [mem_singleton.mp hw]
  | cons frame frames ih =>
    rintro node position stack ⟨above, below, rfl, hblock, hparent, hrest⟩ w hw
    rcases mem_append.mp hw with hw | hw
    · exact (hblock.linked w hw).1
    · rcases mem_cons.mp hw with rfl | hw
      · exact .refl
      · exact (ih hrest w hw).trans (hparent frame rfl)

/-! ## What holds at any time -/

structure Inv (graph : Digraph) (s : Tarjan) : Prop where
  blocks : Blocks graph s.index s.low s.frames s.stack
  order : s.stack.Pairwise fun a b => numberOf s.index b < numberOf s.index a
  nodes : ∀ a, s.index a ≠ none → a < graph.len
  visited : ∀ a, s.index a ≠ none ↔ a ∈ s.stack ∨ s.component a ≠ none
  open_ : ∀ a ∈ s.stack, s.component a = none
  onStack : ∀ a, s.onStack a = true ↔ a ∈ s.stack
  older : ∀ a ∈ s.stack, numberOf s.index a < s.nextIndex
  closed : ∀ a c, s.component a = some c → c < s.components ∧ ∀ b ∈ graph.successors a, ∃ d ≤ c, s.component b = some d
  same : ∀ a b c d, s.component a = some c → s.component b = some d → (c = d ↔ Linked graph.successors a b)

variable {s : Tarjan}

theorem Inv.closed_reach (h : Inv graph s) {b c : Nat} (ha : s.component a = some c)
    (hreach : Reach graph.successors a b) : ∃ d ≤ c, s.component b = some d := by
  induction hreach with
  | refl => exact ⟨c, le_rfl, ha⟩
  | tail _ hedge ih =>
    obtain ⟨d, hd, hcomp⟩ := ih
    obtain ⟨e, he, hcomp'⟩ := (h.closed _ d hcomp).2 _ hedge
    exact ⟨e, he.trans hd, hcomp'⟩

theorem inv_fresh : Inv graph fresh := by
  constructor <;> simp [fresh, Blocks]

theorem Inv.visit (h : Inv graph s) (hnew : s.index node = none) (hlt : node < graph.len)
    (hparent : ∀ parent ∈ s.frames.head?, Reach graph.successors parent.1 node) : Inv graph (s.visit node) := by
  have hnot : node ∉ s.stack := fun hmem => (h.visited node).mpr (.inl hmem) hnew
  have hcomp : s.component node = none := by
    by_contra hne
    exact (h.visited node).mpr (.inr hne) hnew
  have hne : ∀ a ∈ s.stack, a ≠ node := by
    rintro a ha rfl
    exact hnot ha
  have hnumber : ∀ a ∈ s.stack, numberOf (s.visit node).index a = numberOf s.index a := by
    intro a ha
    simp [Tarjan.visit, numberOf, update_of_ne (hne a ha)]
  have hself : numberOf (s.visit node).index node = s.nextIndex := by
    simp [Tarjan.visit, numberOf]
  have hindex : ∀ a, (s.visit node).index a ≠ none ↔ a = node ∨ s.index a ≠ none := by
    intro a
    show update s.index node (some s.nextIndex) a ≠ none ↔ _
    rw [Function.update_apply]
    split
    · rename_i ha
      simp [ha]
    · rename_i ha
      simp [ha]
  constructor
  · refine ⟨[], s.stack, rfl, ⟨by simp, by simp, by simp, by simp, node, mem_cons_self, ?_, .refl⟩, hparent, ?_⟩
    · rw [hself]
      exact (update_self node s.nextIndex s.low).symm
    · refine h.blocks.congr (fun a ha => (hindex a).mpr (.inr ha)) fun a ha => ⟨?_, hnumber a ha⟩
      show update s.low node s.nextIndex a = s.low a
      exact update_of_ne (hne a ha) _ _
  · refine pairwise_cons.mpr ⟨fun a ha => ?_, h.order.imp_of_mem fun ha hb hlt => ?_⟩
    · rw [hself, hnumber a ha]
      exact h.older a ha
    · rwa [hnumber _ ha, hnumber _ hb]
  · intro a ha
    rcases (hindex a).mp ha with rfl | ha
    · exact hlt
    · exact h.nodes a ha
  · intro a
    rw [hindex, h.visited]
    show _ ↔ a ∈ node :: s.stack ∨ s.component a ≠ none
    rw [mem_cons, or_assoc]
  · intro a ha
    rcases mem_cons.mp ha with rfl | ha
    · exact hcomp
    · exact h.open_ a ha
  · intro a
    show update s.onStack node true a = true ↔ a ∈ node :: s.stack
    rw [Function.update_apply, mem_cons, ← h.onStack]
    split
    · rename_i ha
      simp [ha]
    · rename_i ha
      simp [ha]
  · intro a ha
    show numberOf (s.visit node).index a < s.nextIndex + 1
    rcases mem_cons.mp ha with rfl | ha
    · rw [hself]
      exact Nat.lt_succ_self _
    · rw [hnumber a ha]
      exact Nat.lt_succ_of_lt (h.older a ha)
  · exact h.closed
  · exact h.same

theorem Inv.position (h : Inv graph s) {position : Nat} (hframes : s.frames = (node, position) :: frames)
    (hsuccessor : (graph.successors node)[position]? = some successor) (hvisited : s.index successor ≠ none)
    (hlow : successor ∈ s.stack → s.low node ≤ numberOf s.index successor) :
    Inv graph { s with frames := (node, position + 1) :: frames } := by
  have hblocks := h.blocks
  rw [hframes] at hblocks
  obtain ⟨above, below, hstack, hblock, hparent, hrest⟩ := hblocks
  refine { h with blocks := ⟨above, below, hstack, ?_, hparent, hrest⟩ }
  refine hblock.advance hsuccessor hvisited fun hmem => hlow ?_
  rw [hstack]
  exact mem_append_right _ (mem_cons_of_mem _ hmem)

theorem Inv.top (h : Inv graph s) {position : Nat} (hframes : s.frames = (node, position) :: frames) :
    ∃ above below, s.stack = above ++ node :: below ∧ Block graph s.index s.low node position above below ∧
      (∀ parent ∈ frames.head?, Reach graph.successors parent.1 node) ∧ Blocks graph s.index s.low frames below ∧
      (∀ a ∈ above, numberOf s.index node < numberOf s.index a) ∧
      (∀ a ∈ below, numberOf s.index a < numberOf s.index node) ∧ s.low node ≤ numberOf s.index node := by
  have hblocks := h.blocks
  rw [hframes] at hblocks
  obtain ⟨above, below, hstack, hblock, hparent, hrest⟩ := hblocks
  have horder := h.order
  rw [hstack] at horder
  obtain ⟨-, hnode, hcross⟩ := pairwise_append.mp horder
  have hbelow := (pairwise_cons.mp hnode).1
  refine ⟨above, below, hstack, hblock, hparent, hrest, fun a ha => hcross a ha node mem_cons_self, hbelow, ?_⟩
  obtain ⟨w, hw, heq, -⟩ := hblock.lowest
  rw [← heq]
  rcases mem_cons.mp hw with rfl | hw
  · exact le_rfl
  · exact (hbelow w hw).le

theorem Inv.lower (h : Inv graph s) {position : Nat} (hframes : s.frames = (node, position) :: frames)
    (hedge : graph.Edge node successor) (hmem : successor ∈ s.stack) :
    Inv graph (s.lower node (numberOf s.index successor)) := by
  obtain ⟨above, below, hstack, hblock, hparent, hrest, habove, hbelow, hle⟩ := h.top hframes
  have hself : (s.lower node (numberOf s.index successor)).low node =
      min (s.low node) (numberOf s.index successor) := update_self _ _ _
  have hother : ∀ a ∈ below, (s.lower node (numberOf s.index successor)).low a = s.low a := by
    intro a ha
    refine update_of_ne ?_ _ _
    rintro rfl
    exact Nat.lt_irrefl _ (hbelow a ha)
  refine { h with blocks := ?_ }
  show Blocks graph s.index _ s.frames s.stack
  rw [hframes]
  refine ⟨above, below, hstack, ⟨hblock.linked, hblock.done, hblock.seen, fun w hw hout => ?_, ?_⟩, hparent,
    hrest.congr (fun _ ha => ha) fun a ha => ⟨hother a ha, rfl⟩⟩
  · rw [hself]
    exact (min_le_left _ _).trans (hblock.bound w hw hout)
  · rw [hself]
    rcases le_total (s.low node) (numberOf s.index successor) with hlow | hlow
    · rw [min_eq_left hlow]
      exact hblock.lowest
    · rw [min_eq_right hlow]
      refine ⟨successor, ?_, rfl, .single hedge⟩
      rw [hstack] at hmem
      rcases mem_append.mp hmem with hmem | hmem
      · have := habove successor hmem
        omega
      · exact hmem

/-! ## Leaving a node -/

theorem popUntil_eq : ∀ {above : List Nat} {s : Tarjan}, node ∉ above → popUntil node (above ++ node :: below) s =
      { s with
        stack := below
        onStack := fun a => if a ∈ above ++ [node] then false else s.onStack a
        component := fun a => if a ∈ above ++ [node] then some s.components else s.component a } := by
  intro above
  induction above with
  | nil =>
    intro s _
    rw [nil_append, popUntil, if_pos rfl]
    congr 1 <;> (funext a; simp [Function.update_apply])
  | cons member above ih =>
    intro s hnot
    rw [mem_cons, not_or] at hnot
    rw [cons_append, popUntil, if_neg (Ne.symm hnot.1), ih hnot.2]
    congr 1 <;>
      (funext a
       simp only [Function.update_apply, cons_append, mem_cons]
       by_cases ha : a = member
       · simp [ha]
       · simp [ha])

def Exhausted (graph : Digraph) (node position : Nat) : Prop := (graph.successors node)[position]? = none

theorem Exhausted.take {position : Nat} (h : Exhausted graph node position) :
    (graph.successors node).take position = graph.successors node :=
  take_of_length_le (getElem?_eq_none_iff.mp h)

theorem Inv.pop (h : Inv graph s) {position : Nat} (hframes : s.frames = (node, position) :: frames)
    (hend : Exhausted graph node position) (hlow : s.low node = numberOf s.index node) :
    Inv graph (Tarjan.popComponent { s with frames } node) := by
  obtain ⟨above, below, hstack, hblock, -, hrest, habove, hbelow, -⟩ := h.top hframes
  have hnot : node ∉ above := fun hmem => Nat.lt_irrefl _ (habove node hmem)
  have hpop : Tarjan.popComponent { s with frames } node =
      { s with
        frames
        stack := below
        onStack := fun a => if a ∈ above ++ [node] then false else s.onStack a
        component := fun a => if a ∈ above ++ [node] then some s.components else s.component a
        components := s.components + 1 } := by
    rw [popComponent]
    simp only [hstack, popUntil_eq hnot]
  rw [hpop]
  have horder := h.order
  rw [hstack] at horder
  have hmem : ∀ a, a ∈ s.stack ↔ a ∈ above ++ [node] ∨ a ∈ below := by
    intro a
    rw [hstack, mem_append, mem_append, mem_cons, mem_singleton, or_assoc]
  have hown : ∀ a ∈ above ++ [node], Linked graph.successors a node := by
    intro a ha
    rcases mem_append.mp ha with ha | ha
    · exact hblock.linked a ha
    · rw [mem_singleton.mp ha]
      exact Linked.refl node
  have hopen : ∀ a ∈ above ++ [node], s.component a = none := fun a ha => h.open_ a ((hmem a).mpr (.inl ha))
  have hdisjoint : ∀ a ∈ below, a ∉ above ++ [node] := by
    intro a ha hin
    have hlt := hbelow a ha
    rcases mem_append.mp hin with hin | hin
    · have := habove a hin
      omega
    · rw [mem_singleton.mp hin] at hlt
      exact Nat.lt_irrefl _ hlt
  -- an edge out of the block leads into it or into a component
  have hedge : ∀ a ∈ above ++ [node], ∀ b ∈ graph.successors a, b ∈ above ++ [node] ∨ ∃ d, s.component b = some d := by
    intro a ha b hb
    have hvisited : s.index b ≠ none ∧ (b ∈ below → s.low node ≤ numberOf s.index b) := by
      rcases mem_append.mp ha with ha | ha
      · exact ⟨hblock.done a ha b hb, fun hin => hblock.bound b hin (.inl ⟨a, ha, hb⟩)⟩
      · rw [mem_singleton.mp ha, ← hend.take] at hb
        exact ⟨hblock.seen b hb, fun hin => hblock.bound b hin (.inr hb)⟩
    rcases (h.visited b).mp hvisited.1 with hin | hin
    · rcases (hmem b).mp hin with hin | hin
      · exact .inl hin
      · have hle := hvisited.2 hin
        have hlt := hbelow b hin
        omega
    · exact .inr (Option.ne_none_iff_exists'.mp hin)
  have hcomponent : ∀ a c, (if a ∈ above ++ [node] then some s.components else s.component a) = some c ↔
      (a ∈ above ++ [node] ∧ c = s.components) ∨ s.component a = some c := by
    intro a c
    split
    · rename_i ha
      simp [ha, hopen a ha, eq_comm]
    · rename_i ha
      simp [ha]
  constructor
  · exact hrest
  · exact (pairwise_append.mp horder).2.1.of_cons
  · exact h.nodes
  · intro a
    show s.index a ≠ none ↔ a ∈ below ∨ (if a ∈ above ++ [node] then some s.components else s.component a) ≠ none
    rw [h.visited, hmem]
    split
    · rename_i ha
      simp [ha]
    · rename_i ha
      simp [ha]
  · intro a ha
    show (if a ∈ above ++ [node] then some s.components else s.component a) = none
    rw [if_neg (hdisjoint a ha)]
    exact h.open_ a ((hmem a).mpr (.inr ha))
  · intro a
    show (if a ∈ above ++ [node] then false else s.onStack a) = true ↔ a ∈ below
    split
    · rename_i ha
      simp only [Bool.false_eq_true, false_iff]
      exact fun hin => hdisjoint a hin ha
    · rename_i ha
      rw [h.onStack, hmem, or_iff_right ha]
  · exact fun a ha => h.older a ((hmem a).mpr (.inr ha))
  · intro a c hc
    show c < s.components + 1 ∧ ∀ b ∈ graph.successors a, ∃ d ≤ c,
      (if b ∈ above ++ [node] then some s.components else s.component b) = some d
    rcases (hcomponent a c).mp hc with ⟨ha, rfl⟩ | hold
    · refine ⟨Nat.lt_succ_self _, fun b hb => ?_⟩
      rcases hedge a ha b hb with hin | ⟨d, hd⟩
      · exact ⟨s.components, le_rfl, if_pos hin⟩
      · exact ⟨d, (h.closed b d hd).1.le, (hcomponent b d).mpr (.inr hd)⟩
    · obtain ⟨hlt, hsucc⟩ := h.closed a c hold
      refine ⟨Nat.lt_succ_of_lt hlt, fun b hb => ?_⟩
      obtain ⟨d, hle, hd⟩ := hsucc b hb
      exact ⟨d, hle, (hcomponent b d).mpr (.inr hd)⟩
  · intro a b c d hc hd
    -- a node of an older component does not reach the block
    have hapart : ∀ {x y e}, x ∈ above ++ [node] → s.component y = some e → e ≠ s.components ∧
        ¬ Reach graph.successors y x := by
      intro x y e hx hy
      refine ⟨(h.closed y e hy).1.ne, fun hreach => ?_⟩
      obtain ⟨f, -, hf⟩ := h.closed_reach hy hreach
      rw [hopen x hx] at hf
      cases hf
    rcases (hcomponent a c).mp hc with ⟨ha, rfl⟩ | ha
    · rcases (hcomponent b d).mp hd with ⟨hb, rfl⟩ | hb
      · exact iff_of_true rfl ((hown a ha).trans (hown b hb).symm)
      · obtain ⟨hne, hnot⟩ := hapart ha hb
        exact iff_of_false hne.symm fun hlinked => hnot hlinked.2
    · rcases (hcomponent b d).mp hd with ⟨hb, rfl⟩ | hb
      · obtain ⟨hne, hnot⟩ := hapart hb ha
        exact iff_of_false hne fun hlinked => hnot hlinked.1
      · exact h.same a b c d ha hb

theorem Inv.join (h : Inv graph s) {position parent at_ : Nat}
    (hframes : s.frames = (node, position) :: (parent, at_) :: frames)
    (hend : Exhausted graph node position) (hlow : s.low node ≠ numberOf s.index node) :
    Inv graph (Tarjan.lower { s with frames := (parent, at_) :: frames } parent (s.low node)) := by
  obtain ⟨above, below, hstack, hblock, hparent, hrest, habove, hbelow, -⟩ := h.top hframes
  have hlowest := hblock.lowest
  have hreach := hrest.reach
  obtain ⟨above', below', rfl, hblock', hparent', hrest'⟩ := hrest
  have horder := h.order
  rw [hstack] at horder
  have horder' := (pairwise_append.mp horder).2.1.of_cons
  obtain ⟨-, hnode', hcross'⟩ := pairwise_append.mp horder'
  have hbelow' := (pairwise_cons.mp hnode').1
  obtain ⟨w, hw, hnumber, hto⟩ := hlowest
  have hw : w ∈ above' ++ parent :: below' := by
    rcases mem_cons.mp hw with rfl | hw
    · exact absurd hnumber.symm hlow
    · exact hw
  have hlinked : Linked graph.successors node parent := ⟨hto.trans (hreach w hw), hparent (parent, at_) rfl⟩
  have hself : (Tarjan.lower { s with frames := (parent, at_) :: frames } parent (s.low node)).low parent =
      min (s.low parent) (s.low node) := update_self _ _ _
  have hother : ∀ a ∈ below',
      (Tarjan.lower { s with frames := (parent, at_) :: frames } parent (s.low node)).low a = s.low a := by
    intro a ha
    refine update_of_ne ?_ _ _
    rintro rfl
    exact Nat.lt_irrefl _ (hbelow' a ha)
  refine { h with blocks := ?_ }
  have hstack' : s.stack = (above ++ node :: above') ++ parent :: below' := by
    rw [hstack, append_assoc, cons_append]
  refine ⟨above ++ node :: above', below', hstack', ?_, hparent',
    hrest'.congr (fun _ ha => ha) fun a ha => ⟨hother a ha, rfl⟩⟩
  constructor
  · intro x hx
    rcases mem_append.mp hx with hx | hx
    · exact (hblock.linked x hx).trans hlinked
    · rcases mem_cons.mp hx with rfl | hx
      · exact hlinked
      · exact hblock'.linked x hx
  · intro x hx y hy
    rcases mem_append.mp hx with hx | hx
    · exact hblock.done x hx y hy
    · rcases mem_cons.mp hx with rfl | hx
      · exact hblock.seen y (by rwa [hend.take])
      · exact hblock'.done x hx y hy
  · exact hblock'.seen
  · intro y hy hout
    rw [hself]
    have hin : y ∈ above' ++ parent :: below' := mem_append_right _ (mem_cons_of_mem _ hy)
    have hnode : ∀ x ∈ above ++ [node], y ∈ graph.successors x → s.low node ≤ numberOf s.index y := by
      intro x hx hedge
      rcases mem_append.mp hx with hx | hx
      · exact hblock.bound y hin (.inl ⟨x, hx, hedge⟩)
      · rw [mem_singleton.mp hx] at hedge
        exact hblock.bound y hin (.inr (by rwa [hend.take]))
    rcases hout with ⟨x, hx, hedge⟩ | hedge
    · rcases mem_append.mp hx with hx | hx
      · exact (min_le_right _ _).trans (hnode x (mem_append_left _ hx) hedge)
      · rcases mem_cons.mp hx with rfl | hx
        · exact (min_le_right _ _).trans (hnode _ (by simp) hedge)
        · exact (min_le_left _ _).trans (hblock'.bound y hy (.inl ⟨x, hx, hedge⟩))
    · exact (min_le_left _ _).trans (hblock'.bound y hy (.inr hedge))
  · rw [hself]
    rcases le_total (s.low parent) (s.low node) with hle | hle
    · rw [min_eq_left hle]
      exact hblock'.lowest
    · rw [min_eq_right hle]
      refine ⟨w, ?_, hnumber, hlinked.2.trans hto⟩
      rcases mem_append.mp hw with hw | hw
      · have hgt := hcross' w hw parent mem_cons_self
        obtain ⟨v, hv, hnumber', -⟩ := hblock'.lowest
        have hv : numberOf s.index v ≤ numberOf s.index parent := by
          rcases mem_cons.mp hv with rfl | hv
          · exact le_rfl
          · exact (hbelow' v hv).le
        omega
      · exact hw

theorem leave_of_eq (htell : s.tellParent node = t) (hlow : t.low node = numberOf t.index node) :
    s.leave node = t.popComponent node := by
  subst htell
  exact if_pos hlow

theorem leave_of_ne (htell : s.tellParent node = t) (hlow : t.low node ≠ numberOf t.index node) : s.leave node = t := by
  subst htell
  exact if_neg hlow

theorem Inv.leave (h : Inv graph s) {position : Nat} (hframes : s.frames = (node, position) :: frames)
    (hend : Exhausted graph node position) : Inv graph ({ s with frames }.leave node) := by
  obtain ⟨above, below, hstack, hblock, -, hrest, -, hbelow, hle⟩ := h.top hframes
  by_cases hlow : s.low node = numberOf s.index node
  · -- the low number of a node that is the first of its block is no news to its parent
    have hsame : Tarjan.tellParent { s with frames } node = { s with frames } := by
      cases frames with
      | nil => rfl
      | cons frame frames =>
        obtain ⟨above', below', rfl, hblock', -, -⟩ := hrest
        obtain ⟨w, hw, hnumber, -⟩ := hblock'.lowest
        have hlt := hbelow w (mem_append_right _ hw)
        have hmin : min (s.low frame.1) (s.low node) = s.low frame.1 := min_eq_left (by omega)
        rw [tellParent]
        simp only [Tarjan.lower, hmin, Function.update_eq_self]
    rw [leave_of_eq hsame hlow]
    exact h.pop hframes hend hlow
  · cases frames with
    | nil =>
      obtain rfl : below = [] := hrest
      obtain ⟨w, hw, hnumber, -⟩ := hblock.lowest
      rw [mem_singleton.mp hw] at hnumber
      exact absurd hnumber.symm hlow
    | cons frame frames =>
      obtain ⟨parent, at_⟩ := frame
      have hne : node ≠ parent := by
        rintro rfl
        obtain ⟨above', below', rfl, -⟩ := hrest
        exact Nat.lt_irrefl _ (hbelow node (by simp))
      have hkept : (Tarjan.lower { s with frames := (parent, at_) :: frames } parent (s.low node)).low node =
          s.low node := update_of_ne hne _ _
      have htell : Tarjan.tellParent { s with frames := (parent, at_) :: frames } node =
          Tarjan.lower { s with frames := (parent, at_) :: frames } parent (s.low node) := rfl
      rw [leave_of_ne htell (hkept.trans_ne hlow)]
      exact h.join hframes hend hlow

theorem Inv.descend (h : Inv graph s) {position : Nat} (hframes : s.frames = (node, position) :: frames)
    (hsuccessor : (graph.successors node)[position]? = some successor) (hnew : s.index successor = none) :
    Inv graph (Tarjan.visit { s with frames := (node, position + 1) :: frames } successor) := by
  have hedge : graph.Edge node successor := mem_of_getElem? hsuccessor
  have hvisit : Inv graph (s.visit successor) := by
    refine h.visit hnew hedge.target_lt fun parent hparent => ?_
    rw [hframes] at hparent
    cases hparent
    exact .single hedge
  obtain ⟨above, below, hstack, hblock, hparent, hrest, -, hbelow, -⟩ :=
    hvisit.top (show (s.visit successor).frames = (successor, 0) :: s.frames from rfl)
  rw [hframes] at hparent hrest
  obtain ⟨above', below', rfl, hblock', hparent', hrest'⟩ := hrest
  have hvisited : (s.visit successor).index successor ≠ none := by
    simp [Tarjan.visit]
  refine { hvisit with blocks := ⟨above, _, hstack, hblock, ?_, above', below', rfl, ?_, hparent', hrest'⟩ }
  · intro parent hparent
    cases hparent
    exact .single hedge
  · refine hblock'.advance hsuccessor hvisited fun hmem => ?_
    exact absurd (hbelow successor (mem_append_right _ (mem_cons_of_mem _ hmem))) (Nat.lt_irrefl _)

theorem Inv.step (h : Inv graph s) : Inv graph (s.step graph) := by
  rw [Tarjan.step]
  cases hframes : s.frames with
  | nil => exact h
  | cons frame frames =>
    obtain ⟨node, position⟩ := frame
    simp only
    cases hsuccessor : (graph.successors node)[position]? with
    | none => exact h.leave hframes hsuccessor
    | some successor =>
      have hedge : graph.Edge node successor := mem_of_getElem? hsuccessor
      simp only
      by_cases hnew : s.index successor = none
      · rw [if_pos hnew]
        exact h.descend hframes hsuccessor hnew
      · rw [if_neg hnew]
        by_cases hon : s.onStack successor = true
        · rw [if_pos hon]
          have hlower := h.lower hframes hedge ((h.onStack successor).mp hon)
          refine hlower.position hframes hsuccessor hnew fun _ => ?_
          exact (update_self node _ s.low).le.trans (min_le_right _ _)
        · rw [if_neg hon]
          refine h.position hframes hsuccessor hnew fun hmem => ?_
          exact absurd ((h.onStack successor).mpr hmem) hon

/-! ## The end of a search -/

def left (graph : Digraph) (s : Tarjan) : Nat :=
  pending graph s.frames + unvisited graph s (List.range graph.len)

theorem unvisited_congr (hindex : t.index = s.index) (nodes : List Nat) :
    unvisited graph t nodes = unvisited graph s nodes := by
  induction nodes with
  | nil => rfl
  | cons node nodes ih => rw [unvisited, unvisited, hindex, ih]

theorem unvisited_visit (graph : Digraph) (hnew : s.index node = none) : ∀ {nodes : List Nat}, nodes.Nodup →
    unvisited graph (s.visit node) nodes +
      (if node ∈ nodes then (graph.successors node).length + 1 else 0) = unvisited graph s nodes := by
  intro nodes
  induction nodes with
  | nil => exact fun _ => rfl
  | cons a nodes ih =>
    intro hnodup
    rw [nodup_cons] at hnodup
    have hrest := ih hnodup.2
    rw [unvisited, unvisited]
    by_cases ha : a = node
    · subst ha
      rw [if_neg hnodup.1] at hrest
      have hvisited : (s.visit a).index a ≠ none := by simp [Tarjan.visit]
      rw [if_neg hvisited, if_pos hnew, if_pos mem_cons_self]
      omega
    · have hsame : (s.visit node).index a = s.index a := update_of_ne ha _ _
      rw [hsame]
      simp only [mem_cons, Ne.symm ha, false_or]
      omega

theorem popUntil_index (node : Nat) : ∀ (stack : List Nat) (s : Tarjan),
    (popUntil node stack s).index = s.index ∧ (popUntil node stack s).frames = s.frames := by
  intro stack
  induction stack with
  | nil => exact fun s => ⟨rfl, rfl⟩
  | cons member rest ih =>
    intro s
    rw [popUntil]
    split
    · exact ⟨rfl, rfl⟩
    · exact ih _

theorem leave_index (s : Tarjan) (node : Nat) : (s.leave node).index = s.index ∧ (s.leave node).frames = s.frames := by
  have htell : (s.tellParent node).index = s.index ∧ (s.tellParent node).frames = s.frames := by
    rw [tellParent]
    split <;> exact ⟨rfl, rfl⟩
  by_cases hlow : (s.tellParent node).low node = numberOf (s.tellParent node).index node
  · rw [leave_of_eq rfl hlow]
    obtain ⟨hindex, hframes⟩ := popUntil_index node (s.tellParent node).stack (s.tellParent node)
    exact ⟨hindex.trans htell.1, hframes.trans htell.2⟩
  · rw [leave_of_ne rfl hlow]
    exact htell

theorem left_step (h : s.frames ≠ []) : left graph (s.step graph) < left graph s := by
  obtain ⟨⟨node, position⟩, frames, hframes⟩ := exists_cons_of_ne_nil h
  have hkept : ∀ t : Tarjan, t.index = s.index →
      unvisited graph t (List.range graph.len) = unvisited graph s (List.range graph.len) :=
    fun t ht => unvisited_congr ht _
  rw [left, left, Tarjan.step, hframes]
  simp only
  cases hsuccessor : (graph.successors node)[position]? with
  | none =>
    simp only
    obtain ⟨hindex, hleft⟩ := leave_index { s with frames } node
    rw [hkept _ hindex, hleft, pending]
    show pending graph frames + _ < _
    omega
  | some successor =>
    have hposition := (List.getElem?_eq_some_iff.mp hsuccessor).1
    have hedge : graph.Edge node successor := mem_of_getElem? hsuccessor
    have hless : pending graph ((node, position + 1) :: frames) < pending graph ((node, position) :: frames) := by
      rw [pending, pending]
      omega
    simp only
    by_cases hnew : s.index successor = none
    · rw [if_pos hnew]
      have hvisit := unvisited_visit graph (s := { s with frames := (node, position + 1) :: frames })
        hnew (nodup_range (n := graph.len))
      rw [if_pos (mem_range.mpr hedge.target_lt),
        hkept { s with frames := (node, position + 1) :: frames } rfl] at hvisit
      show pending graph ((successor, 0) :: (node, position + 1) :: frames) + _ < _
      rw [pending]
      omega
    · rw [if_neg hnew]
      split
      · rw [hkept _ (by rfl)]
        exact Nat.add_lt_add_right hless _
      · rw [hkept _ (by rfl)]
        exact Nat.add_lt_add_right hless _

theorem step_of_nil (h : s.frames = []) : s.step graph = s := by
  rw [Tarjan.step, h]

theorem step_index (h : s.index a ≠ none) : (s.step graph).index a ≠ none := by
  rw [Tarjan.step]
  cases s.frames with
  | nil => exact h
  | cons frame frames =>
    obtain ⟨node, position⟩ := frame
    simp only
    cases (graph.successors node)[position]? with
    | none =>
      simp only
      rw [(leave_index _ _).1]
      exact h
    | some successor =>
      simp only
      split
      · show update s.index successor (some s.nextIndex) a ≠ none
        rw [Function.update_apply]
        split
        · exact Option.some_ne_none _
        · exact h
      · split <;> exact h

theorem Inv.run (h : Inv graph s) (rounds : Nat) (henough : s.frames = [] ∨ left graph s ≤ rounds) :
    Inv graph ((Tarjan.step graph)^[rounds] s) ∧ ((Tarjan.step graph)^[rounds] s).frames = [] ∧
      ∀ a, s.index a ≠ none → ((Tarjan.step graph)^[rounds] s).index a ≠ none := by
  induction rounds generalizing s with
  | zero =>
    refine ⟨h, ?_, fun a ha => ha⟩
    rcases henough with hnil | hzero
    · exact hnil
    · by_contra hne
      have hless : left graph (s.step graph) < left graph s := left_step hne
      omega
  | succ rounds ih =>
    rw [Function.iterate_succ_apply]
    have hless : (s.step graph).frames = [] ∨ left graph (s.step graph) ≤ rounds := by
      by_cases hnil : s.frames = []
      · rw [step_of_nil hnil]
        exact .inl hnil
      · have hless : left graph (s.step graph) < left graph s := left_step hnil
        rcases henough with hnil' | hle
        · exact absurd hnil' hnil
        · exact .inr (by omega)
    obtain ⟨hinv, hframes, hindex⟩ := ih h.step hless
    exact ⟨hinv, hframes, fun a ha => hindex a (step_index ha)⟩

theorem unvisited_le_fresh (graph : Digraph) (s : Tarjan) (nodes : List Nat) :
    unvisited graph s nodes ≤ unvisited graph fresh nodes := by
  induction nodes with
  | nil => exact le_rfl
  | cons node nodes ih =>
    rw [unvisited, unvisited, if_pos (show fresh.index node = none from rfl)]
    split <;> omega

theorem Inv.search (h : Inv graph s) (hframes : s.frames = []) {root : Nat} (hroot : root < graph.len) :
    Inv graph (s.search graph root) ∧ (s.search graph root).frames = [] ∧ (s.search graph root).index root ≠ none ∧
        ∀ a, s.index a ≠ none → (s.search graph root).index a ≠ none := by
  rw [Tarjan.search]
  split
  · rename_i hnew
    have hvisit := h.visit hnew hroot fun parent hparent => by rw [hframes] at hparent; cases hparent
    have hleft : left graph (s.visit root) ≤ unvisited graph fresh (List.range graph.len) := by
      have hrest := unvisited_visit graph hnew (nodup_range (n := graph.len))
      rw [if_pos (mem_range.mpr hroot)] at hrest
      have htotal := unvisited_le_fresh graph s (List.range graph.len)
      show pending graph ((root, 0) :: s.frames) + _ ≤ _
      rw [hframes, pending, pending]
      omega
    obtain ⟨hinv, hend, hindex⟩ := hvisit.run _ (.inr hleft)
    have hmono : ∀ a, a = root ∨ s.index a ≠ none → (s.visit root).index a ≠ none := by
      intro a ha
      show update s.index root (some s.nextIndex) a ≠ none
      rw [Function.update_apply]
      split
      · exact Option.some_ne_none _
      · rename_i hne
        exact ha.resolve_left hne
    exact ⟨hinv, hend, hindex root (hmono root (.inl rfl)), fun a ha => hindex a (hmono a (.inr ha))⟩
  · rename_i hvisited
    exact ⟨h, hframes, hvisited, fun a ha => ha⟩

theorem Inv.searches (h : Inv graph s) (hframes : s.frames = []) : ∀ (roots : List Nat),
    (∀ root ∈ roots, root < graph.len) →
    Inv graph (roots.foldl (Tarjan.search graph) s) ∧ (roots.foldl (Tarjan.search graph) s).frames = [] ∧
      ∀ a, a ∈ roots ∨ s.index a ≠ none → (roots.foldl (Tarjan.search graph) s).index a ≠ none := by
  intro roots
  induction roots generalizing s with
  | nil => exact fun _ => ⟨h, hframes, fun a ha => ha.resolve_left (by simp)⟩
  | cons root roots ih =>
    intro hroots
    rw [forall_mem_cons] at hroots
    obtain ⟨hinv, hend, hroot, hindex⟩ := h.search hframes hroots.1
    obtain ⟨hinv', hend', hindex'⟩ := ih hinv hend hroots.2
    refine ⟨hinv', hend', fun a ha => hindex' a ?_⟩
    rcases ha with ha | ha
    · rcases mem_cons.mp ha with rfl | ha
      · exact .inr hroot
      · exact .inl ha
    · exact .inr (hindex a ha)

end Tarjan

/-- Where the search ends, it has numbered every node. -/
theorem exists_searched (graph : Digraph) : ∃ s, Tarjan.Inv graph s ∧ s.component = stronglyConnected graph ∧
    ∀ a < graph.len, ∃ c, stronglyConnected graph a = some c := by
  obtain ⟨hinv, hframes, hindex⟩ := Tarjan.inv_fresh.searches rfl (range graph.len) fun root => mem_range.mp
  refine ⟨_, hinv, rfl, fun a ha => ?_⟩
  have hstack := hinv.blocks
  rw [hframes] at hstack
  have hvisited := hindex a (.inl (mem_range.mpr ha))
  rw [hinv.visited, show _ = [] from hstack] at hvisited
  exact Option.ne_none_iff_exists'.mp (hvisited.resolve_left not_mem_nil)

theorem component_eq_iff (graph : Digraph) {a b : Nat} (ha : a < graph.len) (hb : b < graph.len) :
    stronglyConnected graph a = stronglyConnected graph b ↔ Linked graph.successors a b := by
  obtain ⟨s, hinv, hcomponent, hall⟩ := exists_searched graph
  obtain ⟨c, hc⟩ := hall a ha
  obtain ⟨d, hd⟩ := hall b hb
  rw [hc, hd, Option.some.injEq]
  exact hinv.same a b c d (hcomponent ▸ hc) (hcomponent ▸ hd)

/-- Every node has a component, two nodes share theirs where each reaches the other, and an edge between components
leads to a smaller number. -/
structure RightComponents (graph : Digraph) (component : Nat → Option Nat) : Prop where
  all : ∀ a < graph.len, (component a).isSome = true
  same : ∀ a b, a < graph.len → b < graph.len →
    (component a = component b ↔ Reach graph.successors a b ∧ Reach graph.successors b a)
  down : ∀ a b, graph.Edge a b → component a ≠ component b → ∃ c d, component a = some c ∧ component b = some d ∧ d < c

theorem stronglyConnected_right (graph : Digraph) : RightComponents graph (stronglyConnected graph) := by
  obtain ⟨s, hinv, hcomponent, hall⟩ := exists_searched graph
  refine ⟨fun a ha => ?_, fun a b => component_eq_iff graph, fun a b hedge hne => ?_⟩
  · obtain ⟨c, hc⟩ := hall a ha
    rw [hc, Option.isSome_some]
  · obtain ⟨c, hc⟩ := hall a hedge.source_lt
    obtain ⟨-, hsucc⟩ := hinv.closed a c (hcomponent ▸ hc)
    obtain ⟨d, hle, hd⟩ := hsucc b hedge
    rw [hcomponent] at hd
    refine ⟨c, d, hc, hd, lt_of_le_of_ne hle ?_⟩
    rintro rfl
    exact hne (hc.trans hd.symm)

end Tsuzuri.Kg
