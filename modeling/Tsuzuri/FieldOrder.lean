import Mathlib
import Tsuzuri.Layout

/-!
# The order of the fields of a record

`placeFields` against every order of the fields (`place_fields` of `llvm_layout.rs`). By decreasing alignment no field
is padded.
-/

namespace Tsuzuri.Layout

open DataLayout CheckedModule

/-- Alignments are powers of two, and a size is a multiple of its alignment. -/
def Aligned (fields : List (Nat × Nat)) : Prop :=
  ∀ field ∈ fields, field.2.isPowerOfTwo ∧ field.2 ∣ field.1

abbrev Descending (fields : List (Nat × Nat)) : Prop :=
  fields.Pairwise fun first second => second.2 ≤ first.2

def ordered (fields : List (Nat × Nat)) (flag : Bool) (order : List Nat) : List (Nat × Nat) :=
  order.map (fields.getD · (0, 1)) ++ if flag then [(1, 1)] else []

/-- The fields in the order of their slots; without slots they are stored as declared. -/
def storedOrder (count : Nat) : Option (List Nat) → List Nat
  | none => List.range count
  | some slots => (List.range count).map slots.idxOf

variable {fields : List (Nat × Nat)} {flag : Bool} {order : List Nat} {before : Nat × Nat}

/-! ## Padding -/

theorem le_foldl_place (fields : List (Nat × Nat)) (before : Nat × Nat) :
    before.1 + (fields.map Prod.fst).sum ≤ (fields.foldl place before).1 := by
  induction fields generalizing before with
  | nil => exact Nat.le_refl _
  | cons field fields ih =>
    have hrest := ih (place before field)
    have hpad := le_nextMultiple before.1 field.2
    rw [List.foldl_cons, List.map_cons, List.sum_cons]
    simp only [place] at hrest ⊢
    omega

theorem foldl_place_descending (before : Nat × Nat) (haligned : Aligned fields) (hdescending : Descending fields)
    (hbefore : ∀ field ∈ fields, field.2 ∣ before.1) :
    (fields.foldl place before).1 = before.1 + (fields.map Prod.fst).sum := by
  induction fields generalizing before with
  | nil => rfl
  | cons field fields ih =>
    obtain ⟨hfield, hfields⟩ := List.forall_mem_cons.mp haligned
    obtain ⟨hfirst, hrest⟩ := List.pairwise_cons.mp hdescending
    have hexact : nextMultiple before.1 field.2 = before.1 :=
      if_pos (Nat.mod_eq_zero_of_dvd (hbefore field List.mem_cons_self))
    -- the smaller alignments of the rest divide what is placed so far
    have hplaced : ∀ later ∈ fields, later.2 ∣ (place before field).1 := by
      intro later hlater
      have hdvd := dvd_of_le (hfields later hlater).1 hfield.1 (hfirst later hlater)
      simp only [place, hexact]
      exact Nat.dvd_add (hbefore later (List.mem_cons_of_mem _ hlater)) (Nat.dvd_trans hdvd hfield.2)
    rw [List.foldl_cons, ih _ hfields hrest hplaced, List.map_cons, List.sum_cons]
    simp only [place, hexact]
    omega

theorem foldl_place_align_perm {others : List (Nat × Nat)} (before : Nat × Nat) (hperm : fields.Perm others) :
    (fields.foldl place before).2 = (others.foldl place before).2 := by
  have hiff : ∀ bound, (fields.foldl place before).2 ≤ bound ↔ (others.foldl place before).2 ≤ bound := by
    intro bound
    rw [foldl_place_align, foldl_place_align]
    exact and_congr_right fun _ => forall_congr' fun field => imp_congr_left hperm.mem_iff
  exact Nat.le_antisymm ((hiff _).mpr (Nat.le_refl _)) ((hiff _).mp (Nat.le_refl _))

/-- By decreasing alignment fields take the fewest bytes. -/
theorem aggregate_descending_le {others : List (Nat × Nat)} (haligned : Aligned fields)
    (hdescending : Descending fields) (hperm : fields.Perm others) : (aggregate fields).1 ≤ (aggregate others).1 := by
  have hsize := foldl_place_descending (0, 1) haligned hdescending fun _ _ => Nat.dvd_zero _
  have hsum := (hperm.map Prod.fst).sum_nat
  have hother := le_foldl_place others (0, 1)
  have hpos : 1 ≤ (others.foldl place (0, 1)).2 := ((foldl_place_align others (0, 1) _).mp (Nat.le_refl _)).1
  simp only [aggregate, foldl_place_align_perm (0, 1) hperm]
  exact nextMultiple_mono (by omega) (Nat.dvd_refl _) hpos

theorem getD_aligned (haligned : Aligned fields) (index : Nat) :
    (fields.getD index (0, 1)).2.isPowerOfTwo ∧ (fields.getD index (0, 1)).2 ∣ (fields.getD index (0, 1)).1 := by
  rw [List.getD_eq_getElem?_getD]
  cases hfield : fields[index]? with
  | none => exact ⟨Nat.isPowerOfTwo_one, Nat.one_dvd _⟩
  | some field => exact haligned field (List.mem_of_getElem? hfield)

theorem ordered_aligned (haligned : Aligned fields) : Aligned (ordered fields flag order) := by
  intro field hfield
  obtain hfield | hfield := List.mem_append.mp hfield
  · obtain ⟨index, _, rfl⟩ := List.mem_map.mp hfield
    exact getD_aligned haligned index
  · cases flag with
    | false => cases hfield
    | true =>
      obtain rfl := List.mem_singleton.mp hfield
      exact ⟨Nat.isPowerOfTwo_one, Nat.one_dvd _⟩

abbrev DescendingOrder (fields : List (Nat × Nat)) (order : List Nat) : Prop :=
  order.Pairwise fun first second => (fields.getD second (0, 1)).2 ≤ (fields.getD first (0, 1)).2

theorem ordered_descending (haligned : Aligned fields) (horder : DescendingOrder fields order) :
    Descending (ordered fields flag order) := by
  refine List.pairwise_append.mpr ⟨List.pairwise_map.mpr horder, by cases flag <;> simp, ?_⟩
  -- the flag has the least alignment
  intro field hfield last hlast
  obtain ⟨index, _, rfl⟩ := List.mem_map.mp hfield
  cases flag with
  | false => cases hlast
  | true =>
    obtain rfl := List.mem_singleton.mp hlast
    exact Nat.pos_of_isPowerOfTwo (getD_aligned haligned index).1

theorem orderedSize_descending_le {others : List Nat} (haligned : Aligned fields)
    (horder : DescendingOrder fields order) (hperm : order.Perm others) :
    orderedSize fields flag order ≤ orderedSize fields flag others :=
  aggregate_descending_le (ordered_aligned haligned) (ordered_descending haligned horder) ((hperm.map _).append_right _)

/-! ## Slots -/

theorem map_idxOf_perm {count : Nat} (hperm : order.Perm (List.range count)) :
    ((List.range count).map order.idxOf).Perm (List.range count) := by
  have hnodup := hperm.nodup_iff.mpr List.nodup_range
  refine (hperm.symm.map _).trans (List.Perm.of_eq ?_)
  refine List.ext_getElem (by simpa using hperm.length_eq) fun slot hslot _ => ?_
  rw [List.getElem_map, hnodup.idxOf_getElem, List.getElem_range]

theorem storedOrder_slots {count : Nat} (hperm : order.Perm (List.range count)) :
    storedOrder count (some ((List.range count).map order.idxOf)) = order := by
  have hnodup := hperm.nodup_iff.mpr List.nodup_range
  have hslots := (map_idxOf_perm hperm).nodup_iff.mpr List.nodup_range
  have hlength : order.length = count := by simpa using hperm.length_eq
  refine List.ext_getElem (by simp [storedOrder, hlength]) fun slot hslot hinside => ?_
  have hindex : order[slot] < ((List.range count).map order.idxOf).length := by
    simpa using hperm.mem_iff.mp (List.getElem_mem hinside)
  have hslot : ((List.range count).map order.idxOf)[order[slot]] = slot := by
    rw [List.getElem_map, List.getElem_range, hnodup.idxOf_getElem]
  have hidx := hslots.idxOf_getElem _ hindex
  rw [hslot] at hidx
  simp only [storedOrder, List.getElem_map, List.getElem_range]
  exact hidx

abbrev sortedOrder (fields : List (Nat × Nat)) : List Nat :=
  (List.range fields.length).mergeSort fun i j => (fields.getD j (0, 1)).2 ≤ (fields.getD i (0, 1)).2

theorem sorted_trans (fields : List (Nat × Nat)) (a b c : Nat)
    (hab : decide ((fields.getD b (0, 1)).2 ≤ (fields.getD a (0, 1)).2))
    (hbc : decide ((fields.getD c (0, 1)).2 ≤ (fields.getD b (0, 1)).2)) :
    decide ((fields.getD c (0, 1)).2 ≤ (fields.getD a (0, 1)).2) :=
  decide_eq_true (Nat.le_trans (of_decide_eq_true hbc) (of_decide_eq_true hab))

theorem sorted_total (fields : List (Nat × Nat)) (a b : Nat) :
    decide ((fields.getD b (0, 1)).2 ≤ (fields.getD a (0, 1)).2) ||
      decide ((fields.getD a (0, 1)).2 ≤ (fields.getD b (0, 1)).2) := by
  simp only [Bool.or_eq_true, decide_eq_true_eq]
  omega

theorem sortedOrder_descending (fields : List (Nat × Nat)) : DescendingOrder fields (sortedOrder fields) :=
  (List.pairwise_mergeSort (sorted_trans fields) (sorted_total fields) _).imp fun h => of_decide_eq_true h

theorem sortedOrder_perm (fields : List (Nat × Nat)) : (sortedOrder fields).Perm (List.range fields.length) :=
  List.mergeSort_perm _ _

/-- Fields of one alignment keep their declared order. -/
theorem sortedOrder_stable {i j : Nat} (hlt : i < j) (hj : j < fields.length)
    (halign : (fields.getD i (0, 1)).2 = (fields.getD j (0, 1)).2) :
    (sortedOrder fields).idxOf i < (sortedOrder fields).idxOf j := by
  have hnodup := (sortedOrder_perm fields).nodup_iff.mpr List.nodup_range
  have hlength : j < (List.range fields.length).length := by simpa using hj
  have hrange : List.Sublist [i, j] (List.range fields.length) := by
    refine List.cons_sublist_iff.mpr ⟨_, _, (List.take_append_drop j _).symm, ?_, ?_⟩
    · simp only [List.take_range, List.mem_range]
      omega
    · rw [List.singleton_sublist, List.drop_eq_getElem_cons hlength, List.getElem_range]
      exact List.mem_cons_self
  have hsorted : List.Sublist [i, j] (sortedOrder fields) := by
    refine List.pair_sublist_mergeSort ?_ ?_ (decide_eq_true (Nat.le_of_eq halign.symm)) hrange
    · exact sorted_trans fields
    · exact sorted_total fields
  have hpairs : (sortedOrder fields).Pairwise fun a b =>
      (sortedOrder fields).idxOf a < (sortedOrder fields).idxOf b := by
    refine List.pairwise_iff_getElem.mpr fun p q hp hq hpq => ?_
    rwa [hnodup.idxOf_getElem, hnodup.idxOf_getElem]
  exact List.pairwise_iff_forall_sublist.mp hpairs hsorted

theorem placeFields_eq (fields : List (Nat × Nat)) (flag : Bool) : placeFields fields flag =
      if orderedSize fields flag (List.range fields.length) ≤ orderedSize fields flag (sortedOrder fields) then none
      else some ((List.range fields.length).map (sortedOrder fields).idxOf) :=
  rfl

/-- `placeFields` gives slots only for a stable order of the fields that takes fewer bytes than the
declared one, gives them where an order by decreasing alignment takes fewer, and no order of the
fields takes fewer bytes than the order that it leads to. -/
theorem placeFields_optimal (haligned : Aligned fields) : (∀ slots, placeFields fields flag = some slots →
      slots.Perm (List.range fields.length) ∧
        (∀ i j, i < j → j < fields.length → (fields.getD i (0, 1)).2 = (fields.getD j (0, 1)).2 →
          slots.getD i 0 < slots.getD j 0) ∧
        orderedSize fields flag (storedOrder fields.length (some slots)) <
          orderedSize fields flag (List.range fields.length)) ∧
      (∀ order : List Nat, order.Perm (List.range fields.length) → DescendingOrder fields order →
        orderedSize fields flag order < orderedSize fields flag (List.range fields.length) →
          ∃ slots, placeFields fields flag = some slots) ∧
      ∀ order : List Nat, order.Perm (List.range fields.length) →
        orderedSize fields flag (storedOrder fields.length (placeFields fields flag)) ≤
          orderedSize fields flag order := by
  have hsorted := sortedOrder_perm fields
  have hleast : ∀ order : List Nat, order.Perm (List.range fields.length) →
      orderedSize fields flag (sortedOrder fields) ≤ orderedSize fields flag order := fun order horder =>
    orderedSize_descending_le haligned (sortedOrder_descending fields) (hsorted.trans horder.symm)
  rw [placeFields_eq]
  split
  · rename_i hdeclared
    refine ⟨by rintro _ ⟨⟩, fun order horder _ hless => ?_, fun order horder => ?_⟩
    · have := hleast order horder
      omega
    · exact Nat.le_trans hdeclared (hleast order horder)
  · rename_i hless
    refine ⟨?_, fun _ _ _ _ => ⟨_, rfl⟩, fun order horder => ?_⟩
    · rintro _ ⟨⟩
      refine ⟨map_idxOf_perm hsorted, fun i j hlt hj halign => ?_, ?_⟩
      · have hi := Nat.lt_trans hlt hj
        simpa [List.getD_eq_getElem?_getD, hi, hj] using sortedOrder_stable hlt hj halign
      · rw [storedOrder_slots hsorted]
        exact Nat.lt_of_not_le hless
    · rw [storedOrder_slots hsorted]
      exact hleast order horder

theorem placeFields_optimal_guarded : ∃ slots, placeFields [(1, 1), (8, 8), (1, 1)] true = some slots := by
  have haligned : Aligned [(1, 1), (8, 8), (1, 1)] := by
    intro field hfield
    simp only [List.mem_cons, List.not_mem_nil, or_false] at hfield
    rcases hfield with rfl | rfl | rfl
    · exact ⟨⟨0, rfl⟩, by decide⟩
    · exact ⟨⟨3, rfl⟩, by decide⟩
    · exact ⟨⟨0, rfl⟩, by decide⟩
  exact (placeFields_optimal haligned).2.1 [1, 0, 2] (by decide) (by decide) (by decide)

end Tsuzuri.Layout
