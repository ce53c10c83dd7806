import Mathlib.Data.List.Basic
import Mathlib.Data.Nat.ModEq
import Mathlib.Logic.Function.Basic

/-!
# Ring buffers

The contents of a ring of slots, from the oldest item on.
-/

namespace Ring

open List

variable {α : Type} {slots : Nat → α} {capacity head count : Nat}

/-- The items of a ring: `count` of them, the oldest at `head`. -/
def contents (slots : Nat → α) (capacity head count : Nat) : List α :=
  (List.range count).map fun k => slots ((head + k) % capacity)

@[simp] theorem length_contents : (contents slots capacity head count).length = count := by
  simp [contents]

@[simp] theorem contents_zero : contents slots capacity head 0 = [] := rfl

theorem slot_ne {j k : Nat} (hj : j < capacity) (hk : k < capacity) (hne : j ≠ k) :
    (head + j) % capacity ≠ (head + k) % capacity := by
  intro h
  have hmod : j ≡ k [MOD capacity] := Nat.ModEq.add_left_cancel' head h
  exact hne (Nat.ModEq.eq_of_lt_of_lt hmod hj hk)

theorem contents_add (m n : Nat) : contents slots capacity head (m + n) =
    contents slots capacity head m ++ contents slots capacity (head + m) n := by
  unfold contents
  rw [range_add, map_append, map_map]
  simp only [Function.comp_def, Nat.add_assoc]

theorem contents_push (item : α) (h : count < capacity) :
    contents (Function.update slots ((head + count) % capacity) item) capacity head (count + 1) =
      contents slots capacity head count ++ [item] := by
  unfold contents
  rw [range_succ, map_append, map_singleton, Function.update_self]
  congr 1
  refine map_congr_left fun k hk => ?_
  have hk := mem_range.mp hk
  exact Function.update_of_ne (slot_ne (by omega) h (by omega)) ..

theorem contents_pop (h : 0 < count) : contents slots capacity head count =
    slots (head % capacity) :: contents slots capacity ((head + 1) % capacity) (count - 1) := by
  obtain ⟨n, rfl⟩ := Nat.exists_eq_add_of_lt h
  rw [Nat.zero_add, Nat.add_sub_cancel]
  unfold contents
  rw [range_succ_eq_map, map_cons, map_map, Nat.add_zero]
  congr 1
  refine map_congr_left fun k _ => ?_
  rw [Function.comp, Nat.mod_add_mod]
  congr 2
  omega

end Ring
