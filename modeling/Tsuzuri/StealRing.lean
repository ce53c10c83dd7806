import Tsuzuri.Ring

/-!
# A ring that one party fills and many empty

Two counts that only grow: the owner stores an item and then moves the tail, and whoever takes items moves the head
over them.
-/

namespace StealRing

open Ring (contents)

/-- A ring, with the counts of all items ever taken and ever put. -/
structure Counted (α : Type) where
  head : Nat
  tail : Nat
  slots : Nat → α

namespace Counted

variable {α : Type}

def item (capacity : Nat) (r : Counted α) (k : Nat) : α := r.slots (k % capacity)

def items (capacity : Nat) (r : Counted α) : List α := contents r.slots capacity r.head (r.tail - r.head)

def store (capacity : Nat) (r : Counted α) (k : Nat) (a : α) : Counted α :=
  { r with slots := Function.update r.slots (k % capacity) a }

def publish (r : Counted α) (n : Nat) : Counted α := { r with tail := r.tail + n }

def advance (r : Counted α) (n : Nat) : Counted α := { r with head := r.head + n }

section Fields

variable {capacity : Nat} {r : Counted α} {k n : Nat} {a : α}

@[simp] theorem head_store : (r.store capacity k a).head = r.head := rfl
@[simp] theorem tail_store : (r.store capacity k a).tail = r.tail := rfl
@[simp] theorem head_publish : (r.publish n).head = r.head := rfl
@[simp] theorem tail_publish : (r.publish n).tail = r.tail + n := rfl
@[simp] theorem slots_publish : (r.publish n).slots = r.slots := rfl
@[simp] theorem head_advance : (r.advance n).head = r.head + n := rfl
@[simp] theorem tail_advance : (r.advance n).tail = r.tail := rfl
@[simp] theorem slots_advance : (r.advance n).slots = r.slots := rfl

end Fields

/-- A ring holds at most as many items as it has slots. -/
structure Bounded (capacity : Nat) (r : Counted α) : Prop where
  le : r.head ≤ r.tail
  room : r.tail ≤ r.head + capacity

structure Evolves (capacity : Nat) (r r' : Counted α) : Prop where
  head : r.head ≤ r'.head
  tail : r.tail ≤ r'.tail
  kept : ∀ k, r.head ≤ k → k < r.tail → r'.item capacity k = r.item capacity k

/-- What a ring becomes when only thieves are at it. -/
structure Popped (r r' : Counted α) : Prop where
  tail : r'.tail = r.tail
  slots : r'.slots = r.slots
  head : r.head ≤ r'.head
  le : r'.head ≤ r'.tail

variable {capacity : Nat} {r r' : Counted α}

theorem Evolves.refl : Evolves capacity r r := ⟨le_rfl, le_rfl, fun _ _ _ => rfl⟩

theorem Evolves.trans {r'' : Counted α} (h : Evolves capacity r r') (hhead : r'.head = r.head)
    (h' : Evolves capacity r' r'') : Evolves capacity r r'' where
  head := h.head.trans h'.head
  tail := h.tail.trans h'.tail
  kept k hk hkt := (h'.kept k (by omega) (hkt.trans_le h.tail)).trans (h.kept k hk hkt)

theorem Popped.refl (h : r.head ≤ r.tail) : Popped r r := ⟨rfl, rfl, le_rfl, h⟩

theorem Popped.evolves (h : Popped r r') : Evolves capacity r r' where
  head := h.head
  tail := h.tail.ge
  kept k _ _ := by rw [item, item, h.slots]

theorem Popped.bounded (h : Popped r r') (hb : Bounded capacity r) : Bounded capacity r' where
  le := h.le
  room := h.tail ▸ hb.room.trans (Nat.add_le_add_right h.head _)

variable {n k : Nat} {a : α}

theorem popped_advance (h : r.head + n ≤ r.tail) : Popped r (r.advance n) :=
  ⟨rfl, rfl, Nat.le_add_right .., h⟩

/-! ## The items -/

theorem item_store_of_ne {j : Nat} (hj : r.head ≤ j) (hjk : j < k) (hk : k < r.head + capacity) :
    (r.store capacity k a).item capacity j = r.item capacity j := by
  have hne : (r.head + (j - r.head)) % capacity ≠ (r.head + (k - r.head)) % capacity :=
    Ring.slot_ne (by omega) (by omega) (by omega)
  rw [Nat.add_sub_cancel' hj, Nat.add_sub_cancel' (by omega)] at hne
  exact Function.update_of_ne hne ..

theorem item_store : (r.store capacity k a).item capacity k = a := Function.update_self ..

theorem evolves_store (hk : r.tail ≤ k) (hroom : k < r.head + capacity) : Evolves capacity r (r.store capacity k a) :=
  ⟨le_rfl, le_rfl, fun _ hj hjt => item_store_of_ne hj (hjt.trans_le hk) hroom⟩

theorem evolves_publish : Evolves capacity r (r.publish n) :=
  ⟨le_rfl, Nat.le_add_right .., fun _ _ _ => rfl⟩

theorem contents_of_kept {head : Nat} (h : ∀ k, head ≤ k → k < head + n → r'.item capacity k = r.item capacity k) :
    contents r'.slots capacity head n = contents r.slots capacity head n :=
  List.map_congr_left fun k hk => h (head + k) (Nat.le_add_right ..) (Nat.add_lt_add_left (List.mem_range.mp hk) head)

theorem items_store (hb : r.head ≤ r.tail) (hk : r.tail ≤ k) (hroom : k < r.head + capacity) :
    (r.store capacity k a).items capacity = r.items capacity :=
  contents_of_kept fun j hj hjt => item_store_of_ne hj (by simp only [head_store, tail_store] at hjt; omega) hroom

theorem items_publish (hb : r.head ≤ r.tail) :
    (r.publish n).items capacity = r.items capacity ++ contents r.slots capacity r.tail n := by
  have hcount : r.tail + n - r.head = r.tail - r.head + n := by omega
  rw [items, head_publish, tail_publish, slots_publish, hcount, Ring.contents_add, Nat.add_sub_cancel' hb]
  rfl

theorem items_advance (h : r.head + n ≤ r.tail) :
    r.items capacity = contents r.slots capacity r.head n ++ (r.advance n).items capacity := by
  have hcount : r.tail - r.head = n + (r.tail - (r.head + n)) := by omega
  rw [items, hcount, Ring.contents_add]
  rfl

theorem contents_one : contents r.slots capacity k 1 = [r.item capacity k] := rfl

/-! ## What a thief reads -/

/-- `batch` was read from count `head` on, of the `n` items that are to be taken. -/
structure Snapshot (capacity : Nat) (r : Counted α) (head n : Nat) (batch : List α) : Prop where
  old : head ≤ r.head
  short : batch.length ≤ n
  same : r.head = head → head + n ≤ r.tail ∧ batch = contents r.slots capacity head batch.length

variable {head n : Nat} {batch : List α}

theorem Snapshot.start (hold : head ≤ r.head) (hn : r.head = head → head + n ≤ r.tail) :
    Snapshot capacity r head n [] :=
  ⟨hold, Nat.zero_le _, fun h => ⟨hn h, rfl⟩⟩

variable (h : Snapshot capacity r head n batch)

include h

theorem Snapshot.evolves (he : Evolves capacity r r') : Snapshot capacity r' head n batch where
  old := h.old.trans he.head
  short := h.short
  same hhead := by
    have hr : r.head = head := le_antisymm (hhead ▸ he.head) h.old
    obtain ⟨hn, hbatch⟩ := h.same hr
    refine ⟨hn.trans he.tail, hbatch.trans (contents_of_kept fun k hk hkn => ?_).symm⟩
    exact he.kept k (hr ▸ hk) (by have := h.short; omega)

theorem Snapshot.read (hlt : batch.length < n) :
    Snapshot capacity r head n (batch ++ [r.item capacity (head + batch.length)]) where
  old := h.old
  short := by
    rw [List.length_append, List.length_singleton]
    exact hlt
  same hhead := by
    obtain ⟨hn, hbatch⟩ := h.same hhead
    refine ⟨hn, ?_⟩
    rw [List.length_append, List.length_singleton, Ring.contents_add, ← hbatch]
    rfl

theorem Snapshot.claim (hlen : batch.length = n) (hhead : r.head = head) :
    r.head + n ≤ r.tail ∧ r.items capacity = batch ++ (r.advance n).items capacity := by
  obtain ⟨hn, hbatch⟩ := h.same hhead
  rw [hlen] at hbatch
  rw [hhead]
  refine ⟨hn, ?_⟩
  rw [items_advance (hhead ▸ hn), hhead, ← hbatch]

end Counted

end StealRing
