import Tsuzuri.Arena

/-!
# Handles never alias

`Consistent` is what holds between the four vectors and the free list of an arena.
-/

namespace Tsuzuri.Arena

open FaultVec List

variable {α : Type}

/-- `chain` lists the slots of the free list that starts at `free`, in order. -/
def FreeList (slots : List Slot) : Int → List Nat → Prop
  | free, [] => free = -1
  | free, i :: rest =>
    free = i ∧ ∃ slot, slots[i]? = some slot ∧ FreeList slots slot.position rest

def Slot.Reusable (slot : Slot) : Prop := slot.generation < -1

structure Consistent (arena : Arena α) : Prop where
  lengths : arena.owners.length = arena.values.length
  values_le : (arena.values.length : Int) ≤ i64Max
  generations : ∀ (i : Nat) slot, arena.slots[i]? = some slot → i64Min ≤ slot.generation ∧ slot.generation ≤ i64Max
  owner_slot : ∀ (p : Nat) owner, arena.owners[p]? = some owner →
    ∃ (i : Nat) (slot : Slot), owner = i ∧ arena.slots[i]? = some slot ∧ slot.position = p ∧ 0 ≤ slot.generation
  slot_owner : ∀ (i : Nat) slot, arena.slots[i]? = some slot → 0 ≤ slot.generation →
    ∃ p : Nat, slot.position = p ∧ arena.owners[p]? = some (i : Int)
  free_list : ∃ chain : List Nat, chain.Nodup ∧ FreeList arena.slots arena.free chain ∧
    ∀ i : Nat, i ∈ chain ↔ ∃ slot, arena.slots[i]? = some slot ∧ slot.Reusable

theorem FreeList.congr {slots slots' : List Slot} : ∀ {chain : List Nat} {free : Int},
    FreeList slots free chain → (∀ i ∈ chain, slots'[i]? = slots[i]?) →
    FreeList slots' free chain
  | [], _, h, _ => h
  | i :: rest, _, ⟨hi, slot, hslot, hrest⟩, hsame => by
    refine ⟨hi, slot, ?_, hrest.congr fun j hj => hsame j (mem_cons_of_mem _ hj)⟩
    rw [hsame i mem_cons_self, hslot]

theorem consistent_empty (id : Int) : Consistent (empty id : Arena α) where
  lengths := rfl
  values_le := by simp [empty, i64Max]
  generations := by simp [empty]
  owner_slot := by simp [empty]
  slot_owner := by simp [empty]
  free_list := ⟨[], nodup_nil, rfl, by simp [empty]⟩

/-- The handle names the dense position `p`, through its slot `i`. -/
structure Names (arena : Arena α) (handle : Handle) (i p : Nat) : Prop where
  arena_eq : handle.arena = arena.id
  index_eq : handle.index = i
  slot : arena.slots[i]? = some { position := p, generation := handle.generation }
  owner : arena.owners[p]? = some (i : Int)

variable {arena next : Arena α} {handle removed handle' : Handle} {i p p' : Nat} {value : α}
  {fault : Fault} {op : Op α} {made : Option Handle} {denoted : Option α}

theorem Names.position (h : Names arena handle i p) : position arena handle = p := by
  simp [Arena.position, h.arena_eq, h.index_eq, h.slot]

theorem Names.lt (hc : Consistent arena) (h : Names arena handle i p) : p < arena.values.length := by
  rw [← hc.lengths]
  exact (List.getElem?_eq_some_iff.mp h.owner).1

theorem position_cases (hc : Consistent arena) (hg : 0 ≤ handle.generation) :
    (∃ i p, Names arena handle i p) ∨ position arena handle = -1 := by
  unfold position
  by_cases ha : handle.arena = arena.id
  · rw [if_pos ha]
    cases hs : FaultVec.get handle.index arena.slots with
    | none => exact .inr rfl
    | some slot =>
      obtain ⟨i, hi, hslot⟩ := get_eq_some.mp hs
      by_cases hgen : slot.generation = handle.generation
      · obtain ⟨p, hp, howner⟩ := hc.slot_owner i slot hslot (by omega)
        have heq : slot = { position := p, generation := handle.generation } := by
          rw [← hp, ← hgen]
        exact .inl ⟨i, p, ha, hi, heq ▸ hslot, howner⟩
      · exact .inr (if_neg hgen)
  · exact .inr (if_neg ha)

theorem get_of_names (h : Names arena handle i p) (hv : arena.values[p]? = some value) :
    get handle arena = .ok (some value) := by
  simp only [get, h.position]
  rw [if_pos (by omega), index_ok (by simpa using hv)]
  rfl

theorem get_of_position (h : position arena handle = -1) : get handle arena = .ok none := by
  simp [get, h]

/-! ## Insertion -/

theorem free_cases (hc : Consistent arena) :
    arena.free = -1 ∨ ∃ (i : Nat) (slot : Slot), arena.free = i ∧ arena.slots[i]? = some slot ∧
      slot.Reusable ∧ checked (-1 - slot.generation) = .ok (-1 - slot.generation) := by
  obtain ⟨chain, -, hfree, hmem⟩ := hc.free_list
  cases chain with
  | nil => exact .inl hfree
  | cons i rest =>
    obtain ⟨hi, -, -, -⟩ := hfree
    obtain ⟨slot, hslot, hre⟩ := (hmem i).mp mem_cons_self
    have hrange := hc.generations i slot hslot
    have hre' : slot.generation < -1 := hre
    refine .inr ⟨i, slot, hi, hslot, hre, checked_ok ?_ ?_⟩ <;> unfold i64Min i64Max at * <;> omega

theorem insert_eq (hc : Consistent arena) (value : α) : (arena.free = -1 ∧ insert value arena = (do
      let values ← push value arena.values
      let owners ← push (arena.slots.length : Int) arena.owners
      let slots ← push { position := arena.values.length, generation := 0 } arena.slots
      .ok ({ arena with values, owners, slots },
        { arena := arena.id, index := arena.slots.length, generation := 0 }))) ∨
    ∃ (i : Nat) (slot : Slot), arena.free = i ∧ arena.slots[i]? = some slot ∧ slot.Reusable ∧ insert value arena = (do
        let values ← push value arena.values
        let owners ← push (i : Int) arena.owners
        .ok ({ arena with
          values, owners, free := slot.position,
          slots := arena.slots.set i { position := arena.values.length, generation := -1 - slot.generation } },
          { arena := arena.id, index := i, generation := -1 - slot.generation })) := by
  rcases free_cases hc with hf | ⟨i, slot, hi, hslot, hre, hfit⟩
  · refine .inl ⟨hf, ?_⟩
    unfold insert
    rw [if_pos (by omega)]
  · refine .inr ⟨i, slot, hi, hslot, hre, ?_⟩
    have hlen : i < arena.slots.length := (List.getElem?_eq_some_iff.mp hslot).1
    unfold insert
    rw [if_neg (by omega), hi, get_natCast, hslot, force_some, ok_bind, hfit, ok_bind, set_ok hlen]
    rfl

theorem insert_cases (hc : Consistent arena) (h : insert value arena = .ok (next, handle)) :
    (arena.values.length : Int) < i64Max ∧
    ((arena.free = -1 ∧ handle = { arena := arena.id, index := arena.slots.length, generation := 0 } ∧
      next = { arena with
        values := arena.values ++ [value], owners := arena.owners ++ [(arena.slots.length : Int)],
        slots := arena.slots ++ [{ position := arena.values.length, generation := 0 }] }) ∨
    ∃ (i : Nat) (slot : Slot), arena.free = i ∧ arena.slots[i]? = some slot ∧ slot.Reusable ∧
      handle = { arena := arena.id, index := i, generation := -1 - slot.generation } ∧
      next = { arena with
        values := arena.values ++ [value], owners := arena.owners ++ [(i : Int)],
        slots := arena.slots.set i { position := arena.values.length, generation := -1 - slot.generation },
        free := slot.position }) := by
  rcases insert_eq hc value with ⟨hf, heq⟩ | ⟨i, slot, hi, hslot, hre, heq⟩
  · rw [heq] at h
    simp only [bind_ok, push_ok] at h
    obtain ⟨values, ⟨hlt, rfl⟩, owners, ⟨-, rfl⟩, slots, ⟨-, rfl⟩, hnext⟩ := h
    cases hnext
    exact ⟨hlt, .inl ⟨hf, rfl, rfl⟩⟩
  · rw [heq] at h
    simp only [bind_ok, push_ok] at h
    obtain ⟨values, ⟨hlt, rfl⟩, owners, ⟨-, rfl⟩, hnext⟩ := h
    cases hnext
    exact ⟨hlt, .inr ⟨i, slot, hi, hslot, hre, rfl, rfl⟩⟩

theorem insert_fault (hc : Consistent arena) (h : insert value arena = .error fault) : fault = .allocation := by
  rcases insert_eq hc value with ⟨-, heq⟩ | ⟨i, slot, -, -, -, heq⟩
  · rw [heq] at h
    simp only [bind_error, push_error] at h
    grind
  · rw [heq] at h
    simp only [bind_error, push_error] at h
    grind

theorem getElem?_append_one {β : Type} {xs : List β} {x y : β} {k : Nat} :
    (xs ++ [x])[k]? = some y ↔ xs[k]? = some y ∨ k = xs.length ∧ y = x := by
  rcases Nat.lt_trichotomy k xs.length with h | rfl | h
  · rw [getElem?_append_left h]
    simp [Nat.ne_of_lt h]
  · simp [eq_comm]
  · rw [getElem?_eq_none (by simp; omega), getElem?_eq_none (by omega)]
    simp [Nat.ne_of_gt h]

theorem consistent_insert (hc : Consistent arena) (h : insert value arena = .ok (next, handle)) : Consistent next := by
  obtain ⟨hlt, ⟨hfree, -, rfl⟩ | ⟨i, slot, hi, hslot, hre, -, rfl⟩⟩ := insert_cases hc h
  · obtain ⟨chain, hnodup, hchain, hmem⟩ := hc.free_list
    refine ⟨by simp [hc.lengths], ?_, ?_, ?_, ?_, chain, hnodup, ?_, ?_⟩
    · simp only [length_append, length_singleton]
      omega
    · intro j s hs
      rcases getElem?_append_one.mp hs with hs | ⟨-, rfl⟩
      · exact hc.generations j s hs
      · simp [i64Min, i64Max]
    · intro p owner hp
      rcases getElem?_append_one.mp hp with hp | ⟨rfl, rfl⟩
      · obtain ⟨j, s, hj, hs, hrest⟩ := hc.owner_slot p owner hp
        exact ⟨j, s, hj, getElem?_append_one.mpr (.inl hs), hrest⟩
      · refine ⟨_, _, rfl, getElem?_append_one.mpr (.inr ⟨rfl, rfl⟩), ?_, Int.le_refl 0⟩
        rw [hc.lengths]
    · intro j s hs hg
      rcases getElem?_append_one.mp hs with hs | ⟨rfl, rfl⟩
      · obtain ⟨p, hp, howner⟩ := hc.slot_owner j s hs hg
        exact ⟨p, hp, getElem?_append_one.mpr (.inl howner)⟩
      · exact ⟨_, rfl, getElem?_append_one.mpr (.inr ⟨hc.lengths.symm, rfl⟩)⟩
    · refine hchain.congr fun j hj => ?_
      obtain ⟨s, hs, -⟩ := (hmem j).mp hj
      rw [hs, getElem?_append_one]
      exact .inl hs
    · intro j
      rw [hmem j]
      constructor
      · rintro ⟨s, hs, hr⟩
        exact ⟨s, getElem?_append_one.mpr (.inl hs), hr⟩
      · rintro ⟨s, hs, hr⟩
        rcases getElem?_append_one.mp hs with hs | ⟨-, rfl⟩
        · exact ⟨s, hs, hr⟩
        · simp [Slot.Reusable] at hr
  · have hlen : i < arena.slots.length := (List.getElem?_eq_some_iff.mp hslot).1
    have hrange := hc.generations i slot hslot
    have hre' : slot.generation < -1 := hre
    obtain ⟨chain, hnodup, hchain, hmem⟩ := hc.free_list
    obtain ⟨rest, rfl⟩ : ∃ rest, chain = i :: rest := by
      cases chain with
      | nil =>
        have hf : arena.free = -1 := hchain
        omega
      | cons j rest =>
        obtain ⟨hj, -⟩ := hchain
        exact ⟨rest, by congr 1; omega⟩
    obtain ⟨-, slot', hslot', hrest⟩ := hchain
    obtain rfl : slot = slot' := Option.some.inj (hslot.symm.trans hslot')
    have hnot : i ∉ rest := (nodup_cons.mp hnodup).1
    have hother : ∀ {j : Nat}, j ≠ i → ∀ s, (arena.slots.set i s)[j]? = arena.slots[j]? :=
      fun hj s => getElem?_set_ne (Ne.symm hj)
    -- the slot of an owner is in use, so it is not the free slot that the insertion takes
    have huse : ∀ {j : Nat} {s : Slot}, arena.slots[j]? = some s → 0 ≤ s.generation → j ≠ i := by
      rintro j s hs hg rfl
      obtain rfl : slot = s := Option.some.inj (hslot.symm.trans hs)
      omega
    refine ⟨by simp [hc.lengths], ?_, ?_, ?_, ?_, rest, (nodup_cons.mp hnodup).2, ?_, ?_⟩
    · simp only [length_append, length_singleton]
      omega
    · intro j s hs
      by_cases hj : j = i
      · subst hj
        rw [List.getElem?_set_self hlen] at hs
        cases hs
        unfold i64Min i64Max at *
        simp only
        omega
      · exact hc.generations j s (by rwa [hother hj] at hs)
    · intro p owner hp
      rcases getElem?_append_one.mp hp with hp | ⟨rfl, rfl⟩
      · obtain ⟨j, s, hj, hs, hpos, hg⟩ := hc.owner_slot p owner hp
        exact ⟨j, s, hj, by rw [hother (huse hs hg), hs], hpos, hg⟩
      · refine ⟨_, _, rfl, List.getElem?_set_self hlen, ?_, ?_⟩
        · rw [hc.lengths]
        · simp only
          omega
    · intro j s hs hg
      by_cases hj : j = i
      · subst hj
        rw [List.getElem?_set_self hlen] at hs
        cases hs
        exact ⟨_, rfl, getElem?_append_one.mpr (.inr ⟨hc.lengths.symm, rfl⟩)⟩
      · obtain ⟨p, hp, howner⟩ := hc.slot_owner j s (by rwa [hother hj] at hs) hg
        exact ⟨p, hp, getElem?_append_one.mpr (.inl howner)⟩
    · refine hrest.congr fun j hj => ?_
      exact hother (fun h => hnot (h ▸ hj)) _
    · intro j
      by_cases hj : j = i
      · subst hj
        constructor
        · exact fun h => absurd h hnot
        · rintro ⟨s, hs, hr⟩
          rw [List.getElem?_set_self hlen] at hs
          cases hs
          have : -1 - slot.generation < -1 := hr
          omega
      · have := hmem j
        rw [mem_cons] at this
        rw [hother hj, ← this]
        simp [hj]

/-! ## Removal -/

def vacant (arena : Arena α) (handle : Handle) : Slot :=
  if handle.generation = i64Max then { position := -1, generation := -1 }
  else { position := arena.free, generation := -2 - handle.generation }

theorem vacant_generation_neg (arena : Arena α) (hg : 0 ≤ handle.generation) :
    (vacant arena handle).generation < 0 := by
  unfold vacant
  split <;> simp only <;> omega

/-- `next` is `arena` without the value of `handle`: the last value, of the slot `m`, is at `p` now. -/
structure Removal (arena next : Arena α) (handle : Handle) (i p m : Nat) (slot : Slot) : Prop where
  names : Names arena handle i p
  generation_nonneg : 0 ≤ handle.generation
  generation_le : handle.generation ≤ i64Max
  last_owner : arena.owners[arena.values.length - 1]? = some (m : Int)
  last_slot : arena.slots[m]? = some slot
  last_position : slot.position = (arena.values.length - 1 : Nat)
  last_generation : 0 ≤ slot.generation
  id_eq : next.id = arena.id
  values_eq : next.values = swapRemove arena.values p
  owners_eq : next.owners = swapRemove arena.owners p
  slots_get : ∀ k : Nat, next.slots[k]? = if k = i then some (vacant arena handle) else
    if k = m then some { position := p, generation := slot.generation } else arena.slots[k]?
  free_eq : next.free = if handle.generation = i64Max then arena.free else i

theorem remove_names (hc : Consistent arena) (hn : Names arena handle i p) (hg : 0 ≤ handle.generation)
    (hle : handle.generation ≤ i64Max) : ∃ value next m slot, arena.values[p]? = some value ∧
      remove handle arena = .ok (next, some value) ∧ Removal arena next handle i p m slot := by
  have hp : p < arena.values.length := hn.lt hc
  have hlen := hc.lengths
  have hi : i < arena.slots.length := (List.getElem?_eq_some_iff.mp hn.slot).1
  have hvalue : arena.values[p]? = some arena.values[p] := getElem?_eq_getElem hp
  have hlast : arena.values.length - 1 < arena.owners.length := by omega
  obtain ⟨m, slot, hm, hslot, hpos, hgen⟩ :=
    hc.owner_slot _ _ (getElem?_eq_getElem hlast)
  have howner : arena.owners[arena.values.length - 1]? = some (m : Int) := by
    rw [getElem?_eq_getElem hlast, hm]
  have hmlen : m < arena.slots.length := (List.getElem?_eq_some_iff.mp hslot).1
  have hcast : (arena.values.length : Int) - 1 = ((arena.values.length - 1 : Nat) : Int) := by omega
  have hfit : checked ((arena.values.length : Int) - 1) = .ok ((arena.values.length - 1 : Nat) : Int) := by
    have hle := hc.values_le
    rw [← hcast]
    refine checked_ok ?_ ?_ <;> unfold i64Min i64Max at * <;> omega
  have hvacant : vacatedSlot arena.free handle = .ok (vacant arena handle) := by
    unfold vacatedSlot vacant
    by_cases hmax : handle.generation = i64Max
    · rw [if_pos hmax, if_pos hmax]
    · rw [if_neg hmax, if_neg hmax, checked_ok, ok_bind] <;> unfold i64Min i64Max at * <;> omega
  refine ⟨arena.values[p], { arena with
    values := swapRemove arena.values p, owners := swapRemove arena.owners p,
    slots := (arena.slots.set m { position := p, generation := slot.generation }).set i (vacant arena handle),
    free := if handle.generation = i64Max then arena.free else i }, m, slot, hvalue, ?_,
    ⟨hn, hg, hle, howner, hslot, hpos, hgen, rfl, rfl, rfl, ?_, rfl⟩⟩
  · unfold remove
    simp only [hn.position, hfit, ok_bind, hvacant]
    rw [if_neg (by omega), index_ok (by simpa using howner), ok_bind, get_natCast, hslot, force_some,
      ok_bind, set_ok hmlen, ok_bind, hn.index_eq, set_ok (by simpa using hi), ok_bind,
      swap_ok hp (by omega), ok_bind, pop_exchange hvalue]
    simp only
    rw [swap_ok (by omega) hlast, ok_bind, ← hlen]
    rfl
  · intro k
    rw [getElem?_set, length_set, getElem?_set]
    simp only [eq_comm, hi, hmlen, if_true]

theorem remove_stale (h : position arena handle = -1) : remove handle arena = .ok (arena, none) := by
  unfold remove
  rw [h]
  rfl

namespace Removal

variable {arena next : Arena α} {handle : Handle} {i p m : Nat} {slot : Slot}

variable (h : Removal arena next handle i p m slot)

include h

theorem owners_get (hc : Consistent arena) (k : Nat) : next.owners[k]? = if k < arena.values.length - 1 then
      (if k = p then some (m : Int) else arena.owners[k]?) else none := by
  have hp := h.names.lt hc
  rw [h.owners_eq, swapRemove_getElem? (by rw [hc.lengths]; exact hp), hc.lengths, h.last_owner]

theorem same_slot : i = m ↔ p = arena.values.length - 1 := by
  constructor
  · rintro rfl
    have hpos := h.last_position
    rw [Option.some.inj (h.last_slot.symm.trans h.names.slot)] at hpos
    simp only at hpos
    omega
  · intro hp
    have := h.names.owner
    rw [hp, h.last_owner] at this
    exact_mod_cast (Option.some.inj this).symm

theorem owner_slot (hc : Consistent arena) (k : Nat) (owner : Int) (hk : next.owners[k]? = some owner) :
    ∃ (j : Nat) (s : Slot), owner = j ∧ next.slots[j]? = some s ∧ s.position = k ∧ 0 ≤ s.generation := by
  rw [h.owners_get hc] at hk
  split at hk <;> [skip; cases hk]
  rename_i hlt
  split at hk
  · rename_i hkp
    have hne : m ≠ i := fun hmi => by
      have := h.same_slot.mp hmi.symm
      omega
    refine ⟨m, { position := p, generation := slot.generation }, (Option.some.inj hk).symm, ?_,
      by rw [hkp], h.last_generation⟩
    rw [h.slots_get, if_neg hne, if_pos rfl]
  · rename_i hkp
    obtain ⟨j, s, hj, hs, hsp, hsg⟩ := hc.owner_slot k owner hk
    have hji : j ≠ i := by
      rintro rfl
      obtain rfl : _ = s := Option.some.inj (h.names.slot.symm.trans hs)
      simp only at hsp
      omega
    have hjm : j ≠ m := by
      rintro rfl
      obtain rfl : slot = s := Option.some.inj (h.last_slot.symm.trans hs)
      have := h.last_position
      omega
    exact ⟨j, s, hj, by rw [h.slots_get, if_neg hji, if_neg hjm, hs], hsp, hsg⟩

theorem slot_owner (hc : Consistent arena) (k : Nat) (s : Slot) (hs : next.slots[k]? = some s)
    (hsg : 0 ≤ s.generation) : ∃ q : Nat, s.position = q ∧ next.owners[q]? = some (k : Int) := by
  have hp := h.names.lt hc
  have hneg := vacant_generation_neg arena h.generation_nonneg
  rw [h.slots_get] at hs
  split at hs
  · cases hs
    omega
  · rename_i hki
    split at hs
    · rename_i hkm
      cases hs
      have hpl : p ≠ arena.values.length - 1 := fun hpl => hki (by rw [hkm, h.same_slot.mpr hpl])
      exact ⟨p, rfl, by rw [h.owners_get hc, if_pos (by omega), if_pos rfl, hkm]⟩
    · rename_i hkm
      obtain ⟨q, hq, hown⟩ := hc.slot_owner k s hs hsg
      have hqlt : q < arena.owners.length := (List.getElem?_eq_some_iff.mp hown).1
      have hqp : q ≠ p := by
        rintro rfl
        have := Option.some.inj (hown.symm.trans h.names.owner)
        omega
      have hql : q ≠ arena.values.length - 1 := by
        rintro rfl
        have := Option.some.inj (hown.symm.trans h.last_owner)
        omega
      have := hc.lengths
      exact ⟨q, hq, by rw [h.owners_get hc, if_pos (by omega), if_neg hqp, hown]⟩

theorem reusable_iff (k : Nat) : (∃ s, next.slots[k]? = some s ∧ s.Reusable) ↔
      (k = i ∧ handle.generation ≠ i64Max) ∨ ∃ s, arena.slots[k]? = some s ∧ s.Reusable := by
  have hg := h.generation_nonneg
  have hm := h.last_generation
  rw [h.slots_get]
  by_cases hki : k = i
  · subst hki
    have hold : ¬ ∃ s, arena.slots[k]? = some s ∧ s.Reusable := by
      rw [h.names.slot]
      simp only [Option.some.injEq, exists_eq_left', Slot.Reusable]
      omega
    rw [or_iff_left hold, if_pos rfl]
    by_cases hmax : handle.generation = i64Max
    · simp [hmax, vacant, Slot.Reusable]
    · simp [hmax, vacant, Slot.Reusable]
      omega
  · by_cases hkm : k = m
    · subst hkm
      rw [if_neg hki, if_pos rfl, h.last_slot]
      simp only [Option.some.injEq, exists_eq_left', Slot.Reusable, hki, false_and, false_or]
    · rw [if_neg hki, if_neg hkm]
      simp [hki]

theorem free_list (hc : Consistent arena) : ∃ chain : List Nat, chain.Nodup ∧ FreeList next.slots next.free chain ∧
      ∀ k : Nat, k ∈ chain ↔ ∃ s, next.slots[k]? = some s ∧ s.Reusable := by
  have hg := h.generation_nonneg
  obtain ⟨chain, hnodup, hfree, hmem⟩ := hc.free_list
  have hkeep : ∀ k ∈ chain, k ≠ i ∧ next.slots[k]? = arena.slots[k]? := by
    intro k hk
    obtain ⟨s, hs, hr⟩ := (hmem k).mp hk
    have hr' : s.generation < -1 := hr
    have hki : k ≠ i := by
      rintro rfl
      obtain rfl : _ = s := Option.some.inj (h.names.slot.symm.trans hs)
      simp only at hr'
      omega
    have hkm : k ≠ m := by
      rintro rfl
      obtain rfl : slot = s := Option.some.inj (h.last_slot.symm.trans hs)
      have := h.last_generation
      omega
    exact ⟨hki, by rw [h.slots_get, if_neg hki, if_neg hkm]⟩
  have hrest := hfree.congr fun k hk => (hkeep k hk).2
  by_cases hmax : handle.generation = i64Max
  · refine ⟨chain, hnodup, ?_, fun k => ?_⟩
    · rw [h.free_eq, if_pos hmax]
      exact hrest
    · rw [h.reusable_iff, hmem k]
      simp [hmax]
  · refine ⟨i :: chain, nodup_cons.mpr ⟨fun hi => (hkeep i hi).1 rfl, hnodup⟩, ?_, fun k => ?_⟩
    · rw [h.free_eq, if_neg hmax]
      refine ⟨rfl, vacant arena handle, by rw [h.slots_get, if_pos rfl], ?_⟩
      unfold vacant
      rw [if_neg hmax]
      exact hrest
    · rw [h.reusable_iff, mem_cons, hmem k]
      simp [hmax]

theorem consistent (hc : Consistent arena) : Consistent next where
  lengths := by rw [h.owners_eq, h.values_eq, length_swapRemove, length_swapRemove, hc.lengths]
  values_le := by
    have := hc.values_le
    rw [h.values_eq, length_swapRemove]
    omega
  generations := by
    intro k s hs
    have hg := h.generation_nonneg
    have hle := h.generation_le
    rw [h.slots_get] at hs
    split at hs
    · cases hs
      unfold vacant
      split <;> unfold i64Min i64Max at * <;> simp only <;> omega
    · split at hs
      · cases hs
        exact hc.generations m slot h.last_slot
      · exact hc.generations k s hs
  owner_slot := h.owner_slot hc
  slot_owner := h.slot_owner hc
  free_list := h.free_list hc

end Removal

theorem update_names (hc : Consistent arena) (hn : Names arena handle i p) (change : α → α) :
    ∃ value, arena.values[p]? = some value ∧ update handle change arena =
        .ok { arena with values := arena.values.set p (change value) } := by
  have hp : p < arena.values.length := hn.lt hc
  have hvalue : arena.values[p]? = some arena.values[p] := getElem?_eq_getElem hp
  have hle := hc.values_le
  have hcast : (arena.values.length : Int) - 1 = ((arena.values.length - 1 : Nat) : Int) := by omega
  have hfit : checked ((arena.values.length : Int) - 1) = .ok ((arena.values.length - 1 : Nat) : Int) := by
    rw [← hcast]
    refine checked_ok ?_ ?_ <;> unfold i64Min i64Max at * <;> omega
  have hpush : push (change arena.values[p]) (swapRemove arena.values p)
      = .ok (swapRemove arena.values p ++ [change arena.values[p]]) := by
    rw [push_ok, length_swapRemove]
    exact ⟨by omega, rfl⟩
  refine ⟨arena.values[p], hvalue, ?_⟩
  unfold update
  simp only [hn.position, hfit, ok_bind]
  rw [show decide ((0 : Int) ≤ (p : Int)) = true by simp, assert_true, ok_bind,
    swap_ok hp (by omega), ok_bind, pop_exchange hvalue]
  simp only
  rw [hpush, ok_bind, swap_ok (by simp; omega) (by simp), ok_bind, exchange_swapRemove hp]

theorem update_stale (h : position arena handle = -1) (change : α → α) :
    update handle change arena = .error .assertion := by
  unfold update
  rw [h]
  rfl

theorem consistent_update (hc : Consistent arena) {values : List α}
    (h : values.length = arena.values.length) : Consistent { arena with values } :=
  ⟨by rw [hc.lengths, h], by rw [h]; exact hc.values_le, hc.generations, hc.owner_slot, hc.slot_owner, hc.free_list⟩

def Handle.Made (handle : Handle) : Prop :=
  0 ≤ handle.generation ∧ handle.generation ≤ i64Max

theorem insert_made (hc : Consistent arena) (h : insert value arena = .ok (next, handle)) : handle.Made := by
  obtain ⟨-, ⟨-, rfl, -⟩ | ⟨i, slot, -, hslot, hre, rfl, -⟩⟩ := insert_cases hc h
  · exact ⟨Int.le_refl 0, by simp [i64Max]⟩
  · have hrange := hc.generations i slot hslot
    have hre' : slot.generation < -1 := hre
    refine ⟨?_, ?_⟩ <;> unfold i64Min i64Max at * <;> simp only <;> omega

theorem step_cases (hc : Consistent arena) (hop : ∀ handle, op.handle? = some handle → handle.Made)
    (h : step arena op = .ok (next, made)) :
    (∃ value handle, op = .insert value ∧ insert value arena = .ok (next, handle)) ∨
    (∃ handle i p m slot, op = .remove handle ∧ Removal arena next handle i p m slot) ∨
    (∃ handle, op = .remove handle ∧ position arena handle = -1 ∧ next = arena) ∨
    (∃ handle change i p value, op = .update handle change ∧ Names arena handle i p ∧ arena.values[p]? = some value ∧
      next = { arena with values := arena.values.set p (change value) }) := by
  cases op with
  | insert value =>
    obtain ⟨⟨next', handle⟩, hins, heq⟩ := bind_ok.mp h
    cases heq
    exact .inl ⟨value, handle, rfl, hins⟩
  | remove handle =>
    obtain ⟨⟨next', out⟩, hrem, heq⟩ := bind_ok.mp h
    cases heq
    have hm := hop handle rfl
    rcases position_cases hc hm.1 with ⟨i, p, hn⟩ | hstale
    · obtain ⟨value, next', m, slot, -, hrem', hr⟩ := remove_names hc hn hm.1 hm.2
      rw [hrem'] at hrem
      cases hrem
      exact .inr (.inl ⟨handle, i, p, m, slot, rfl, hr⟩)
    · rw [remove_stale hstale] at hrem
      cases hrem
      exact .inr (.inr (.inl ⟨handle, rfl, hstale, rfl⟩))
  | update handle change =>
    obtain ⟨next', hupd, heq⟩ := bind_ok.mp h
    cases heq
    have hm := hop handle rfl
    rcases position_cases hc hm.1 with ⟨i, p, hn⟩ | hstale
    · obtain ⟨value, hvalue, hupd'⟩ := update_names hc hn change
      rw [hupd'] at hupd
      cases hupd
      exact .inr (.inr (.inr ⟨handle, change, i, p, value, rfl, hn, hvalue, rfl⟩))
    · rw [update_stale hstale] at hupd
      cases hupd

theorem consistent_step (hc : Consistent arena) (hop : ∀ handle, op.handle? = some handle → handle.Made)
    (h : step arena op = .ok (next, made)) : Consistent next := by
  rcases step_cases hc hop h with ⟨value, handle, -, hins⟩ | ⟨handle, i, p, m, slot, -, hr⟩ |
    ⟨handle, -, -, rfl⟩ | ⟨handle, change, i, p, value, -, -, -, rfl⟩
  · exact consistent_insert hc hins
  · exact hr.consistent hc
  · exact hc
  · exact consistent_update hc (length_set ..)

mutual

theorem Reachable.consistent : ∀ {arena : Arena α}, Reachable α arena → Consistent arena
  | _, .empty id => consistent_empty id
  | _, .step hr hop h =>
    consistent_step hr.consistent (fun handle hh => (hop handle hh).made) h

theorem Issued.made : ∀ {handle : Handle}, Issued α handle → handle.Made
  | _, .insert hr h => insert_made hr.consistent h

end

theorem step_faults (hc : Consistent arena) (hop : ∀ handle, op.handle? = some handle → handle.Made)
    (h : step arena op = .error fault) : (fault = .allocation ∧ ∃ value, op = .insert value) ∨
    (fault = .assertion ∧ ∃ handle change, op = .update handle change ∧ get handle arena = .ok none) := by
  cases op with
  | insert value =>
    rcases bind_error.mp h with hins | ⟨r, -, hr⟩
    · exact .inl ⟨insert_fault hc hins, value, rfl⟩
    · cases hr
  | remove handle =>
    have hm := hop handle rfl
    rcases position_cases hc hm.1 with ⟨i, p, hn⟩ | hstale
    · obtain ⟨value, next, m, slot, -, hrem, -⟩ := remove_names hc hn hm.1 hm.2
      rw [step, hrem] at h
      cases h
    · rw [step, remove_stale hstale] at h
      cases h
  | update handle change =>
    have hm := hop handle rfl
    rcases position_cases hc hm.1 with ⟨i, p, hn⟩ | hstale
    · obtain ⟨value, -, hupd⟩ := update_names hc hn change
      rw [step, hupd] at h
      cases h
    · rw [step, update_stale hstale] at h
      cases h
      exact .inr ⟨rfl, handle, change, rfl, get_of_position hstale⟩

/-! ## Following one handle through a run -/

def trackStep (handle : Handle) : Op α → Option α → Option α
  | .insert _, denoted => denoted
  | .remove removed, denoted => if removed = handle then none else denoted
  | .update updated change, denoted => if updated = handle then denoted.map change else denoted

def track (handle : Handle) : List (Op α) → Option α → Option α
  | [], denoted => denoted
  | op :: ops, denoted => track handle ops (trackStep handle op denoted)

def Slot.Past (slot : Slot) (generation : Int) : Prop :=
  slot.generation = -1 ∨ (0 ≤ slot.generation ∧ generation < slot.generation) ∨
    (slot.generation < -1 ∧ generation < -1 - slot.generation)

theorem vacant_past (arena : Arena α) {generation : Int} (hg : 0 ≤ removed.generation)
    (h : generation ≤ removed.generation) : (vacant arena removed).Past generation := by
  unfold vacant
  split
  · exact .inl rfl
  · refine .inr (.inr ⟨?_, ?_⟩) <;> simp only <;> omega

def Tracks (arena : Arena α) (handle : Handle) : Option α → Prop
  | some value => ∃ i p, Names arena handle i p ∧ arena.values[p]? = some value
  | none => handle.arena = arena.id ∧ ∃ (i : Nat) (slot : Slot), handle.index = i ∧
      arena.slots[i]? = some slot ∧ slot.Past handle.generation

theorem get_of_tracks (hm : handle.Made) (h : Tracks arena handle denoted) : get handle arena = .ok denoted := by
  cases denoted with
  | some value =>
    obtain ⟨i, p, hn, hv⟩ := h
    exact get_of_names hn hv
  | none =>
    obtain ⟨ha, i, slot, hi, hslot, hpast⟩ := h
    refine get_of_position ?_
    have hne : slot.generation ≠ handle.generation := by
      have := hm.1
      unfold Slot.Past at hpast
      omega
    simp [position, ha, hi, hslot, hne]

theorem Names.handle_eq (h : Names arena handle i p) (h' : Names arena handle' i p') : handle' = handle := by
  have hslot := Option.some.inj (h'.slot.symm.trans h.slot)
  have hgen := congrArg Slot.generation hslot
  obtain ⟨a, j, g⟩ := handle
  obtain ⟨a', j', g'⟩ := handle'
  simp only [Handle.mk.injEq]
  exact ⟨h'.arena_eq.trans h.arena_eq.symm, h'.index_eq.trans h.index_eq.symm, hgen⟩

theorem Names.position_ne {i' : Nat} (h : Names arena handle i p) (h' : Names arena handle' i' p')
    (hne : handle' ≠ handle) : i ≠ i' ∧ p ≠ p' := by
  have hi : i ≠ i' := by
    rintro rfl
    exact hne (h.handle_eq h')
  refine ⟨hi, ?_⟩
  rintro rfl
  have := Option.some.inj (h.owner.symm.trans h'.owner)
  omega

theorem tracks_insert (hc : Consistent arena) {made : Handle} (h : insert value arena = .ok (next, made))
    (hm : handle.Made) (ht : Tracks arena handle denoted) : Tracks next handle denoted := by
  obtain ⟨-, ⟨-, -, rfl⟩ | ⟨j, slot, -, hslot, hre, -, rfl⟩⟩ := insert_cases hc h
  · cases denoted with
    | some v =>
      obtain ⟨i, p, hn, hv⟩ := ht
      exact ⟨i, p, ⟨hn.arena_eq, hn.index_eq, getElem?_append_one.mpr (.inl hn.slot),
        getElem?_append_one.mpr (.inl hn.owner)⟩, getElem?_append_one.mpr (.inl hv)⟩
    | none =>
      obtain ⟨ha, i, s, hi, hs, hpast⟩ := ht
      exact ⟨ha, i, s, hi, getElem?_append_one.mpr (.inl hs), hpast⟩
  · have hre' : slot.generation < -1 := hre
    have hlen : j < arena.slots.length := (List.getElem?_eq_some_iff.mp hslot).1
    cases denoted with
    | some v =>
      obtain ⟨i, p, hn, hv⟩ := ht
      have hij : j ≠ i := by
        rintro rfl
        have hgen := congrArg Slot.generation (Option.some.inj (hslot.symm.trans hn.slot))
        have hnonneg := hm.1
        simp only at hgen
        omega
      exact ⟨i, p, ⟨hn.arena_eq, hn.index_eq, by rw [getElem?_set_ne hij, hn.slot],
        getElem?_append_one.mpr (.inl hn.owner)⟩, getElem?_append_one.mpr (.inl hv)⟩
    | none =>
      obtain ⟨ha, i, s, hi, hs, hpast⟩ := ht
      by_cases hij : j = i
      · subst hij
        obtain rfl : slot = s := Option.some.inj (hslot.symm.trans hs)
        refine ⟨ha, j, _, hi, List.getElem?_set_self hlen, ?_⟩
        unfold Slot.Past at hpast ⊢
        simp only
        omega
      · exact ⟨ha, i, s, hi, by rw [getElem?_set_ne hij, hs], hpast⟩

theorem Removal.tracks (hc : Consistent arena) {m : Nat} {slot : Slot}
    (h : Removal arena next removed i p m slot) (ht : Tracks arena handle denoted) :
    Tracks next handle (if removed = handle then none else denoted) := by
  have hg := h.generation_nonneg
  cases denoted with
  | some v =>
    obtain ⟨j, q, hn, hv⟩ := ht
    by_cases heq : removed = handle
    · subst heq
      rw [if_pos rfl]
      refine ⟨hn.arena_eq.trans h.id_eq.symm, i, _, h.names.index_eq,
        by rw [h.slots_get, if_pos rfl], vacant_past arena hg (Int.le_refl _)⟩
    · rw [if_neg heq]
      obtain ⟨hji, hqp⟩ := hn.position_ne h.names heq
      have hp := h.names.lt hc
      have hq := hn.lt hc
      by_cases hjm : j = m
      · -- the value that the handle names is the last one, which moves
        have hql : q = arena.values.length - 1 := by
          have := congrArg Slot.position (Option.some.inj (hn.slot.symm.trans (hjm ▸ h.last_slot)))
          have hpos := h.last_position
          simp only at this
          omega
        have hgen : slot.generation = handle.generation :=
          congrArg Slot.generation (Option.some.inj (h.last_slot.symm.trans (hjm ▸ hn.slot)))
        refine ⟨j, p, ⟨hn.arena_eq.trans h.id_eq.symm, hn.index_eq, ?_, ?_⟩, ?_⟩
        · rw [h.slots_get, if_neg hji, if_pos hjm, hgen]
        · rw [h.owners_get hc, if_pos (by omega), if_pos rfl, hjm]
        · rw [h.values_eq, swapRemove_getElem? hp, if_pos (by omega), if_pos rfl, ← hql, hv]
      · have hql : q ≠ arena.values.length - 1 := by
          rintro rfl
          have := Option.some.inj (hn.owner.symm.trans h.last_owner)
          omega
        refine ⟨j, q, ⟨hn.arena_eq.trans h.id_eq.symm, hn.index_eq, ?_, ?_⟩, ?_⟩
        · rw [h.slots_get, if_neg hji, if_neg hjm, hn.slot]
        · rw [h.owners_get hc, if_pos (by omega), if_neg hqp, hn.owner]
        · rw [h.values_eq, swapRemove_getElem? hp, if_pos (by omega), if_neg hqp, hv]
  | none =>
    obtain ⟨ha, j, s, hj, hs, hpast⟩ := ht
    rw [ite_self]
    have hs' := h.slots_get j
    by_cases hji : j = i
    · -- the slot has a later value, which the operation removes
      rw [if_pos hji] at hs'
      refine ⟨ha.trans h.id_eq.symm, j, _, hj, hs', vacant_past arena hg ?_⟩
      have hgen : s.generation = removed.generation :=
        congrArg Slot.generation (Option.some.inj (hs.symm.trans (hji ▸ h.names.slot)))
      unfold Slot.Past at hpast
      omega
    · rw [if_neg hji] at hs'
      by_cases hjm : j = m
      · rw [if_pos hjm] at hs'
        refine ⟨ha.trans h.id_eq.symm, j, _, hj, hs', ?_⟩
        obtain rfl : slot = s := Option.some.inj (h.last_slot.symm.trans (hjm ▸ hs))
        exact hpast
      · rw [if_neg hjm] at hs'
        exact ⟨ha.trans h.id_eq.symm, j, s, hj, hs'.trans hs, hpast⟩

theorem tracks_update {updated : Handle} {change : α → α} (hn : Names arena updated i p)
    (hv : arena.values[p]? = some value) (ht : Tracks arena handle denoted) :
    Tracks { arena with values := arena.values.set p (change value) } handle
      (if updated = handle then denoted.map change else denoted) := by
  cases denoted with
  | some v =>
    obtain ⟨j, q, hj, hq⟩ := ht
    by_cases heq : updated = handle
    · subst heq
      rw [if_pos rfl]
      have hqp : q = p := by
        have := hj.position.symm.trans hn.position
        omega
      subst hqp
      obtain rfl : v = value := Option.some.inj (hq.symm.trans hv)
      refine ⟨j, q, ⟨hj.arena_eq, hj.index_eq, hj.slot, hj.owner⟩, ?_⟩
      exact List.getElem?_set_self (List.getElem?_eq_some_iff.mp hq).1
    · rw [if_neg heq]
      refine ⟨j, q, ⟨hj.arena_eq, hj.index_eq, hj.slot, hj.owner⟩, ?_⟩
      simp only
      rw [getElem?_set_ne (Ne.symm (hj.position_ne hn heq).2), hq]
  | none =>
    rw [Option.map_none, ite_self]
    exact ht

theorem tracks_step (hc : Consistent arena) (hop : ∀ handle, op.handle? = some handle → handle.Made)
    (h : step arena op = .ok (next, made)) (hm : handle.Made) (ht : Tracks arena handle denoted) :
    Tracks next handle (trackStep handle op denoted) := by
  rcases step_cases hc hop h with ⟨value, handle', rfl, hins⟩ | ⟨removed, i, p, m, slot, rfl, hr⟩ |
    ⟨removed, rfl, hstale, rfl⟩ | ⟨updated, change, i, p, value, rfl, hn, hv, rfl⟩
  · exact tracks_insert hc hins hm ht
  · exact hr.tracks hc ht
  · change Tracks _ handle (if removed = handle then none else denoted)
    by_cases heq : removed = handle
    · subst heq
      rw [if_pos rfl]
      cases denoted with
      | none => exact ht
      | some v =>
        obtain ⟨i, p, hn, -⟩ := ht
        have := hn.position
        omega
    · rw [if_neg heq]
      exact ht
  · exact tracks_update hn hv ht

theorem tracks_run (hm : handle.Made) : ∀ {ops : List (Op α)}
    {arena final : Arena α} {denoted : Option α}, Consistent arena →
    (∀ op ∈ ops, ∀ h, op.handle? = some h → h.Made) → Tracks arena handle denoted →
    run arena ops = .ok final → Tracks final handle (track handle ops denoted)
  | [], _, _, _, _, _, ht, h => by
    cases h
    exact ht
  | op :: ops, _, _, _, hc, hops, ht, h => by
    obtain ⟨⟨next, made⟩, hstep, hrun⟩ := bind_ok.mp h
    have hop := hops op mem_cons_self
    have hrest : ∀ op ∈ ops, ∀ h, op.handle? = some h → h.Made :=
      fun op' h' => hops op' (mem_cons_of_mem _ h')
    rw [track]
    exact tracks_run hm (consistent_step hc hop hstep) hrest (tracks_step hc hop hstep hm ht) hrun

theorem tracks_inserted (hc : Consistent arena) (h : insert value arena = .ok (next, handle)) :
    Tracks next handle (some value) := by
  obtain ⟨-, ⟨-, rfl, rfl⟩ | ⟨i, slot, -, hslot, -, rfl, rfl⟩⟩ := insert_cases hc h
  · refine ⟨_, _, ⟨rfl, rfl, getElem?_append_one.mpr (.inr ⟨rfl, rfl⟩),
      getElem?_append_one.mpr (.inr ⟨hc.lengths.symm, rfl⟩)⟩,
      getElem?_append_one.mpr (.inr ⟨rfl, rfl⟩)⟩
  · have hlen : i < arena.slots.length := (List.getElem?_eq_some_iff.mp hslot).1
    exact ⟨_, _, ⟨rfl, rfl, List.getElem?_set_self hlen, getElem?_append_one.mpr (.inr ⟨hc.lengths.symm, rfl⟩)⟩,
      getElem?_append_one.mpr (.inr ⟨rfl, rfl⟩)⟩

/-- The contract of every reachable arena. It is consistent, and an operation with issued handles
ends in a fault only when memory is exhausted or an update is given a handle that names nothing, so
no integer operation overflows. A handle that an insertion returns denotes what `track` says after
every further run. A removal with a handle that names nothing returns the arena unchanged, and an
update with it traps. -/
theorem handles_never_alias {arena : Arena α} (hr : Reachable α arena) : Consistent arena ∧
    (∀ (op : Op α) (fault : Fault), (∀ handle, op.handle? = some handle → Issued α handle) →
      step arena op = .error fault →
      (fault = .allocation ∧ ∃ value, op = .insert value) ∨
      (fault = .assertion ∧ ∃ handle change, op = .update handle change ∧ get handle arena = .ok none)) ∧
    (∀ (value : α) (next final : Arena α) (handle : Handle) (ops : List (Op α)),
      insert value arena = .ok (next, handle) →
      (∀ op ∈ ops, ∀ h, op.handle? = some h → Issued α h) → run next ops = .ok final →
      get handle final = .ok (track handle ops (some value))) ∧
    (∀ handle, Issued α handle → get handle arena = .ok none → remove handle arena = .ok (arena, none) ∧
      ∀ change, update handle change arena = .error .assertion) := by
  have hc := hr.consistent
  refine ⟨hc, ?_, ?_, ?_⟩
  · intro op fault hop h
    exact step_faults hc (fun handle hh => (hop handle hh).made) h
  · intro value next final handle ops hins hops hrun
    have hm := insert_made hc hins
    exact get_of_tracks hm (tracks_run hm (consistent_insert hc hins)
      (fun op hop h hh => (hops op hop h hh).made) (tracks_inserted hc hins) hrun)
  · intro handle hh hget
    rcases position_cases hc hh.made.1 with ⟨i, p, hn⟩ | hstale
    · have hv := getElem?_eq_getElem (hn.lt hc)
      rw [get_of_names hn hv] at hget
      cases hget
    · exact ⟨remove_stale hstale, update_stale hstale⟩

def oneValue : Arena Nat :=
  { id := 1, values := [7], owners := [0], slots := [{ position := 0, generation := 0 }], free := -1 }

def oneHandle : Handle := { arena := 1, index := 0, generation := 0 }

theorem oneValue_insert : insert 7 (empty 1) = .ok (oneValue, oneHandle) := by decide

theorem oneHandle_issued : Issued Nat oneHandle := .insert (.empty 1) oneValue_insert

theorem oneValue_step : step (empty 1) (.insert 7) = .ok (oneValue, some oneHandle) := by
  rw [step, oneValue_insert]
  rfl

def noValue : Arena Nat :=
  { id := 1, values := [], owners := [], slots := [{ position := -1, generation := -2 }], free := 0 }

theorem noValue_step : step oneValue (.remove oneHandle) = .ok (noValue, none) := by decide

theorem noValue_reachable : Reachable Nat noValue := by
  have hone : Reachable Nat oneValue := by
    refine .step (.empty 1) (fun handle h => ?_) oneValue_step
    cases h
  refine .step hone (fun handle h => ?_) noValue_step
  cases h
  exact oneHandle_issued

/-- After its value is removed and its slot reused, the handle names nothing. -/
theorem handles_never_alias_reuse :
    get oneHandle { oneValue with values := [9], slots := [{ position := 0, generation := 1 }] } = .ok none := by
  refine (handles_never_alias (.empty 1)).2.2.1 7 oneValue _ oneHandle
    [.remove oneHandle, .insert 9] oneValue_insert ?_ (by decide)
  intro op hop h hh
  simp only [mem_cons, not_mem_nil, or_false] at hop
  rcases hop with rfl | rfl
  · cases hh
    exact oneHandle_issued
  · cases hh

/-- An update with a removed handle does not leave the arena unchanged: it traps. -/
theorem update_removed_traps : Reachable Nat noValue ∧ Issued Nat oneHandle ∧
    get oneHandle noValue = .ok none ∧ update oneHandle (· + 1) noValue ≠ .ok noValue :=
  ⟨noValue_reachable, oneHandle_issued, by decide, by decide⟩

end Tsuzuri.Arena
