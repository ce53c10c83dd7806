import Mathlib.Logic.Function.Basic
import Mathlib.Order.Lattice
import Mathlib.Tactic.Common

/-!
# Binary heaps whose items know their places

An array of items, the number of them that count, and for each item the place it was last written
to.
-/

namespace IndexedHeap

structure Heap (α : Type) where
  item : Nat → α
  place : α → Nat
  count : Nat

variable {i : Nat}

section Places

variable {α : Type}

def Heap.Mem (h : Heap α) (t : α) : Prop := ∃ i < h.count, h.item i = t

def Heap.Placed (h : Heap α) : Prop := ∀ i < h.count, h.place (h.item i) = i

theorem Heap.Placed.injective {h : Heap α} (hp : h.Placed) {j : Nat} (hi : i < h.count) (hj : j < h.count)
    (heq : h.item i = h.item j) : i = j := by
  have hpi := hp i hi
  rw [heq, hp j hj] at hpi
  exact hpi.symm

theorem Heap.Placed.place_lt {h : Heap α} (hp : h.Placed) {t : α} (ht : h.Mem t) :
    h.place t < h.count ∧ h.item (h.place t) = t := by
  obtain ⟨i, hi, rfl⟩ := ht
  rw [hp i hi]
  exact ⟨hi, rfl⟩

end Places

section Writes

variable {α : Type} [DecidableEq α]

def Heap.set (h : Heap α) (i : Nat) (t : α) : Heap α :=
  { h with item := Function.update h.item i t, place := Function.update h.place t i }

/-- The item of `i` goes to `a`, and what was there to `i`. -/
def Heap.swap (h : Heap α) (a i : Nat) : Heap α :=
  (h.set a (h.item i)).set i (h.item a)

section

variable (h : Heap α)

include h

@[simp] theorem set_count (i : Nat) (t : α) : (h.set i t).count = h.count := rfl

@[simp] theorem swap_count (a i : Nat) : (h.swap a i).count = h.count := rfl

theorem set_item (i j : Nat) (t : α) : (h.set i t).item j = if j = i then t else h.item j := by
  simp [Heap.set, Function.update_apply]

theorem set_place (i : Nat) (t u : α) : (h.set i t).place u = if u = t then i else h.place u := by
  simp [Heap.set, Function.update_apply]

theorem swap_item (a i j : Nat) :
    (h.swap a i).item j = if j = i then h.item a else if j = a then h.item i else h.item j := by
  simp [Heap.swap, set_item]

theorem swap_place (a i : Nat) (u : α) : (h.swap a i).place u =
      if u = h.item a then i else if u = h.item i then a else h.place u := by
  simp [Heap.swap, set_place]

end

theorem Heap.Placed.swap {h : Heap α} (hp : h.Placed) {a : Nat} (ha : a < h.count) (hi : i < h.count) :
    (h.swap a i).Placed := by
  intro j hj
  rw [swap_count] at hj
  rw [swap_place, swap_item]
  by_cases hji : j = i
  · simp [hji]
  · by_cases hja : j = a
    · subst hja
      have hne : h.item i ≠ h.item j := fun e => hji (hp.injective hj hi e.symm)
      simp [hji, hne]
    · have hna : h.item j ≠ h.item a := fun e => hja (hp.injective hj ha e)
      have hni : h.item j ≠ h.item i := fun e => hji (hp.injective hj hi e)
      simp [hji, hja, hna, hni, hp j hj]

theorem mem_swap {h : Heap α} {a : Nat} (ha : a < h.count) (hi : i < h.count) (t : α) :
    (h.swap a i).Mem t ↔ h.Mem t := by
  constructor
  · rintro ⟨j, hj, rfl⟩
    rw [swap_count] at hj
    rw [swap_item]
    split
    · exact ⟨a, ha, rfl⟩
    · split
      · exact ⟨i, hi, rfl⟩
      · exact ⟨j, hj, rfl⟩
  · rintro ⟨j, hj, rfl⟩
    by_cases hji : j = i
    · refine ⟨a, ha, ?_⟩
      rw [swap_item]
      by_cases hai : a = i <;> simp [hai, hji]
    · by_cases hja : j = a
      · exact ⟨i, hi, by simp [swap_item, hja]⟩
      · exact ⟨j, hj, by simp [swap_item, hji, hja]⟩

end Writes

section Sifts

variable {α κ : Type} [LinearOrder κ] (key : α → κ)

def Heap.Ordered (h : Heap α) : Prop :=
  ∀ i < h.count, 0 < i → key (h.item ((i - 1) / 2)) ≤ key (h.item i)

/-- All pairs are in order but that of `i` with its parent, which is not later than the children of `i`. -/
structure UpHole (h : Heap α) (i : Nat) : Prop where
  others : ∀ j < h.count, 0 < j → j ≠ i → key (h.item ((j - 1) / 2)) ≤ key (h.item j)
  grand : ∀ j < h.count, 0 < j → 0 < i → (j - 1) / 2 = i → key (h.item ((i - 1) / 2)) ≤ key (h.item j)

/-- All pairs are in order but those of `i` with its children. -/
structure DownHole (h : Heap α) (i : Nat) : Prop where
  others : ∀ j < h.count, 0 < j → (j - 1) / 2 ≠ i → key (h.item ((j - 1) / 2)) ≤ key (h.item j)
  grand : ∀ j < h.count, 0 < j → 0 < i → (j - 1) / 2 = i → key (h.item ((i - 1) / 2)) ≤ key (h.item j)

def Heap.least (h : Heap α) (i : Nat) : Nat :=
  let l := 2 * i + 1
  let r := l + 1
  let m := if l < h.count ∧ key (h.item l) < key (h.item i) then l else i
  if r < h.count ∧ key (h.item r) < key (h.item m) then r else m

section Order

variable {key}

theorem Heap.Ordered.root {h : Heap α} (ho : h.Ordered key) : ∀ i < h.count, key (h.item 0) ≤ key (h.item i) := by
  intro i
  induction i using Nat.strongRecOn with
  | ind i ih =>
    intro hi
    rcases Nat.eq_zero_or_pos i with rfl | hpos
    · exact le_refl _
    · exact (ih ((i - 1) / 2) (by omega) (by omega)).trans (ho i hi hpos)

theorem Heap.Ordered.congr {key' : α → κ} {h : Heap α} (ho : h.Ordered key)
    (heq : ∀ t, h.Mem t → key' t = key t) : h.Ordered key' := by
  intro i hi hpos
  rw [heq _ ⟨_, by omega, rfl⟩, heq _ ⟨_, hi, rfl⟩]
  exact ho i hi hpos

theorem Heap.Ordered.downHole {h : Heap α} (ho : h.Ordered key) (hi : i < h.count) : DownHole key h i := by
  constructor
  · exact fun j hj hpos _ => ho j hj hpos
  · intro j hj hpos hipos hpar
    exact (ho i hi hipos).trans (hpar ▸ ho j hj hpos)

variable (key) in
theorem least_cases (h : Heap α) (i : Nat) :
    (h.least key i = i ∨ h.least key i = 2 * i + 1 ∨ h.least key i = 2 * i + 2) ∧
      (h.least key i ≠ i → h.least key i < h.count ∧ key (h.item (h.least key i)) < key (h.item i)) ∧
      ∀ j < h.count, 0 < j → (j - 1) / 2 = i → key (h.item (h.least key i)) ≤ key (h.item j) := by
  have hchild : ∀ j, 0 < j → (j - 1) / 2 = i → j = 2 * i + 1 ∨ j = 2 * i + 2 := by omega
  simp only [Heap.least]
  by_cases hl : 2 * i + 1 < h.count ∧ key (h.item (2 * i + 1)) < key (h.item i)
  · simp only [if_pos hl]
    by_cases hr : 2 * i + 1 + 1 < h.count ∧ key (h.item (2 * i + 1 + 1)) < key (h.item (2 * i + 1))
    · simp only [if_pos hr]
      refine ⟨.inr (.inr trivial), fun _ => ⟨hr.1, hr.2.trans hl.2⟩, fun j hj hpos hpar => ?_⟩
      rcases hchild j hpos hpar with rfl | rfl
      · exact hr.2.le
      · exact le_refl _
    · simp only [if_neg hr]
      refine ⟨.inr (.inl trivial), fun _ => hl, fun j hj hpos hpar => ?_⟩
      rcases hchild j hpos hpar with rfl | rfl
      · exact le_refl _
      · exact not_lt.1 fun hlt => hr ⟨hj, hlt⟩
  · simp only [if_neg hl]
    by_cases hr : 2 * i + 1 + 1 < h.count ∧ key (h.item (2 * i + 1 + 1)) < key (h.item i)
    · simp only [if_pos hr]
      refine ⟨.inr (.inr trivial), fun _ => hr, fun j hj hpos hpar => ?_⟩
      rcases hchild j hpos hpar with rfl | rfl
      · exact hr.2.le.trans (not_lt.1 fun hlt => hl ⟨hj, hlt⟩)
      · exact le_refl _
    · simp only [if_neg hr]
      refine ⟨.inl trivial, fun hne => absurd rfl hne, fun j hj hpos hpar => ?_⟩
      rcases hchild j hpos hpar with rfl | rfl
      · exact not_lt.1 fun hlt => hl ⟨hj, hlt⟩
      · exact not_lt.1 fun hlt => hr ⟨hj, hlt⟩

end Order

variable [DecidableEq α]

def Heap.up : Nat → Heap α → Nat → Heap α
  | 0, h, _ => h
  | fuel + 1, h, i =>
    if i = 0 then h
    else if key (h.item ((i - 1) / 2)) ≤ key (h.item i) then h
    else Heap.up fuel (h.swap ((i - 1) / 2) i) ((i - 1) / 2)

def Heap.down : Nat → Heap α → Nat → Heap α
  | 0, h, _ => h
  | fuel + 1, h, i =>
    if h.least key i = i then h
    else Heap.down fuel (h.swap (h.least key i) i) (h.least key i)

def Heap.push (h : Heap α) (t : α) : Heap α :=
  Heap.up key h.count { h.set h.count t with count := h.count + 1 } h.count

def Heap.remove (h : Heap α) (t : α) : Heap α :=
  let i := h.place t
  let last := h.item (h.count - 1)
  let rest := { h with count := h.count - 1 }
  if i < rest.count then
    let risen := Heap.up key i (rest.set i last) i
    Heap.down key risen.count risen (risen.place last)
  else rest

variable {key}

theorem UpHole.swap {h : Heap α} (hh : UpHole key h i) (hi : i < h.count) (hpos : 0 < i)
    (hlt : key (h.item i) < key (h.item ((i - 1) / 2))) : UpHole key (h.swap ((i - 1) / 2) i) ((i - 1) / 2) := by
  have hpi : (i - 1) / 2 ≠ i := by omega
  constructor
  · intro j hj hjpos hjne
    rw [swap_count] at hj
    rw [swap_item, swap_item]
    by_cases hji : j = i
    · subst hji
      simp only [if_neg hpi, if_pos]
      exact hlt.le
    · rw [if_neg hji, if_neg hjne]
      by_cases hpj : (j - 1) / 2 = i
      · rw [if_pos hpj]
        exact hh.grand j hj hjpos hpos hpj
      · rw [if_neg hpj]
        by_cases hpp : (j - 1) / 2 = (i - 1) / 2
        · rw [if_pos hpp]
          exact hlt.le.trans (hpp ▸ hh.others j hj hjpos hji)
        · rw [if_neg hpp]
          exact hh.others j hj hjpos hji
  · intro j hj hjpos hppos hpj
    rw [swap_count] at hj
    have hgrand : key (h.item (((i - 1) / 2 - 1) / 2)) ≤ key (h.item ((i - 1) / 2)) :=
      hh.others _ (by omega) hppos hpi
    rw [swap_item, swap_item, if_neg (by omega), if_neg (by omega)]
    by_cases hji : j = i
    · rw [if_pos hji]
      exact hgrand
    · rw [if_neg hji, if_neg (by omega)]
      exact hgrand.trans (hpj ▸ hh.others j hj hjpos hji)

variable (key) in
theorem up_count : ∀ (fuel : Nat) (h : Heap α) (i : Nat), (Heap.up key fuel h i).count = h.count
  | 0, _, _ => rfl
  | fuel + 1, h, i => by
    rw [Heap.up]
    split
    · rfl
    split
    · rfl
    exact up_count fuel _ _

variable (key) in
theorem up_spec : ∀ (fuel : Nat) (h : Heap α) (i : Nat), i < h.count → h.Placed →
    (Heap.up key fuel h i).Placed ∧ ∀ t, (Heap.up key fuel h i).Mem t ↔ h.Mem t
  | 0, h, i, hi, hp => ⟨hp, fun _ => Iff.rfl⟩
  | fuel + 1, h, i, hi, hp => by
    rw [Heap.up]
    split
    · exact ⟨hp, fun _ => Iff.rfl⟩
    split
    · exact ⟨hp, fun _ => Iff.rfl⟩
    have hpar : (i - 1) / 2 < h.count := by omega
    obtain ⟨hplaced, hmem⟩ :=
      up_spec fuel (h.swap ((i - 1) / 2) i) ((i - 1) / 2) hpar (hp.swap hpar hi)
    exact ⟨hplaced, fun t => (hmem t).trans (mem_swap hpar hi t)⟩

theorem up_ordered : ∀ {fuel : Nat} {h : Heap α} {i : Nat}, i ≤ fuel → i < h.count → UpHole key h i →
    (Heap.up key fuel h i).Ordered key
  | 0, h, i, hf, hi, hh => fun j hj hpos => hh.others j hj hpos (by omega)
  | fuel + 1, h, i, hf, hi, hh => by
    rw [Heap.up]
    by_cases hzero : i = 0
    · rw [if_pos hzero]
      exact fun j hj hpos => hh.others j hj hpos (by omega)
    rw [if_neg hzero]
    by_cases hle : key (h.item ((i - 1) / 2)) ≤ key (h.item i)
    · rw [if_pos hle]
      intro j hj hpos
      by_cases hji : j = i
      · exact hji ▸ hle
      · exact hh.others j hj hpos hji
    · rw [if_neg hle]
      have hpar : (i - 1) / 2 < h.count := by omega
      exact up_ordered (by omega) hpar (hh.swap hi (by omega) (not_le.1 hle))

theorem up_of_le {fuel : Nat} {h : Heap α} (hle : 0 < i → key (h.item ((i - 1) / 2)) ≤ key (h.item i)) :
    Heap.up key fuel h i = h := by
  cases fuel with
  | zero => rfl
  | succ fuel =>
    rw [Heap.up]
    by_cases hzero : i = 0
    · rw [if_pos hzero]
    · rw [if_neg hzero, if_pos (hle (by omega))]

theorem DownHole.swap {h : Heap α} {m : Nat} (hh : DownHole key h i) (hm : m < h.count)
    (hpar : (m - 1) / 2 = i) (hpos : 0 < m) (hlt : key (h.item m) < key (h.item i))
    (hleast : ∀ j < h.count, 0 < j → (j - 1) / 2 = i → key (h.item m) ≤ key (h.item j)) :
    DownHole key (h.swap m i) m := by
  have hmi : m ≠ i := by omega
  constructor
  · intro j hj hjpos hjpar
    rw [swap_count] at hj
    rw [swap_item, swap_item]
    by_cases hji : j = i
    · rw [if_pos hji, if_neg (by omega), if_neg (by omega)]
      exact hji ▸ hh.grand m hm hpos (hji ▸ hjpos) hpar
    · rw [if_neg hji]
      by_cases hjm : j = m
      · rw [if_pos hjm, if_pos (hjm ▸ hpar)]
        exact hlt.le
      · rw [if_neg hjm]
        by_cases hjpi : (j - 1) / 2 = i
        · rw [if_pos hjpi]
          exact hleast j hj hjpos hjpi
        · rw [if_neg hjpi, if_neg hjpar]
          exact hh.others j hj hjpos hjpi
  · intro j hj hjpos _ hjpar
    rw [swap_count] at hj
    rw [swap_item, swap_item, if_pos hpar, if_neg (by omega), if_neg (by omega)]
    exact hjpar ▸ hh.others j hj hjpos (by omega)

variable (key) in
theorem down_count : ∀ (fuel : Nat) (h : Heap α) (i : Nat), (Heap.down key fuel h i).count = h.count
  | 0, _, _ => rfl
  | fuel + 1, h, i => by
    rw [Heap.down]
    split
    · rfl
    exact down_count fuel _ _

variable (key) in
theorem down_spec : ∀ (fuel : Nat) (h : Heap α) (i : Nat), i < h.count → h.Placed →
    (Heap.down key fuel h i).Placed ∧ ∀ t, (Heap.down key fuel h i).Mem t ↔ h.Mem t
  | 0, h, i, hi, hp => ⟨hp, fun _ => Iff.rfl⟩
  | fuel + 1, h, i, hi, hp => by
    rw [Heap.down]
    by_cases hm : h.least key i = i
    · rw [if_pos hm]
      exact ⟨hp, fun _ => Iff.rfl⟩
    · rw [if_neg hm]
      obtain ⟨hlt, -⟩ := (least_cases key h i).2.1 hm
      obtain ⟨hplaced, hmem⟩ :=
        down_spec fuel (h.swap (h.least key i) i) (h.least key i) hlt (hp.swap hlt hi)
      exact ⟨hplaced, fun t => (hmem t).trans (mem_swap hlt hi t)⟩

theorem down_ordered : ∀ {fuel : Nat} {h : Heap α} {i : Nat}, h.count ≤ fuel + i → i < h.count →
    DownHole key h i → (Heap.down key fuel h i).Ordered key
  | 0, h, i, hf, hi, hh => absurd hi (by omega)
  | fuel + 1, h, i, hf, hi, hh => by
    rw [Heap.down]
    obtain ⟨hwhere, hearlier, hleast⟩ := least_cases key h i
    by_cases hm : h.least key i = i
    · rw [if_pos hm]
      intro j hj hpos
      by_cases hpar : (j - 1) / 2 = i
      · rw [hm] at hleast
        exact hpar ▸ hleast j hj hpos hpar
      · exact hh.others j hj hpos hpar
    · rw [if_neg hm]
      obtain ⟨hlt, hkey⟩ := hearlier hm
      have hpar : (h.least key i - 1) / 2 = i := by omega
      exact down_ordered (by rw [swap_count]; omega) hlt (hh.swap hlt hpar (by omega) hkey hleast)

variable (key) in
theorem push_spec {h : Heap α} {t : α} (hp : h.Placed) (hnew : ¬ h.Mem t) :
    (h.push key t).count = h.count + 1 ∧ (h.push key t).Placed ∧ (∀ u, (h.push key t).Mem u ↔ u = t ∨ h.Mem u) ∧
      (h.Ordered key → (h.push key t).Ordered key) := by
  let g : Heap α := { h.set h.count t with count := h.count + 1 }
  have hitem : ∀ j, g.item j = if j = h.count then t else h.item j := fun j => set_item h h.count j t
  have hplaced : g.Placed := by
    intro j hj
    change j < h.count + 1 at hj
    change (h.set h.count t).place (g.item j) = j
    rw [set_place, hitem]
    by_cases hjc : j = h.count
    · simp [hjc]
    · have hne : h.item j ≠ t := fun e => hnew ⟨j, by omega, e⟩
      rw [if_neg hjc, if_neg hne]
      exact hp j (by omega)
  have hmem : ∀ u, g.Mem u ↔ u = t ∨ h.Mem u := by
    intro u
    constructor
    · rintro ⟨j, hj, rfl⟩
      change j < h.count + 1 at hj
      rw [hitem]
      by_cases hjc : j = h.count
      · exact .inl (if_pos hjc)
      · rw [if_neg hjc]
        exact .inr ⟨j, by omega, rfl⟩
    · rintro (rfl | ⟨j, hj, rfl⟩)
      · exact ⟨h.count, Nat.lt_succ_self _, by rw [hitem, if_pos rfl]⟩
      · exact ⟨j, Nat.lt_succ_of_lt hj, by rw [hitem, if_neg (by omega)]⟩
  have hlast : h.count < g.count := Nat.lt_succ_self _
  obtain ⟨hplaced', hmem'⟩ := up_spec key h.count g h.count hlast hplaced
  refine ⟨up_count key h.count g h.count, hplaced', fun u => (hmem' u).trans (hmem u), fun ho =>
    up_ordered (Nat.le_refl _) hlast ⟨?_, ?_⟩⟩
  · intro j hj hpos hne
    change j < h.count + 1 at hj
    rw [hitem, hitem, if_neg (by omega), if_neg hne]
    exact ho j (by omega) hpos
  · intro j hj hpos _ hpar
    change j < h.count + 1 at hj
    omega

variable (key) in
theorem fill_holes {h : Heap α} (ho : h.Ordered key) (hi : i < h.count - 1) :
    let g : Heap α := Heap.set { h with count := h.count - 1 } i (h.item (h.count - 1))
    (0 < i → key (g.item ((i - 1) / 2)) ≤ key (g.item i)) ∧ DownHole key g i ∨
      UpHole key g i := by
  intro g
  have hitem : ∀ j, g.item j = if j = i then h.item (h.count - 1) else h.item j :=
    fun j => set_item _ i j _
  have hcount : g.count = h.count - 1 := rfl
  have hgrand : ∀ j < g.count, 0 < j → 0 < i → (j - 1) / 2 = i → key (g.item ((i - 1) / 2)) ≤ key (g.item j) := by
    intro j hj hpos hipos hpar
    rw [hitem, hitem, if_neg (by omega), if_neg (by omega)]
    exact (ho i (by omega) hipos).trans (hpar ▸ ho j (by omega) hpos)
  by_cases hle : 0 < i → key (g.item ((i - 1) / 2)) ≤ key (g.item i)
  · refine .inl ⟨hle, fun j hj hpos hpar => ?_, hgrand⟩
    rw [hcount] at hj
    by_cases hji : j = i
    · rw [hji]
      exact hle (hji ▸ hpos)
    · rw [hitem, hitem, if_neg hpar, if_neg hji]
      exact ho j (by omega) hpos
  · have hipos : 0 < i := by
      by_contra hzero
      exact hle fun hpos => absurd hpos hzero
    have hlt : key (g.item i) < key (g.item ((i - 1) / 2)) := not_le.1 fun e => hle fun _ => e
    refine .inr ⟨fun j hj hpos hji => ?_, hgrand⟩
    by_cases hpar : (j - 1) / 2 = i
    · rw [hpar]
      exact hlt.le.trans (hgrand j hj hpos hipos hpar)
    · rw [hcount] at hj
      rw [hitem, hitem, if_neg hpar, if_neg hji]
      exact ho j (by omega) hpos

variable (key) in
theorem remove_spec {h : Heap α} {t : α} (hp : h.Placed) (hin : h.Mem t) :
    (h.remove key t).count + 1 = h.count ∧ (h.remove key t).Placed ∧ (∀ u, (h.remove key t).Mem u ↔ u ≠ t ∧ h.Mem u) ∧
      (h.Ordered key → (h.remove key t).Ordered key) := by
  obtain ⟨hplace, hat⟩ := hp.place_lt hin
  by_cases hi : h.place t < h.count - 1
  · -- the last item fills the place
    let g : Heap α := Heap.set { h with count := h.count - 1 } (h.place t) (h.item (h.count - 1))
    have hitem : ∀ j, g.item j = if j = h.place t then h.item (h.count - 1) else h.item j :=
      fun j => set_item _ _ j _
    have hplaced : g.Placed := by
      intro j hj
      change j < h.count - 1 at hj
      change (Heap.set { h with count := h.count - 1 } (h.place t) _).place (g.item j) = j
      rw [set_place, hitem]
      by_cases hjt : j = h.place t
      · simp [hjt]
      · have hne : h.item j ≠ h.item (h.count - 1) := fun e => by
          have := hp.injective (by omega) (by omega) e
          omega
        rw [if_neg hjt, if_neg hne]
        exact hp j (by omega)
    have hmem : ∀ u, g.Mem u ↔ u ≠ t ∧ h.Mem u := by
      intro u
      constructor
      · rintro ⟨j, hj, rfl⟩
        change j < h.count - 1 at hj
        rw [hitem]
        by_cases hjt : j = h.place t
        · rw [if_pos hjt]
          refine ⟨fun e => ?_, ⟨_, by omega, rfl⟩⟩
          rw [← hat] at e
          have := hp.injective (by omega) hplace e
          omega
        · rw [if_neg hjt]
          refine ⟨fun e => ?_, ⟨_, by omega, rfl⟩⟩
          rw [← hat] at e
          exact hjt (hp.injective (by omega) hplace e)
      · rintro ⟨hne, j, hj, rfl⟩
        by_cases hlast : j = h.count - 1
        · refine ⟨h.place t, hi, ?_⟩
          rw [hitem, if_pos rfl, hlast]
        · refine ⟨j, ?_, ?_⟩
          · change j < h.count - 1
            omega
          · rw [hitem, if_neg fun e => hne (by rw [e, hat])]
    have hgi : h.place t < g.count := hi
    obtain ⟨hp', hm'⟩ := up_spec key (h.place t) g (h.place t) hgi hplaced
    have hgone : h.remove key t = Heap.down key (Heap.up key (h.place t) g (h.place t)).count
        (Heap.up key (h.place t) g (h.place t))
        ((Heap.up key (h.place t) g (h.place t)).place (h.item (h.count - 1))) := by
      rw [Heap.remove]
      exact if_pos hi
    have hlast : (Heap.up key (h.place t) g (h.place t)).Mem (h.item (h.count - 1)) :=
      (hm' _).2 ⟨h.place t, hgi, by rw [hitem, if_pos rfl]⟩
    obtain ⟨hlt, -⟩ := hp'.place_lt hlast
    obtain ⟨hp'', hm''⟩ := down_spec key _ _ _ hlt hp'
    rw [hgone]
    refine ⟨?_, hp'', fun u => (hm'' u).trans ((hm' u).trans (hmem u)), fun ho =>
      down_ordered (Nat.le_add_right _ _) hlt ?_⟩
    · rw [down_count, up_count]
      change h.count - 1 + 1 = h.count
      omega
    · rcases fill_holes key ho hi with ⟨hle, hdown⟩ | hup
      · -- the rise did nothing, so the item is still in the place
        have hsame : Heap.up key (h.place t) g (h.place t) = g := up_of_le hle
        have hwhere : g.place (h.item (h.count - 1)) = h.place t := by
          have := hplaced (h.place t) hgi
          rwa [hitem, if_pos rfl] at this
        rw [hsame, hwhere]
        exact hdown
      · exact (up_ordered (Nat.le_refl _) hgi hup).downHole hlt
  · -- it was the last one
    have hlast : h.place t = h.count - 1 := by omega
    have hgone : h.remove key t = { h with count := h.count - 1 } := by
      rw [Heap.remove]
      exact if_neg hi
    rw [hgone]
    refine ⟨Nat.sub_add_cancel (by omega), ?_, fun u => ?_, ?_⟩
    · exact fun j hj => hp j (Nat.lt_of_lt_of_le hj (Nat.sub_le h.count 1))
    · constructor
      · rintro ⟨j, hj, rfl⟩
        have hj' : j < h.count - 1 := hj
        refine ⟨fun e => ?_, ⟨j, by omega, rfl⟩⟩
        change h.item j = t at e
        rw [← hat] at e
        have := hp.injective (by omega) hplace e
        omega
      · rintro ⟨hne, j, hj, rfl⟩
        refine ⟨j, ?_, rfl⟩
        have : j ≠ h.count - 1 := fun e => hne (by rw [e, ← hlast, hat])
        change j < h.count - 1
        omega
    · exact fun ho j hj hpos => ho j (Nat.lt_of_lt_of_le hj (Nat.sub_le h.count 1)) hpos

end Sifts

end IndexedHeap
