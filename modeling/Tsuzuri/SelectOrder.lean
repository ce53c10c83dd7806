import Tsuzuri.IndexedHeap
import Mathlib.Data.List.Nodup
import Mathlib.Data.Nat.Basic
import Mathlib.Logic.Equiv.Basic

/-!
# The orders of a select

`tzr_select` (`tzroutine.c`) shuffles its cases into `pollorder` and sorts them by channel address into `lockorder`,
which `tzr_sellock` and `tzr_selunlock` walk.
-/

namespace Tsuzuri.SelectOrder

open IndexedHeap Function

abbrev Chan := {address : Nat // address ≠ 0}

/-- `TZR_CASE_KEY`: the address of a case's channel. -/
def caseKey (cases : List Chan) (k : Nat) : Nat := (cases[k]?.map Subtype.val).getD 0

abbrev Indices := Nat → Nat

def tzrRand (state : BitVec 64) : BitVec 64 × BitVec 64 :=
  let x := state ^^^ (state >>> 12)
  let x := x ^^^ (x <<< 25)
  let x := x ^^^ (x >>> 27)
  (x, x * 0x2545F4914F6CDD1D)

def shuffleTurn (s : Indices × BitVec 64) (i : Nat) : Indices × BitVec 64 :=
  let (state, number) := tzrRand s.2
  let j := number.toNat % (i + 1)
  let moved := update s.1 i (s.1 j)
  (update moved j (i % 65536), state)

/-- The loop over `pollorder`, whose memory holds anything at first. -/
def pollorder (n : Nat) (memory : Indices) (rand : BitVec 64) : Indices :=
  ((List.range n).foldl shuffleTurn (memory, rand)).1

section

variable (key : Nat → Nat)

/-- The inner loop that puts `k` into the heap from place `j` on. -/
def rise (a : Indices) (j k : Nat) : Indices :=
  if 0 < j ∧ key (a ((j - 1) / 2)) < key k then rise (update a j (a ((j - 1) / 2))) ((j - 1) / 2) k
  else update a j k
termination_by j

/-- The child of `j` in a heap of `i` indices that may come up. -/
def childOf (a : Indices) (i j : Nat) : Nat :=
  if 2 * j + 2 < i ∧ key (a (2 * j + 1)) < key (a (2 * j + 2)) then 2 * j + 2 else 2 * j + 1

theorem childOf_cases (a : Indices) (i j : Nat) :
    childOf key a i j = 2 * j + 1 ∨ childOf key a i j = 2 * j + 2 ∧ 2 * j + 2 < i := by
  unfold childOf
  split
  · exact .inr ⟨rfl, ‹_ ∧ _›.1⟩
  · exact .inl rfl

def sink (a : Indices) (i j k : Nat) : Indices :=
  if i ≤ 2 * j + 1 then update a j k
  else if key (a (childOf key a i j)) ≤ key k then update a j k
  else sink (update a j (a (childOf key a i j))) i (childOf key a i j) k
termination_by i - j
decreasing_by
  have := childOf_cases key a i j
  omega

/-- The first loop over `lockorder`. -/
def build (n : Nat) (pollorder lockorder : Indices) : Indices :=
  (List.range n).foldl (fun a i => rise key a i (pollorder i)) lockorder

def extract (a : Indices) (i : Nat) : Indices := sink key (update a i (a 0)) i 0 (a i)

/-- The turns of the second loop from `i` down to 1. -/
def extractAll : Nat → Indices → Indices
  | 0, a => a
  | i + 1, a => extractAll i (extract key a (i + 1))

def lockorder (n : Nat) (pollorder memory : Indices) : Indices :=
  extractAll key (n - 1) (build key n pollorder memory)

def sellock (n : Nat) (lockorder : Indices) : List Nat :=
  ((List.range n).foldl (fun (acquired, last) i =>
    let c := key (lockorder i)
    (if c ≠ last then acquired ++ [c] else acquired, c)) ([], 0)).1

/-- The locks that the turns of `tzr_selunlock` below `n` release. -/
def selunlock (lockorder : Indices) : Nat → List Nat
  | 0 => []
  | i + 1 =>
    if 0 < i ∧ key (lockorder (i - 1)) = key (lockorder i) then selunlock lockorder i
    else key (lockorder i) :: selunlock lockorder i

end

/-- `b` is `a` with the indices below `n` in another order. -/
def Rearranged (n : Nat) (a b : Indices) : Prop :=
  ∃ σ : Equiv.Perm Nat, (∀ x, n ≤ x → σ x = x) ∧ b = a ∘ σ

variable {n i j k : Nat} {a b c : Indices} {key : Nat → Nat}

theorem Rearranged.refl : Rearranged n a a := ⟨.refl Nat, fun _ _ => rfl, rfl⟩

theorem Rearranged.trans (hab : Rearranged n a b) (hbc : Rearranged n b c) : Rearranged n a c := by
  obtain ⟨σ, hσ, rfl⟩ := hab
  obtain ⟨τ, hτ, rfl⟩ := hbc
  exact ⟨τ.trans σ, fun x hx => by rw [Equiv.trans_apply, hτ x hx, hσ x hx], rfl⟩

theorem Rearranged.lt {σ : Equiv.Perm Nat} (hσ : ∀ x, n ≤ x → σ x = x) {x : Nat} (hx : x < n) : σ x < n := by
  by_contra hge
  have hfix := σ.injective (hσ (σ x) (Nat.le_of_not_lt hge))
  omega

theorem Rearranged.perm (h : Rearranged n a b) : ((List.range n).map b).Perm ((List.range n).map a) := by
  obtain ⟨σ, hσ, rfl⟩ := h
  rw [← List.map_map]
  refine List.Perm.map a ((List.perm_ext_iff_of_nodup
    (List.Nodup.map σ.injective List.nodup_range) List.nodup_range).2 ?_)
  intro x
  rw [List.mem_map, List.mem_range]
  constructor
  · rintro ⟨y, hy, rfl⟩
    exact Rearranged.lt hσ (List.mem_range.1 hy)
  · intro hx
    by_cases hfix : n ≤ σ.symm x
    · have := hσ _ hfix
      rw [Equiv.apply_symm_apply] at this
      omega
    · exact ⟨σ.symm x, List.mem_range.2 (by omega), σ.apply_symm_apply x⟩

theorem update_hole (hne : i ≠ j) : update (update a j (a i)) i k = update a j k ∘ Equiv.swap i j := by
  funext x
  rw [comp_apply, Equiv.swap_apply_def]
  by_cases hi : x = i
  · simp [hi]
  · by_cases hj : x = j
    · simp [hj, hne, hne.symm]
    · simp [hi, hj]

theorem rearranged_hole (hi : i < n) (hj : j < n) (hne : i ≠ j) :
    Rearranged n (update a j k) (update (update a j (a i)) i k) :=
  ⟨Equiv.swap i j, fun x hx => Equiv.swap_apply_of_ne_of_ne (by omega) (by omega), update_hole hne⟩

theorem rise_rearranged (hj : j < n) : Rearranged n (update a j k) (rise key a j k) := by
  induction a, j using rise.induct key k with
  | case1 a j h ih =>
    rw [rise, if_pos h]
    exact (rearranged_hole (by omega) hj (by omega)).trans (ih (by omega))
  | case2 a j h =>
    rw [rise, if_neg h]
    exact .refl

variable (key) in
theorem sink_rearranged (hj : j < i) : Rearranged i (update a j k) (sink key a i j k) := by
  induction a, j using sink.induct key i k with
  | case1 a j h =>
    rw [sink, if_pos h]
    exact .refl
  | case2 a j h hle =>
    rw [sink, if_neg h, if_pos hle]
    exact .refl
  | case3 a j h hle ih =>
    rw [sink, if_neg h, if_neg hle]
    have := childOf_cases key a i j
    exact (rearranged_hole (by omega) hj (by omega)).trans (ih (by omega))

theorem perm_succ (h : ((List.range n).map a).Perm ((List.range n).map b)) :
    ((List.range (n + 1)).map (update a n (b n))).Perm ((List.range (n + 1)).map b) := by
  have hbelow : (List.range n).map (update a n (b n)) = (List.range n).map a :=
    List.map_congr_left fun x hx => update_of_ne (List.mem_range.1 hx).ne _ _
  rw [List.range_succ, List.map_append, List.map_append, hbelow, List.map_singleton, update_self, List.map_singleton]
  exact h.append_right _

theorem foldl_shuffle (memory : Indices) (rand : BitVec 64) (hn : n ≤ 65535) :
    ((List.range n).map (pollorder n memory rand)).Perm (List.range n) := by
  induction n with
  | zero => exact .refl _
  | succ n ih =>
    unfold pollorder
    rw [List.range_succ, List.foldl_append, ← List.range_succ]
    generalize hs : (List.range n).foldl shuffleTurn (memory, rand) = s
    have hperm : ((List.range n).map s.1).Perm ((List.range n).map id) := by
      have := ih (by omega)
      rwa [pollorder, hs, ← List.map_id (List.range n), List.map_map] at this
    let j := (tzrRand s.2).2.toNat % (n + 1)
    have hj : j < n + 1 := Nat.mod_lt _ n.succ_pos
    have hturn : (shuffleTurn s n).1 = update (update s.1 n (s.1 j)) j n := by
      show update (update s.1 n (s.1 j)) j (n % 65536) = _
      rw [Nat.mod_eq_of_lt (by omega)]
    have hre : Rearranged (n + 1) (update s.1 n n) (shuffleTurn s n).1 := by
      rw [hturn]
      by_cases hjn : j = n
      · rw [hjn, update_idem]
        exact .refl
      · exact rearranged_hole hj n.lt_succ_self hjn
    rw [List.foldl_cons, List.foldl_nil]
    exact hre.perm.trans ((perm_succ hperm).trans (by rw [List.map_id]))

/-! ## The heap -/

def down (key : Nat → Nat) (k : Nat) : Natᵒᵈ := OrderDual.toDual (key k)

theorem down_le : down key i ≤ down key j ↔ key j ≤ key i := OrderDual.toDual_le_toDual

theorem swap_update {h : Heap Nat} (hitem : h.item = update a j k) (hne : i ≠ j) :
    (h.swap i j).item = update (update a j (a i)) i k := by
  rw [update_hole hne, ← hitem]
  funext x
  rw [swap_item, comp_apply, Equiv.swap_apply_def]
  grind

theorem up_item : ∀ {fuel : Nat} {h : Heap Nat} {a : Indices} {j : Nat}, j ≤ fuel → h.item = update a j k →
    (Heap.up (down key) fuel h j).item = rise key a j k
  | 0, h, a, j, hf, hitem => by
    rw [rise, if_neg (by omega)]
    exact hitem
  | fuel + 1, h, a, j, hf, hitem => by
    rw [Heap.up, rise]
    by_cases hzero : j = 0
    · rw [if_pos hzero, if_neg (by omega), hitem]
    have hparent : h.item ((j - 1) / 2) = a ((j - 1) / 2) := by rw [hitem, update_of_ne (by omega)]
    have hself : h.item j = k := by rw [hitem, update_self]
    rw [if_neg hzero, hparent, hself]
    by_cases hle : key k ≤ key (a ((j - 1) / 2))
    · rw [if_pos (down_le.2 hle), if_neg (by omega), hitem]
    · rw [if_neg (mt down_le.1 hle), if_pos (by omega)]
      exact up_item (by omega) (swap_update hitem (by omega))

theorem least_eq {h : Heap Nat} (hitem : h.item = update a j k) :
    h.least (down key) j = if h.count ≤ 2 * j + 1 ∨ key (a (childOf key a h.count j)) ≤ key k then j
      else childOf key a h.count j := by
  have hself : h.item j = k := by rw [hitem, update_self]
  have hleft : h.item (2 * j + 1) = a (2 * j + 1) := by rw [hitem, update_of_ne (by omega)]
  have hright : h.item (2 * j + 1 + 1) = a (2 * j + 2) := by rw [hitem, update_of_ne (by omega)]
  simp only [Heap.least, childOf, down, OrderDual.toDual_lt_toDual, hself, hleft, hright]
  grind

theorem down_item : ∀ {fuel : Nat} {h : Heap Nat} {a : Indices} {j : Nat}, h.count ≤ fuel + j → j < h.count →
    h.item = update a j k → (Heap.down (down key) fuel h j).item = sink key a h.count j k
  | 0, h, a, j, hf, hj, hitem => absurd hj (by omega)
  | fuel + 1, h, a, j, hf, hj, hitem => by
    rw [Heap.down, sink]
    have hchild := childOf_cases key a h.count j
    by_cases hend : h.count ≤ 2 * j + 1
    · rw [if_pos hend, if_pos ((least_eq hitem).trans (if_pos (.inl hend))), hitem]
    by_cases hle : key (a (childOf key a h.count j)) ≤ key k
    · rw [if_neg hend, if_pos hle, if_pos ((least_eq hitem).trans (if_pos (.inr hle))), hitem]
    · have hleast := (least_eq hitem).trans (if_neg (not_or.2 ⟨hend, hle⟩))
      rw [if_neg hend, if_neg hle, hleast, if_neg (by omega)]
      exact down_item (by rw [swap_count]; omega) (by rw [swap_count]; omega) (swap_update hitem (by omega))

/-- The first `i` indices are a heap with the greatest key on top. -/
def Heaped (key : Nat → Nat) (i : Nat) (a : Indices) : Prop := Heap.Ordered (down key) ⟨a, fun _ => 0, i⟩

theorem ordered_iff (h : Heap Nat) : h.Ordered (down key) ↔ Heaped key h.count h.item := Iff.rfl

theorem rise_heaped (h : Heaped key i a) : Heaped key (i + 1) (rise key a i k) := by
  let g : Heap Nat := ⟨update a i k, fun _ => 0, i + 1⟩
  have hhole : UpHole (down key) g i := by
    constructor
    · intro j hj hpos hne
      have hj' : j < i := by
        have : j < i + 1 := hj
        omega
      show down key (update a i k ((j - 1) / 2)) ≤ down key (update a i k j)
      rw [update_of_ne (by omega), update_of_ne hne]
      exact h j hj' hpos
    · intro j hj hpos _ hpar
      have : j < i + 1 := hj
      omega
  have hord := up_ordered (Nat.le_refl i) (Nat.lt_succ_self i) hhole
  rw [ordered_iff, up_count, up_item (a := a) (k := k) (Nat.le_refl i) rfl] at hord
  exact hord

theorem sink_heaped (h : Heaped key (i + 1) a) (hi : 0 < i) : Heaped key i (sink key (update a i (a 0)) i 0 (a i)) := by
  let g : Heap Nat := ⟨update (update a i (a 0)) 0 (a i), fun _ => 0, i⟩
  have hitem : ∀ x, x ≠ 0 → x < i → g.item x = a x := fun x hzero hx =>
    (update_of_ne hzero _ _).trans (update_of_ne hx.ne _ _)
  have hhole : DownHole (down key) g 0 := by
    constructor
    · intro j hj hpos hpar
      have hj' : j < i := hj
      rw [hitem _ hpar (by omega), hitem j (by omega) hj']
      exact h j (Nat.lt_succ_of_lt hj') hpos
    · exact fun j hj hpos hzero => absurd hzero (Nat.lt_irrefl 0)
  have hord := down_ordered (Nat.le_refl i) hi hhole
  rw [ordered_iff, down_count, down_item (a := update a i (a 0)) (k := a i) (Nat.le_refl i) hi rfl] at hord
  exact hord

variable (key) in
theorem build_spec (n : Nat) (pollorder memory : Indices) : Heaped key n (build key n pollorder memory) ∧
    ((List.range n).map (build key n pollorder memory)).Perm ((List.range n).map pollorder) := by
  induction n with
  | zero => exact ⟨fun i hi => absurd hi (Nat.not_lt_zero i), .refl _⟩
  | succ n ih =>
    obtain ⟨hheap, hperm⟩ := ih
    unfold build at *
    rw [List.range_succ, List.foldl_append, ← List.range_succ, List.foldl_cons, List.foldl_nil]
    exact ⟨rise_heaped hheap, (rise_rearranged n.lt_succ_self).perm.trans (perm_succ hperm)⟩

/-- Everything in front of a place behind `i` has at most its key. -/
def Sorted (key : Nat → Nat) (n i : Nat) (a : Indices) : Prop :=
  ∀ x y, x < y → i < y → y < n → key (a x) ≤ key (a y)

theorem extract_spec (hi : i + 1 < n) (hheap : Heaped key (i + 2) a) (hsorted : Sorted key n (i + 1) a) :
    Heaped key (i + 1) (extract key a (i + 1)) ∧ Sorted key n i (extract key a (i + 1)) ∧
      Rearranged n a (extract key a (i + 1)) := by
  refine ⟨sink_heaped hheap (Nat.succ_pos i), ?_⟩
  obtain ⟨σ, hσ, hsink⟩ := sink_rearranged key (a := update a (i + 1) (a 0)) (k := a (i + 1)) (Nat.succ_pos i)
  have hswap : update (update a (i + 1) (a 0)) 0 (a (i + 1)) = a ∘ Equiv.swap 0 (i + 1) := by
    rw [update_hole (by omega), update_eq_self]
  have heq : extract key a (i + 1) = a ∘ σ.trans (Equiv.swap 0 (i + 1)) := by
    rw [extract, hsink, hswap]
    rfl
  have hbehind : ∀ x, i + 1 < x → σ.trans (Equiv.swap 0 (i + 1)) x = x := fun x hx => by
    rw [Equiv.trans_apply, hσ x (by omega), Equiv.swap_apply_of_ne_of_ne (by omega) (by omega)]
  have hroot : σ.trans (Equiv.swap 0 (i + 1)) (i + 1) = 0 := by
    rw [Equiv.trans_apply, hσ _ (Nat.le_refl _), Equiv.swap_apply_right]
  have hfront : ∀ x, x ≤ i → σ.trans (Equiv.swap 0 (i + 1)) x ≤ i + 1 := fun x hx => by
    have := Rearranged.lt hσ (Nat.lt_succ_of_le hx)
    rw [Equiv.trans_apply, Equiv.swap_apply_def]
    grind
  rw [heq]
  refine ⟨fun x y hxy hy hyn => ?_, ⟨_, fun x hx => hbehind x (by omega), rfl⟩⟩
  simp only [comp_apply]
  have hx := hfront x
  have hx' := hbehind x
  by_cases hlast : y = i + 1
  · rw [hlast, hroot]
    exact down_le.1 (hheap.root _ (by show _ < i + 2; omega))
  · rw [hbehind y (by omega)]
    refine hsorted _ y ?_ (by omega) hyn
    rcases Nat.lt_trichotomy x (i + 1) with h | h | h
    · have := hx (by omega)
      omega
    · rw [h, hroot]
      omega
    · rwa [hx' h]

theorem extractAll_spec : ∀ {i : Nat} {a : Indices}, i < n → Heaped key (i + 1) a → Sorted key n i a →
    Sorted key n 0 (extractAll key i a) ∧ Rearranged n a (extractAll key i a)
  | 0, a, hi, hheap, hsorted => ⟨hsorted, .refl⟩
  | i + 1, a, hi, hheap, hsorted => by
    obtain ⟨hheap', hsorted', hre⟩ := extract_spec hi hheap hsorted
    obtain ⟨hdone, hre'⟩ := extractAll_spec (by omega) hheap' hsorted'
    exact ⟨hdone, hre.trans hre'⟩

variable (key) in
theorem lockorder_spec (n : Nat) (pollorder memory : Indices) : Sorted key n 0 (lockorder key n pollorder memory) ∧
      ((List.range n).map (lockorder key n pollorder memory)).Perm ((List.range n).map pollorder) := by
  obtain ⟨hheap, hperm⟩ := build_spec key n pollorder memory
  rcases Nat.eq_zero_or_pos n with rfl | hn
  · exact ⟨fun x y _ _ hy => absurd hy (Nat.not_lt_zero y), .refl _⟩
  have hheap' : Heaped key (n - 1 + 1) (build key n pollorder memory) := by rwa [Nat.sub_add_cancel hn]
  obtain ⟨hsorted, hre⟩ := extractAll_spec (n := n) (i := n - 1) (by omega) hheap'
    fun x y _ hy hyn => absurd hyn (by omega)
  exact ⟨hsorted, hre.perm.trans hperm⟩

theorem sellock_eq (hkey : ∀ i < n, key (a i) ≠ 0) : sellock key n a = (selunlock key a n).reverse := by
  have hfold : ∀ m ≤ n, (List.range m).foldl (fun (acquired, last) i =>
      let c := key (a i)
      (if c ≠ last then acquired ++ [c] else acquired, c)) (([] : List Nat), 0) =
      ((selunlock key a m).reverse, if m = 0 then 0 else key (a (m - 1))) := by
    intro m hm
    induction m with
    | zero => rfl
    | succ m ih =>
      rw [List.range_succ, List.foldl_append, ih (by omega), List.foldl_cons, List.foldl_nil,
        if_neg m.succ_ne_zero, selunlock, Nat.add_sub_cancel]
      refine Prod.ext ?_ rfl
      by_cases hzero : m = 0
      · subst hzero
        exact if_pos (hkey 0 (by omega))
      · simp only [if_neg hzero, Nat.pos_of_ne_zero hzero, true_and]
        by_cases heq : key (a (m - 1)) = key (a m)
        · rw [if_neg (not_not.2 heq.symm), if_pos heq]
        · rw [if_pos (Ne.symm heq), if_neg heq, List.reverse_cons]
  exact congrArg Prod.fst (hfold n (Nat.le_refl n))

theorem selunlock_spec (hsorted : Sorted key n 0 a) (hi : i ≤ n) :
    (selunlock key a i).Pairwise (· > ·) ∧ ∀ c, c ∈ selunlock key a i ↔ ∃ x < i, key (a x) = c := by
  induction i with
  | zero => exact ⟨.nil, by simp [selunlock]⟩
  | succ i ih =>
    obtain ⟨hpair, hmem⟩ := ih (by omega)
    rw [selunlock]
    split
    · rename_i hsame
      refine ⟨hpair, fun c => (hmem c).trans ⟨?_, ?_⟩⟩
      · rintro ⟨x, hx, rfl⟩
        exact ⟨x, Nat.lt_succ_of_lt hx, rfl⟩
      · rintro ⟨x, hx, rfl⟩
        by_cases hlast : x = i
        · exact ⟨i - 1, by omega, hlast ▸ hsame.2⟩
        · exact ⟨x, by omega, rfl⟩
    · rename_i hnew
      constructor
      · refine List.pairwise_cons.2 ⟨fun c hc => ?_, hpair⟩
        obtain ⟨x, hx, rfl⟩ := (hmem c).1 hc
        have hle : key (a x) ≤ key (a (i - 1)) := by
          rcases Nat.lt_or_ge x (i - 1) with hlt | hge
          · exact hsorted x (i - 1) hlt (by omega) (by omega)
          · rw [show x = i - 1 by omega]
        have hlast := hsorted (i - 1) i (by omega) (by omega) (by omega)
        have hne : key (a (i - 1)) ≠ key (a i) := fun h => hnew ⟨by omega, h⟩
        omega
      · intro c
        rw [List.mem_cons, hmem]
        constructor
        · rintro (rfl | ⟨x, hx, rfl⟩)
          · exact ⟨i, Nat.lt_succ_self i, rfl⟩
          · exact ⟨x, Nat.lt_succ_of_lt hx, rfl⟩
        · rintro ⟨x, hx, rfl⟩
          by_cases hlast : x = i
          · exact .inl (hlast ▸ rfl)
          · exact .inr ⟨x, by omega, rfl⟩

/-! ## Selects -/

structure Select where
  cases : List Chan
  length_le : cases.length ≤ 65535
  rand : BitVec 64
  polls : Indices
  locks : Indices

namespace Select

variable (s : Select)

def pollorder : Indices := SelectOrder.pollorder s.cases.length s.polls s.rand

def lockorder : Indices :=
  SelectOrder.lockorder (caseKey s.cases) s.cases.length s.pollorder s.locks

def acquired : List Nat := sellock (caseKey s.cases) s.cases.length s.lockorder

def released : List Nat := selunlock (caseKey s.cases) s.lockorder s.cases.length

theorem pollorder_perm : ((List.range s.cases.length).map s.pollorder).Perm (List.range s.cases.length) :=
  foldl_shuffle s.polls s.rand s.length_le

theorem lockorder_perm : ((List.range s.cases.length).map s.lockorder).Perm (List.range s.cases.length) :=
  (lockorder_spec (caseKey s.cases) _ _ _).2.trans s.pollorder_perm

theorem lockorder_sorted : Sorted (caseKey s.cases) s.cases.length 0 s.lockorder :=
  (lockorder_spec _ _ _ _).1

variable {s}

theorem caseKey_of_lt (hk : k < s.cases.length) : caseKey s.cases k = s.cases[k].val := by
  rw [caseKey, List.getElem?_eq_getElem hk]
  rfl

theorem lockorder_lt (hi : i < s.cases.length) : s.lockorder i < s.cases.length := by
  have hmem := List.mem_map_of_mem (f := s.lockorder) (List.mem_range.2 hi)
  exact List.mem_range.1 (s.lockorder_perm.mem_iff.1 hmem)

theorem caseKey_ne_zero (hk : k < s.cases.length) : caseKey s.cases k ≠ 0 := by
  rw [caseKey_of_lt hk]
  exact s.cases[k].2

theorem acquired_eq : s.acquired = s.released.reverse :=
  sellock_eq fun _ hi => caseKey_ne_zero (lockorder_lt hi)

theorem acquired_ascending : s.acquired.Pairwise (· < ·) := by
  rw [acquired_eq, List.pairwise_reverse]
  exact (selunlock_spec s.lockorder_sorted (Nat.le_refl _)).1

theorem mem_acquired (c : Nat) : c ∈ s.acquired ↔ ∃ channel ∈ s.cases, channel.val = c := by
  rw [acquired_eq, List.mem_reverse, released, (selunlock_spec s.lockorder_sorted (Nat.le_refl _)).2]
  constructor
  · rintro ⟨x, hx, rfl⟩
    exact ⟨_, List.getElem_mem (lockorder_lt hx), (caseKey_of_lt (lockorder_lt hx)).symm⟩
  · rintro ⟨channel, hmem, rfl⟩
    obtain ⟨k, hk, rfl⟩ := List.getElem_of_mem hmem
    obtain ⟨x, hx, hat⟩ := List.mem_map.1 (s.lockorder_perm.mem_iff.2 (List.mem_range.2 hk))
    exact ⟨x, List.mem_range.1 hx, by rw [hat, caseKey_of_lt hk]⟩

end Select

/-- What locks channels: a select, or an operation of one channel. -/
inductive Operation
  | select (s : Select)
  | channel (c : Chan)

def Operation.acquired : Operation → List Nat
  | .select s => s.acquired
  | .channel c => [c.val]

theorem Operation.acquired_ascending : (o : Operation) → o.acquired.Pairwise (· < ·)
  | .select s => s.acquired_ascending
  | .channel _ => List.pairwise_singleton ..

/-- A select polls and locks in permutations of its cases, the second by channel address; it acquires
and releases the lock of each of its channels once, and no two operations acquire two locks in
different orders. -/
theorem select_orders (s : Select) : ((List.range s.cases.length).map s.pollorder).Perm (List.range s.cases.length) ∧
    ((List.range s.cases.length).map s.lockorder).Perm (List.range s.cases.length) ∧
    (∀ x y z, x ≤ y → y ≤ z → z < s.cases.length → caseKey s.cases (s.lockorder x) ≤ caseKey s.cases (s.lockorder y) ∧
      (caseKey s.cases (s.lockorder x) = caseKey s.cases (s.lockorder z) →
        caseKey s.cases (s.lockorder y) = caseKey s.cases (s.lockorder x))) ∧
    (∀ c, s.acquired.count c = if ∃ channel ∈ s.cases, channel.val = c then 1 else 0) ∧
    s.released = s.acquired.reverse ∧
    ∀ o o' : Operation, ∀ c d, ¬ ([c, d].Sublist o.acquired ∧ [d, c].Sublist o'.acquired) := by
  have hmono : ∀ x y, x ≤ y → y < s.cases.length →
      caseKey s.cases (s.lockorder x) ≤ caseKey s.cases (s.lockorder y) := by
    intro x y hxy hy
    rcases Nat.eq_or_lt_of_le hxy with rfl | hlt
    · exact Nat.le_refl _
    · exact s.lockorder_sorted x y hlt (by omega) hy
  refine ⟨s.pollorder_perm, s.lockorder_perm, fun x y z hxy hyz hz => ⟨hmono x y hxy (by omega), fun heq => ?_⟩,
    fun c => ?_, ?_, fun o o' c d h => ?_⟩
  · have := hmono x y hxy (by omega)
    have := hmono y z hyz hz
    omega
  · have hnodup : s.acquired.Nodup := s.acquired_ascending.imp Nat.ne_of_lt
    simp only [← Select.mem_acquired]
    split
    · rename_i hmem
      exact List.count_eq_one_of_mem hnodup hmem
    · rename_i hmem
      exact List.count_eq_zero_of_not_mem hmem
  · rw [Select.acquired_eq, List.reverse_reverse]
  · have hcd := o.acquired_ascending.sublist h.1
    have hdc := o'.acquired_ascending.sublist h.2
    rw [List.pairwise_pair] at hcd hdc
    omega

end Tsuzuri.SelectOrder
