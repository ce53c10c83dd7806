import Mathlib.Algebra.Order.Round
import Mathlib.Data.Int.Log
import Mathlib.Tactic.Linarith
import Mathlib.Tactic.Ring
import Mathlib.Tactic.FieldSimp

/-!
# Rounding to nearest, ties to even

The numbers of a precision are `c * β ^ q` with fewer than `p` digits and an exponent that is not
below `l`.
-/

namespace Rounding

variable {K : Type*} [Field K] [LinearOrder K] [FloorRing K]

/-! ## To an integer -/

def roundEven (x : K) : ℤ :=
  if Int.fract x < 1 / 2 then ⌊x⌋
  else if 1 / 2 < Int.fract x then ⌊x⌋ + 1
  else if Even ⌊x⌋ then ⌊x⌋
  else ⌊x⌋ + 1

variable {x : K}

theorem roundEven_cases (x : K) :
    (roundEven x = ⌊x⌋ ∧ Int.fract x ≤ 1 / 2 ∧ (Int.fract x = 1 / 2 → Even (roundEven x))) ∨
      roundEven x = ⌊x⌋ + 1 ∧ 1 / 2 ≤ Int.fract x ∧ (Int.fract x = 1 / 2 → Even (roundEven x)) := by
  unfold roundEven
  split_ifs with hlow hhigh heven
  · exact .inl ⟨rfl, hlow.le, fun h => absurd h hlow.ne⟩
  · exact .inr ⟨rfl, hhigh.le, fun h => absurd h hhigh.ne'⟩
  · exact .inl ⟨rfl, not_lt.mp hhigh, fun _ => heven⟩
  · exact .inr ⟨rfl, not_lt.mp hlow, fun _ => (Int.not_even_iff_odd.mp heven).add_one⟩

theorem le_roundEven {m : ℤ} (h : (m : K) ≤ x) : m ≤ roundEven x := by
  have hfloor : m ≤ ⌊x⌋ := Int.le_floor.mpr h
  rcases roundEven_cases x with ⟨heq, _, _⟩ | ⟨heq, _, _⟩ <;> omega

variable [IsStrictOrderedRing K]

theorem roundEven_le {m : ℤ} (h : x ≤ m) : roundEven x ≤ m := by
  have hfloor : ⌊x⌋ ≤ m := by exact_mod_cast (Int.floor_le x).trans h
  rcases roundEven_cases x with ⟨heq, _, _⟩ | ⟨heq, hfract, _⟩
  · rw [heq]
    exact hfloor
  · rcases hfloor.lt_or_eq with hlt | rfl
    · omega
    · have := Int.floor_add_fract x
      linarith

theorem abs_sub_roundEven_le (x : K) (m : ℤ) : |x - roundEven x| ≤ |x - m| := by
  have hsum := Int.floor_add_fract x
  have hlow := Int.fract_nonneg x
  have hhigh := Int.fract_lt_one x
  have hfar : m ≤ ⌊x⌋ ∨ ⌊x⌋ + 1 ≤ m := by omega
  rcases roundEven_cases x with ⟨heq, hfract, _⟩ | ⟨heq, hfract, _⟩
  · rw [heq, show x - ⌊x⌋ = Int.fract x from rfl, abs_of_nonneg hlow]
    rcases hfar with hm | hm
    · have : (m : K) ≤ ⌊x⌋ := by exact_mod_cast hm
      exact le_trans (by linarith) (le_abs_self _)
    · have : (⌊x⌋ : K) + 1 ≤ m := by exact_mod_cast hm
      exact le_trans (by linarith) (neg_le_abs _)
  · rw [heq, Int.cast_add, Int.cast_one, abs_sub_comm, abs_of_nonneg (by linarith)]
    rcases hfar with hm | hm
    · have : (m : K) ≤ ⌊x⌋ := by exact_mod_cast hm
      exact le_trans (by linarith) (le_abs_self _)
    · have : (⌊x⌋ : K) + 1 ≤ m := by exact_mod_cast hm
      exact le_trans (by linarith) (neg_le_abs _)

theorem even_roundEven {m : ℤ} (h : |x - roundEven x| = |x - m|) (hne : m ≠ roundEven x) : Even (roundEven x) := by
  have hsum := Int.floor_add_fract x
  have hlow := Int.fract_nonneg x
  have hhigh := Int.fract_lt_one x
  rcases roundEven_cases x with ⟨heq, hfract, heven⟩ | ⟨heq, hfract, heven⟩
  · refine heven (le_antisymm hfract ?_)
    rw [heq, show x - ⌊x⌋ = Int.fract x from rfl, abs_of_nonneg hlow] at h
    have hfar : m + 1 ≤ ⌊x⌋ ∨ ⌊x⌋ + 1 ≤ m := by omega
    rcases hfar with hm | hm
    · have : (m : K) + 1 ≤ ⌊x⌋ := by exact_mod_cast hm
      have := le_abs_self (x - m)
      linarith
    · have : (⌊x⌋ : K) + 1 ≤ m := by exact_mod_cast hm
      have := neg_le_abs (x - m)
      linarith
  · refine heven (le_antisymm ?_ hfract)
    rw [heq, Int.cast_add, Int.cast_one, abs_sub_comm, abs_of_nonneg (by linarith)] at h
    have hfar : m ≤ ⌊x⌋ ∨ ⌊x⌋ + 2 ≤ m := by omega
    rcases hfar with hm | hm
    · have : (m : K) ≤ ⌊x⌋ := by exact_mod_cast hm
      have := le_abs_self (x - m)
      linarith
    · have : (⌊x⌋ : K) + 2 ≤ m := by exact_mod_cast hm
      have := neg_le_abs (x - m)
      linarith

theorem roundEven_div (n : ℕ) {d : ℕ} (hd : 0 < d) : roundEven ((n : K) / d) =
      ((n / d + if d < n % d * 2 ∨ n % d * 2 = d ∧ n / d % 2 = 1 then 1 else 0 : ℕ) : ℤ) := by
  have hd' : (0 : K) < d := by exact_mod_cast hd
  have hfloor : ⌊(n : K) / d⌋ = ((n / d : ℕ) : ℤ) := by
    rw [Int.floor_div_natCast, Int.floor_natCast]
    norm_cast
  have hfract : Int.fract ((n : K) / d) = ((n % d : ℕ) : K) / d := by
    rw [Int.fract, hfloor, eq_div_iff hd'.ne', sub_mul, div_mul_cancel₀ _ hd'.ne']
    have hsplit : ((n / d : ℕ) : K) * d + ((n % d : ℕ) : K) = n := by
      exact_mod_cast Nat.div_add_mod' n d
    rw [Int.cast_natCast]
    linarith
  have hlow : Int.fract ((n : K) / d) < 1 / 2 ↔ n % d * 2 < d := by
    rw [hfract, div_lt_div_iff₀ hd' two_pos, one_mul]
    exact_mod_cast Iff.rfl
  have hhigh : 1 / 2 < Int.fract ((n : K) / d) ↔ d < n % d * 2 := by
    rw [hfract, div_lt_div_iff₀ two_pos hd', one_mul]
    exact_mod_cast Iff.rfl
  have heven : Even ((n / d : ℕ) : ℤ) ↔ n / d % 2 = 0 := by
    rw [Int.even_coe_nat, Nat.even_iff]
  unfold roundEven
  simp only [hlow, hhigh, heven, hfloor]
  split_ifs <;> omega

/-! ## To a precision -/

section Precision

variable {β p : ℕ} {l : ℤ}

def quantum (β p : ℕ) (l : ℤ) (x : K) : ℤ := max (Int.log β x - (p - 1)) l

structure Nearest (β p : ℕ) (l : ℤ) (x y : K) : Prop where
  nearest : ∀ (c : ℕ) (q : ℤ), c < β ^ p → l ≤ q → |x - y| ≤ |x - c * (β : K) ^ q|
  even : ∀ (c : ℕ) (q : ℤ), c < β ^ p → l ≤ q → |x - y| = |x - c * (β : K) ^ q| →
    c * (β : K) ^ q ≠ y → ∃ m : ℤ, Even m ∧ y = m * (β : K) ^ quantum β p l x

variable (β p l)

/-- The number on the grid of the quantum of `x`. -/
def roundTo (x : K) : K := roundEven (x / (β : K) ^ quantum β p l x) * (β : K) ^ quantum β p l x

variable {β p l}

omit [IsStrictOrderedRing K] in
theorem base_ne_zero (hβ : 1 < β) : (β : K) ≠ 0 := by
  have : β ≠ 0 := by omega
  exact_mod_cast this

theorem zpow_pos_of_base (hβ : 1 < β) (q : ℤ) : (0 : K) < (β : K) ^ q :=
  zpow_pos (by exact_mod_cast (by omega : 0 < β)) q

omit [IsStrictOrderedRing K] in
theorem exists_multiple (hβ : 1 < β) {q Q : ℤ} (h : Q ≤ q) (c : ℕ) :
    ∃ m : ℤ, (c : K) * (β : K) ^ q = m * (β : K) ^ Q := by
  obtain ⟨k, rfl⟩ := Int.le.dest h
  refine ⟨c * β ^ k, ?_⟩
  rw [zpow_add₀ (base_ne_zero hβ), zpow_natCast]
  push_cast
  ring

theorem zpow_quantum_le (hβ : 1 < β) (hx : 0 < x) (h : l < quantum β p l x) :
    (β : K) ^ ((p : ℤ) - 1) * (β : K) ^ quantum β p l x ≤ x := by
  have hquantum : quantum β p l x = Int.log β x - (p - 1) := by
    rw [quantum] at h ⊢
    exact max_eq_left (by omega)
  rw [← zpow_add₀ (base_ne_zero hβ), hquantum, add_sub_cancel]
  exact Int.zpow_log_le_self hβ hx

theorem lt_zpow_quantum (hβ : 1 < β) (x : K) : x < (β : K) ^ p * (β : K) ^ quantum β p l x := by
  have hle : Int.log β x + 1 ≤ p + quantum β p l x := by
    have := le_max_left (Int.log β x - (p - 1)) l
    rw [quantum]
    omega
  rw [← zpow_natCast, ← zpow_add₀ (base_ne_zero hβ)]
  exact (Int.lt_zpow_succ_log_self hβ x).trans_le (zpow_le_zpow_right₀ (by exact_mod_cast hβ.le) hle)

theorem lt_of_lt_quantum (hβ : 1 < β) {c : ℕ} {q Q : ℤ} (hc : c < β ^ p) (hq : q < Q) :
    (c : K) * (β : K) ^ q < (β : K) ^ ((p : ℤ) - 1) * (β : K) ^ Q := by
  have hc' : (c : K) < (β : K) ^ (p : ℤ) := by
    rw [zpow_natCast]
    exact_mod_cast hc
  calc (c : K) * (β : K) ^ q < (β : K) ^ (p : ℤ) * (β : K) ^ q :=
        mul_lt_mul_of_pos_right hc' (zpow_pos_of_base hβ q)
    _ = (β : K) ^ ((p : ℤ) + q) := (zpow_add₀ (base_ne_zero hβ) _ _).symm
    _ ≤ (β : K) ^ ((p : ℤ) - 1 + Q) :=
        zpow_le_zpow_right₀ (by exact_mod_cast hβ.le) (by omega)
    _ = (β : K) ^ ((p : ℤ) - 1) * (β : K) ^ Q := zpow_add₀ (base_ne_zero hβ) _ _

theorem log_mul_zpow (hβ : 1 < β) (hx : 0 < x) (k : ℤ) : Int.log β (x * (β : K) ^ k) = Int.log β x + k := by
  have hk := zpow_pos_of_base (K := K) hβ k
  have hlow := Int.zpow_log_le_self (R := K) hβ hx
  have hhigh := Int.lt_zpow_succ_log_self (R := K) hβ x
  refine le_antisymm ?_ ?_
  · rw [← Int.lt_add_one_iff, ← Int.lt_zpow_iff_log_lt hβ (mul_pos hx hk),
      show Int.log β x + k + 1 = Int.log β x + 1 + k by ring, zpow_add₀ (base_ne_zero hβ)]
    exact mul_lt_mul_of_pos_right hhigh hk
  · rw [← Int.zpow_le_iff_le_log hβ (mul_pos hx hk), zpow_add₀ (base_ne_zero hβ)]
    exact mul_le_mul_of_nonneg_right hlow hk.le

omit [FloorRing K] in
theorem abs_sub_mul {g : K} (hg : 0 < g) (x y : K) : |x - y * g| = |x / g - y| * g := by
  rw [← abs_of_pos hg, ← abs_mul, abs_of_pos hg, sub_mul, div_mul_cancel₀ _ hg.ne']

theorem nearest_roundTo (hβ : 1 < β) (hp : 0 < p) (hx : 0 < x) : Nearest β p l x (roundTo β p l x) := by
  have hgrid := zpow_pos_of_base (K := K) hβ (quantum β p l x)
  have hdist : ∀ m : ℤ, |x - roundTo β p l x| ≤ |x - m * (β : K) ^ quantum β p l x| := by
    intro m
    rw [roundTo, abs_sub_mul hgrid, abs_sub_mul hgrid]
    exact mul_le_mul_of_nonneg_right (abs_sub_roundEven_le _ m) hgrid.le
  have hbelow : ∀ (c : ℕ) (q : ℤ), c < β ^ p → l ≤ q → q < quantum β p l x →
      |x - roundTo β p l x| < |x - c * (β : K) ^ q| := by
    intro c q hc hlo hq
    have hfirst := zpow_quantum_le hβ hx (hlo.trans_lt hq)
    have hlt := lt_of_lt_quantum (K := K) hβ hc hq
    have hnear := hdist (β ^ (p - 1))
    push_cast at hnear
    rw [← zpow_natCast, Nat.cast_sub hp, Nat.cast_one, abs_of_nonneg (a := x - _ * _) (by linarith)] at hnear
    exact lt_of_lt_of_le (by linarith) (le_abs_self _)
  constructor
  · intro c q hc hlo
    rcases lt_or_ge q (quantum β p l x) with hq | hq
    · exact (hbelow c q hc hlo hq).le
    · obtain ⟨m, hm⟩ := exists_multiple (K := K) hβ hq c
      rw [hm]
      exact hdist m
  · intro c q hc hlo heq hne
    rcases lt_or_ge q (quantum β p l x) with hq | hq
    · exact absurd heq (hbelow c q hc hlo hq).ne
    · obtain ⟨m, hm⟩ := exists_multiple (K := K) hβ hq c
      refine ⟨_, even_roundEven (x := x / (β : K) ^ quantum β p l x) (m := m) ?_ ?_, rfl⟩
      · rw [hm, roundTo, abs_sub_mul hgrid, abs_sub_mul hgrid] at heq
        exact mul_right_cancel₀ hgrid.ne' heq
      · rintro rfl
        exact hne hm

end Precision

/-- No multiple of `g` separates the two numbers. -/
def Cell (g x z : K) : Prop := ∀ m : ℤ, (m * g ≤ x ↔ m * g ≤ z) ∧ (m * g < x ↔ m * g < z)

namespace Cell

variable {g x z : K} {u : ℤ}

omit [FloorRing K] in
theorem of_between {m : ℤ} (hg : 0 < g) (hx : m * g < x ∧ x < (m + 1) * g)
    (hz : m * g < z ∧ z < (m + 1) * g) : Cell g x z := by
  have hbelow {y : K} (hy : m * g < y ∧ y < (m + 1) * g) (k : ℤ) : (k * g ≤ y ↔ k ≤ m) ∧ (k * g < y ↔ k ≤ m) := by
    rcases le_or_gt k m with hk | hk
    · have hle : (k : K) * g ≤ m * g := mul_le_mul_of_nonneg_right (by exact_mod_cast hk) hg.le
      exact ⟨iff_of_true (hle.trans_lt hy.1).le hk, iff_of_true (hle.trans_lt hy.1) hk⟩
    · have hle : ((m : K) + 1) * g ≤ k * g := mul_le_mul_of_nonneg_right (by exact_mod_cast hk) hg.le
      exact ⟨iff_of_false (hy.2.trans_le hle).not_ge hk.not_ge, iff_of_false (hy.2.trans_le hle).not_gt hk.not_ge⟩
  intro k
  rw [(hbelow hx k).1, (hbelow hx k).2, (hbelow hz k).1, (hbelow hz k).2]
  exact ⟨Iff.rfl, Iff.rfl⟩

theorem roundEven_eq (h : Cell (1 / 2) x z) : roundEven x = roundEven z := by
  have hfloor : ⌊x⌋ = ⌊z⌋ := by
    refine eq_of_forall_le_iff fun m => ?_
    have hm := (h (2 * m)).1
    rw [show ((2 * m : ℤ) : K) * (1 / 2) = m by push_cast; ring] at hm
    rw [Int.le_floor, Int.le_floor, hm]
  have hmiddle := h (2 * ⌊z⌋ + 1)
  rw [show ((2 * ⌊z⌋ + 1 : ℤ) : K) * (1 / 2) = ⌊z⌋ + 1 / 2 by push_cast; ring] at hmiddle
  have hlow : Int.fract x < 1 / 2 ↔ Int.fract z < 1 / 2 := by
    rw [Int.fract, Int.fract, hfloor, sub_lt_iff_lt_add', sub_lt_iff_lt_add', ← not_le, ← not_le, hmiddle.1]
  have hhigh : 1 / 2 < Int.fract x ↔ 1 / 2 < Int.fract z := by
    rw [Int.fract, Int.fract, hfloor, lt_sub_iff_add_lt', lt_sub_iff_add_lt', hmiddle.2]
  unfold roundEven
  simp only [hlow, hhigh, hfloor]

variable {β p : ℕ} {l : ℤ} (hβ : 1 < β) (hx : 0 < x) (hz : 0 < z) (h : Cell ((β : K) ^ u) x z)

include hβ hx hz h

theorem log_eq (hu : u ≤ Int.log β x) : Int.log β x = Int.log β z := by
  have hle : ∀ j, u ≤ j → (j ≤ Int.log β x ↔ j ≤ Int.log β z) := by
    intro j hj
    obtain ⟨m, hm⟩ := exists_multiple (K := K) hβ hj 1
    rw [Nat.cast_one, one_mul] at hm
    rw [← Int.zpow_le_iff_le_log hβ hx, ← Int.zpow_le_iff_le_log hβ hz, hm]
    exact (h m).1
  have hfirst := (hle _ hu).mp le_rfl
  exact le_antisymm hfirst ((hle _ (hu.trans hfirst)).mpr le_rfl)

theorem roundTo_eq (heven : Even β) (hu : u + p ≤ Int.log β x) : roundTo β p l x = roundTo β p l z := by
  have hquantum : quantum β p l z = quantum β p l x := by
    rw [quantum, quantum, h.log_eq hβ hx hz (by omega)]
  have hlt : u < quantum β p l x := lt_of_lt_of_le (by omega) (le_max_left (Int.log β x - (p - 1)) l)
  have hgrid := zpow_pos_of_base (K := K) hβ (quantum β p l x)
  -- the midpoints of the grid are multiples too
  obtain ⟨k, hk⟩ : ∃ k : ℤ, 1 / 2 * (β : K) ^ quantum β p l x = k * (β : K) ^ u := by
    obtain ⟨half, hhalf⟩ := heven
    obtain ⟨k, hk⟩ := exists_multiple (K := K) hβ (show u ≤ quantum β p l x - 1 by omega) half
    refine ⟨k, ?_⟩
    have hcast : (β : K) = half + half := by exact_mod_cast hhalf
    rw [← hk, zpow_sub_one₀ (base_ne_zero hβ), mul_comm _ (_⁻¹), ← mul_assoc, ← div_eq_mul_inv]
    congr 1
    rw [eq_div_iff (base_ne_zero hβ), hcast]
    ring
  rw [roundTo, roundTo, hquantum, roundEven_eq]
  intro m
  rw [le_div_iff₀ hgrid, le_div_iff₀ hgrid, lt_div_iff₀ hgrid, lt_div_iff₀ hgrid, mul_assoc, hk, ← mul_assoc]
  exact_mod_cast h (m * k)

end Cell

end Rounding
