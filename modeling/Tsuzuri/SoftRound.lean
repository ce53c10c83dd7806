import Mathlib.Data.Rat.Floor
import Tsuzuri.Rounding
import Tsuzuri.SoftBigSound
import Tsuzuri.SoftFloat

/-!
# Magnitude and rounding of a quotient

The exponent of a quotient is found from an estimate by comparisons with powers, its coefficient by one division.
-/

namespace Tsuzuri.Soft

open Rounding

@[irreducible] def roomBits : Nat := 42000

theorem roomBits_eq : roomBits = 42000 := by rw [roomBits]

variable {β k m x : Nat}

theorem base_gt (hβ : β = 2 ∨ β = 10) : 1 < β := by omega

theorem two_pow_le (hβ : β = 2 ∨ β = 10) (k : Nat) : 2 ^ k ≤ β ^ k :=
  Nat.pow_le_pow_left (base_gt hβ) k

theorem ten_pow_le (k : Nat) : 10 ^ k ≤ 2 ^ (10 * (k / 3) + 7) := by
  have hsmall : 10 ^ (k % 3) ≤ 2 ^ 7 := by
    have : k % 3 < 3 := Nat.mod_lt _ (by decide)
    calc 10 ^ (k % 3) ≤ 10 ^ 2 := Nat.pow_le_pow_right (by decide) (by omega)
      _ ≤ 2 ^ 7 := by decide
  calc 10 ^ k = (10 ^ 3) ^ (k / 3) * 10 ^ (k % 3) := by
        rw [← Nat.pow_mul, ← Nat.pow_add, Nat.div_add_mod]
    _ ≤ (2 ^ 10) ^ (k / 3) * 2 ^ 7 :=
        Nat.mul_le_mul (Nat.pow_le_pow_left (by decide) _) hsmall
    _ = 2 ^ (10 * (k / 3) + 7) := by rw [← Nat.pow_mul, ← Nat.pow_add]

theorem two_pow_lt_limbs (h : k < 32 * m) : 2 ^ k < (2 ^ 32) ^ m := by
  rw [← Nat.pow_mul]
  exact Nat.pow_lt_pow_right (by decide) h

theorem mul_pow_lt {s : Nat} (hpow : β ^ k ≤ 2 ^ s) (h : x.log2 + 1 + s < 32 * m) :
    x * β ^ k < (2 ^ 32) ^ m :=
  calc x * β ^ k ≤ 2 ^ (x.log2 + 1) * 2 ^ s := Nat.mul_le_mul Nat.lt_log2_self.le hpow
    _ = 2 ^ (x.log2 + 1 + s) := (Nat.pow_add ..).symm
    _ < (2 ^ 32) ^ m := two_pow_lt_limbs h

/-! ## Magnitude -/

section Magnitude

variable {n d β : Nat}

def Room (n d β : Nat) (exponent : Int) : Prop :=
  (if 0 ≤ exponent then d else n) * β ^ exponent.natAbs < (2 ^ 32) ^ (LIMBS - 1)

theorem div_lt_zpow_natCast (hd : 0 < d) (k : Nat) : (n : ℚ) / d < (β : ℚ) ^ (k : ℤ) ↔ n < d * β ^ k := by
  have hd' : (0 : ℚ) < d := by exact_mod_cast hd
  rw [zpow_natCast, div_lt_iff₀ hd', mul_comm]
  exact_mod_cast Iff.rfl

theorem div_lt_zpow_neg (hβ : β = 2 ∨ β = 10) (hd : 0 < d) (k : Nat) :
    (n : ℚ) / d < (β : ℚ) ^ (-(k : ℤ)) ↔ n * β ^ k < d := by
  have hd' : (0 : ℚ) < d := by exact_mod_cast hd
  have hpos : (0 : ℚ) < (β : ℚ) ^ k := by
    have : 0 < β := by omega
    positivity
  rw [zpow_neg, zpow_natCast, div_lt_iff₀ hd', ← div_eq_inv_mul, lt_div_iff₀ hpos]
  exact_mod_cast Iff.rfl

theorem exponent_cases (exponent : Int) : (∃ k : Nat, exponent = k) ∨ ∃ k : Nat, exponent = -(k + 1 : Nat) := by
  rcases lt_or_ge exponent 0 with h | h
  · exact .inr ⟨exponent.natAbs - 1, by omega⟩
  · exact .inl ⟨exponent.toNat, by omega⟩

theorem room_natCast (k : Nat) : Room n d β k ↔ d * β ^ k < (2 ^ 32) ^ (LIMBS - 1) := by
  rw [Room, if_pos (by omega), Int.natAbs_natCast]

theorem room_neg (k : Nat) : Room n d β (-(k + 1 : Nat)) ↔ n * β ^ (k + 1) < (2 ^ 32) ^ (LIMBS - 1) := by
  rw [Room, if_neg (by omega), Int.natAbs_neg, Int.natAbs_natCast]

variable {exponent : Int}

theorem comparePower_eq (hβ : β = 2 ∨ β = 10) (hd : 0 < d) (hroom : Room n d β exponent) :
    ∃ result, comparePower (small n) (small d) β exponent = some result ∧
      (result < 0 ↔ (n : ℚ) / d < (β : ℚ) ^ exponent) := by
  unfold comparePower
  rcases exponent_cases exponent with ⟨k, rfl⟩ | ⟨k, rfl⟩
  · rw [room_natCast] at hroom
    have hsign : (0 : Int) ≤ k := by omega
    simp only [hsign, if_true, Int.natAbs_natCast]
    rw [power_eq hβ hroom, div_lt_zpow_natCast hd]
    exact ⟨_, rfl, by rw [compare_small, order_neg]⟩
  · rw [room_neg] at hroom
    have hsign : ¬(0 : Int) ≤ -((k + 1 : Nat) : Int) := by omega
    simp only [hsign, if_false, Int.natAbs_neg, Int.natAbs_natCast]
    rw [power_eq hβ hroom, div_lt_zpow_neg hβ hd]
    exact ⟨_, rfl, by rw [compare_small, order_neg]⟩

theorem Room.pred (hβ : β = 2 ∨ β = 10) (hd : 0 < d) (hfit : d * β < (2 ^ 32) ^ (LIMBS - 1))
    (h : Room n d β exponent) (hlt : (n : ℚ) / d < (β : ℚ) ^ exponent) : Room n d β (exponent - 1) := by
  have hβ' := base_gt hβ
  rcases exponent_cases exponent with ⟨k, rfl⟩ | ⟨k, rfl⟩
  · rw [div_lt_zpow_natCast hd] at hlt
    rw [room_natCast] at h
    cases k with
    | zero =>
      rw [show ((0 : Nat) : Int) - 1 = -((0 + 1 : Nat) : Int) by rfl, room_neg, Nat.zero_add, Nat.pow_one]
      rw [Nat.pow_zero, Nat.mul_one] at hlt
      exact (Nat.mul_le_mul_right _ hlt.le).trans_lt hfit
    | succ k =>
      rw [show ((k + 1 : Nat) : Int) - 1 = (k : Int) by omega, room_natCast]
      refine Nat.lt_of_le_of_lt (Nat.mul_le_mul_left _ ?_) h
      exact Nat.pow_le_pow_right (by omega) (Nat.le_succ k)
  · rw [div_lt_zpow_neg hβ hd] at hlt
    rw [show -((k + 1 : Nat) : Int) - 1 = -((k + 1 + 1 : Nat) : Int) by omega, room_neg, Nat.pow_succ, ← Nat.mul_assoc]
    exact (Nat.mul_le_mul_right _ hlt.le).trans_lt hfit

theorem Room.succ (hβ : β = 2 ∨ β = 10) (hd : 0 < d) (hfit : n * β < (2 ^ 32) ^ (LIMBS - 1))
    (hfit' : d * β < (2 ^ 32) ^ (LIMBS - 1)) (h : Room n d β exponent)
    (hle : (β : ℚ) ^ exponent ≤ (n : ℚ) / d) : Room n d β (exponent + 1) := by
  have hβ' := base_gt hβ
  rcases exponent_cases exponent with ⟨k, rfl⟩ | ⟨k, rfl⟩
  · have hle' : d * β ^ k ≤ n := Nat.le_of_not_lt fun hlt =>
      absurd ((div_lt_zpow_natCast hd k).mpr hlt) (not_lt.mpr hle)
    rw [show ((k : Nat) : Int) + 1 = ((k + 1 : Nat) : Int) by omega, room_natCast, Nat.pow_succ, ← Nat.mul_assoc]
    exact (Nat.mul_le_mul_right _ hle').trans_lt hfit
  · rw [room_neg] at h
    cases k with
    | zero =>
      rw [show -((0 + 1 : Nat) : Int) + 1 = ((0 : Nat) : Int) by rfl, room_natCast, Nat.pow_zero, Nat.mul_one]
      exact (Nat.le_mul_of_pos_right d (by omega)).trans_lt hfit'
    | succ k =>
      rw [show -((k + 1 + 1 : Nat) : Int) + 1 = -((k + 1 : Nat) : Int) by omega, room_neg]
      refine Nat.lt_of_le_of_lt (Nat.mul_le_mul_left _ ?_) h
      exact Nat.pow_le_pow_right (by omega) (Nat.le_succ _)

section Loops

variable (hβ : β = 2 ∨ β = 10) (hd : 0 < d) (hfit : d * β < (2 ^ 32) ^ (LIMBS - 1))

include hβ hd hfit

theorem magnitudeDown_eq {low : Int} (hlow : (β : ℚ) ^ low ≤ (n : ℚ) / d) (rounds : Nat) :
    ∀ exponent, Room n d β exponent → low ≤ exponent → exponent - low < rounds →
      ∃ result, magnitudeDown (small n) (small d) β rounds exponent = some result ∧
        Room n d β result ∧ low ≤ result ∧ (β : ℚ) ^ result ≤ (n : ℚ) / d := by
  induction rounds with
  | zero =>
    intro exponent _ hle hlt
    omega
  | succ rounds ih =>
    intro exponent hroom hle hlt
    obtain ⟨order, hcompare, horder⟩ := comparePower_eq hβ hd hroom
    rw [magnitudeDown, hcompare]
    by_cases hneg : order < 0
    · have hbelow := horder.mp hneg
      have hstrict : low < exponent := by
        refine lt_of_le_of_ne hle fun heq => ?_
        subst heq
        exact absurd hbelow (not_lt.mpr hlow)
      obtain ⟨result, hresult, h⟩ := ih (exponent - 1) (hroom.pred hβ hd hfit hbelow) (by omega) (by omega)
      exact ⟨result, by simpa [hneg] using hresult, h⟩
    · exact ⟨exponent, by simp [hneg], hroom, hle, not_lt.mp fun h => hneg (horder.mpr h)⟩

theorem magnitudeUp_eq (hfit' : n * β < (2 ^ 32) ^ (LIMBS - 1)) {high : Int}
    (hhigh : (n : ℚ) / d < (β : ℚ) ^ high) (rounds : Nat) :
    ∀ exponent, Room n d β exponent → (β : ℚ) ^ exponent ≤ (n : ℚ) / d → high - exponent ≤ rounds →
      ∃ result, magnitudeUp (small n) (small d) β rounds exponent = some result ∧
        (β : ℚ) ^ result ≤ (n : ℚ) / d ∧ (n : ℚ) / d < (β : ℚ) ^ (result + 1) := by
  have hone : (1 : ℚ) < β := by exact_mod_cast base_gt hβ
  induction rounds with
  | zero =>
    intro exponent _ hle hlt
    have : (β : ℚ) ^ high ≤ (β : ℚ) ^ exponent := zpow_le_zpow_right₀ hone.le (by omega)
    exact absurd (hle.trans_lt hhigh) (not_lt.mpr this)
  | succ rounds ih =>
    intro exponent hroom hle hlt
    have hnext := hroom.succ hβ hd hfit' hfit hle
    obtain ⟨order, hcompare, horder⟩ := comparePower_eq hβ hd hnext
    rw [magnitudeUp, hcompare]
    by_cases hneg : order < 0
    · exact ⟨exponent, by simp [not_le.mpr hneg], hle, horder.mp hneg⟩
    · obtain ⟨result, hresult, h⟩ := ih (exponent + 1) hnext (not_lt.mp fun h => hneg (horder.mpr h)) (by omega)
      exact ⟨result, by simpa [not_lt.mp hneg] using hresult, h⟩

end Loops

theorem room_estimate (hβ : β = 2 ∨ β = 10) (hbits : n.log2 + d.log2 < 42000)
    (hexp : exponent = if β = 10 then (((n.log2 : Int) - d.log2) * 30103).tdiv 100000 else (n.log2 : Int) - d.log2) :
    Room n d β exponent ∧ -((d.log2 : Int) + 1) ≤ exponent ∧ exponent ≤ n.log2 := by
  have hlimbs := LIMBS_eq
  rcases hβ with rfl | rfl
  · rw [if_neg (by decide)] at hexp
    refine ⟨?_, by omega, by omega⟩
    rcases exponent_cases exponent with ⟨k, rfl⟩ | ⟨k, rfl⟩
    · rw [room_natCast]
      exact mul_pow_lt (Nat.le_refl _) (by omega)
    · rw [room_neg]
      exact mul_pow_lt (Nat.le_refl _) (by omega)
  · rw [if_pos rfl] at hexp
    rcases Int.le_total 0 (((n.log2 : Int) - d.log2) * 30103) with hsign | hsign
    · rw [Int.tdiv_eq_ediv_of_nonneg hsign] at hexp
      obtain ⟨k, rfl⟩ := Int.eq_ofNat_of_zero_le (by omega : 0 ≤ exponent)
      refine ⟨?_, by omega, by omega⟩
      rw [room_natCast]
      exact mul_pow_lt (ten_pow_le k) (by omega)
    · have hneg : exponent = -((((d.log2 : Int) - n.log2) * 30103) / 100000) := by
        rw [hexp, ← Int.neg_neg (((n.log2 : Int) - d.log2) * 30103), Int.neg_tdiv,
          Int.tdiv_eq_ediv_of_nonneg (by omega)]
        congr 2
        ring
      rcases exponent_cases exponent with ⟨k, rfl⟩ | ⟨k, rfl⟩
      · obtain rfl : k = 0 := by omega
        refine ⟨?_, by omega, by omega⟩
        rw [room_natCast]
        exact mul_pow_lt (Nat.le_of_eq (by rfl) : 10 ^ 0 ≤ 2 ^ 0) (by omega)
      · refine ⟨?_, by omega, by omega⟩
        rw [room_neg]
        exact mul_pow_lt (ten_pow_le (k + 1)) (by omega)

theorem log2_add_lt (hn : n ≠ 0) (hd : d ≠ 0) (h : n * d < 2 ^ k) : n.log2 + d.log2 < k := by
  have := Nat.mul_le_mul (Nat.log2_self_le hn) (Nat.log2_self_le hd)
  rw [← Nat.pow_add] at this
  exact (Nat.pow_lt_pow_iff_right (by decide)).mp (Nat.lt_of_le_of_lt this h)

theorem magnitude_eq (hβ : β = 2 ∨ β = 10) (hn : n ≠ 0) (hd : d ≠ 0) (h : n * d < 2 ^ roomBits) :
    magnitude (small n) (small d) β = some (Int.log β ((n : ℚ) / d)) := by
  have hlimbs := LIMBS_eq
  have hbits := log2_add_lt hn hd h
  rw [roomBits_eq] at hbits
  have hd0 : 0 < d := Nat.pos_of_ne_zero hd
  have hone : (1 : ℚ) < β := by exact_mod_cast base_gt hβ
  have hten : β ≤ 2 ^ 4 := by omega
  have hfit : d * β < (2 ^ 32) ^ (LIMBS - 1) := by
    rw [← Nat.pow_one β]
    exact mul_pow_lt (by rw [Nat.pow_one]; exact hten) (by omega)
  have hfit' : n * β < (2 ^ 32) ^ (LIMBS - 1) := by
    rw [← Nat.pow_one β]
    exact mul_pow_lt (by rw [Nat.pow_one]; exact hten) (by omega)
  have hlow : (β : ℚ) ^ (-((d.log2 + 1 : Nat) : Int)) ≤ (n : ℚ) / d := by
    rw [← not_lt, div_lt_zpow_neg hβ hd0, not_lt]
    calc d ≤ 1 * 2 ^ (d.log2 + 1) := by rw [Nat.one_mul]; exact Nat.lt_log2_self.le
      _ ≤ n * β ^ (d.log2 + 1) := Nat.mul_le_mul (by omega) (two_pow_le hβ _)
  have hhigh : (n : ℚ) / d < (β : ℚ) ^ ((n.log2 + 1 : Nat) : Int) := by
    rw [div_lt_zpow_natCast hd0]
    calc n < 1 * 2 ^ (n.log2 + 1) := by rw [Nat.one_mul]; exact Nat.lt_log2_self
      _ ≤ d * β ^ (n.log2 + 1) := Nat.mul_le_mul hd0 (two_pow_le hβ _)
  rw [magnitude, bits_small hn, bits_small hd]
  rw [show ((n.log2 + 1 : Nat) : Int) - ((d.log2 + 1 : Nat) : Int) = (n.log2 : Int) - d.log2 by omega]
  obtain ⟨hroom, hle, hge⟩ := room_estimate hβ hbits rfl
  obtain ⟨first, hfirst, hroom, hlow', hbelow⟩ := magnitudeDown_eq hβ hd0 hfit hlow ROUNDS _ hroom
    (by omega) (by rw [ROUNDS]; omega)
  obtain ⟨result, hresult, hle', hlt'⟩ := magnitudeUp_eq hβ hd0 hfit hfit' hhigh ROUNDS first hroom
    hbelow (by rw [ROUNDS]; omega)
  have hpos : (0 : ℚ) < (n : ℚ) / d := (zpow_pos_of_base (base_gt hβ) result).trans_le hle'
  have hlog : Int.log β ((n : ℚ) / d) = result := by
    have h1 := (Int.zpow_le_iff_le_log (base_gt hβ) hpos).mp hle'
    have h2 := (Int.lt_zpow_iff_log_lt (base_gt hβ) hpos).mp hlt'
    omega
  rw [hlog]
  exact (congrArg (· >>= magnitudeUp (small n) (small d) β ROUNDS) hfirst).trans hresult

/-! ## Rounding -/

def scaled (n d β : Nat) (scale : Int) : Nat × Nat :=
  if 0 ≤ scale then (n * β ^ scale.natAbs, d) else (n, d * β ^ scale.natAbs)

theorem scaled_pos (hβ : β = 2 ∨ β = 10) (hd : 0 < d) (scale : Int) : 0 < (scaled n d β scale).2 := by
  unfold scaled
  split
  · exact hd
  · exact Nat.mul_pos hd (Nat.pow_pos (by omega))

theorem scaled_div (hβ : β = 2 ∨ β = 10) (hd : 0 < d) (scale : Int) :
    ((scaled n d β scale).1 : ℚ) / (scaled n d β scale).2 = (n : ℚ) / d * (β : ℚ) ^ scale := by
  have hβ' : (β : ℚ) ≠ 0 := base_ne_zero (base_gt hβ)
  have hd' : (d : ℚ) ≠ 0 := by exact_mod_cast hd.ne'
  unfold scaled
  rcases exponent_cases scale with ⟨k, rfl⟩ | ⟨k, rfl⟩
  · rw [if_pos (by omega), Int.natAbs_natCast, zpow_natCast]
    push_cast
    field_simp
  · rw [if_neg (by omega), Int.natAbs_neg, Int.natAbs_natCast, zpow_neg, zpow_natCast]
    push_cast
    field_simp

theorem odd_head (x : Nat) : ((small x).headD 0 &&& 1 ≠ 0) ↔ x % 2 = 1 := by
  have hhead : (small x).headD 0 = x % 2 ^ 32 := by
    rw [small]
    split
    · rename_i hx
      rw [hx]
      rfl
    · rfl
  rw [hhead, Nat.and_one_is_mod]
  omega

theorem round_division {N D : Nat} (hD : 0 < D) (hN : N < (2 ^ 32) ^ (LIMBS - 2)) (hD' : D < (2 ^ 32) ^ (LIMBS - 2)) :
    (do
      let (result, numerator) ← divide (small N) (small D)
      let numerator ← multiplySmall numerator 2
      let order := compare numerator (small D)
      if 0 < order ∨ order = 0 ∧ result ≠ [] ∧ result.headD 0 &&& 1 ≠ 0 then add result (small 1)
      else some result) = some (small (N / D + if D < N % D * 2 ∨ N % D * 2 = D ∧ N / D % 2 = 1 then 1 else 0)) := by
  have hlimbs := LIMBS_eq
  have hgrow : 2 * (2 ^ 32) ^ (LIMBS - 2) ≤ (2 ^ 32) ^ LIMBS := by
    rw [show LIMBS = LIMBS - 2 + 2 by omega, Nat.pow_add, Nat.add_sub_cancel, Nat.mul_comm]
    exact Nat.mul_le_mul_left _ (by decide)
  have hrem := Nat.mod_lt N hD
  have hquotient := Nat.div_le_self N D
  have hone : 0 < (2 ^ 32) ^ (LIMBS - 2) := Nat.pow_pos (by decide)
  rw [divide_eq hD hN]
  simp only [Option.bind_eq_bind, Option.bind_some]
  rw [multiplySmall_eq (by decide) (by decide) (by omega)]
  simp only [Option.bind_some, compare_small, order_pos, order_eq_zero, odd_head]
  have hcond : (D < N % D * 2 ∨ N % D * 2 = D ∧ small (N / D) ≠ [] ∧ N / D % 2 = 1) ↔
      (D < N % D * 2 ∨ N % D * 2 = D ∧ N / D % 2 = 1) := by
    refine or_congr Iff.rfl (and_congr Iff.rfl ⟨fun h => h.2, fun h => ⟨?_, h⟩⟩)
    intro hnil
    rw [small_eq_nil] at hnil
    omega
  simp only [hcond]
  split
  · exact add_eq (by omega)
  · rfl

theorem rounded_eq (hβ : β = 2 ∨ β = 10) (hd : 0 < d) {scale : Int}
    (hN : (scaled n d β scale).1 < (2 ^ 32) ^ (LIMBS - 2)) (hD : (scaled n d β scale).2 < (2 ^ 32) ^ (LIMBS - 2)) :
    ∃ c : Nat, rounded (small n) (small d) β scale = some (small c) ∧
      (c : ℤ) = roundEven ((n : ℚ) / d * (β : ℚ) ^ scale) := by
  have hlimbs := LIMBS_eq
  have hless : (2 ^ 32) ^ (LIMBS - 2) ≤ (2 ^ 32) ^ (LIMBS - 1) :=
    Nat.pow_le_pow_right (by decide) (by omega)
  rw [← scaled_div hβ hd, roundEven_div _ (scaled_pos hβ hd scale)]
  refine ⟨_, ?_, rfl⟩
  rw [← round_division (scaled_pos hβ hd scale) hN hD]
  unfold rounded
  unfold scaled at hN hD ⊢
  by_cases hsign : 0 ≤ scale
  · simp only [hsign, if_true] at hN hD ⊢
    rw [power_eq hβ (by omega)]
    rfl
  · simp only [hsign, if_false] at hN hD ⊢
    rw [power_eq hβ (by omega)]
    rfl

end Magnitude

end Tsuzuri.Soft
