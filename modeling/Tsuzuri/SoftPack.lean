import Tsuzuri.SoftDatum
import Tsuzuri.SoftRound

/-!
# Packing a quotient

`pack` gives the encoding of the nearest number of the format.
-/

namespace Tsuzuri.Soft

open Rounding

section Pack

variable {f : Format}

/-- The way in which a format writes a number. -/
structure Canonical (f : Format) (preferred : Int) (c : Nat) (q : Int) : Prop where
  fits : Fits f c q
  normal : f.base = 2 → c < 2 ^ f.fraction → q = f.minimum
  cohort : f.base = 10 → ∀ (c' : Nat) (q' : Int), Fits f c' q' →
    (c' : ℚ) * 10 ^ q' = c * 10 ^ q → if c = 0 then q ≤ q' else |q - preferred| ≤ |q' - preferred|

/-- A positive number is rounded to the nearest of the format, the even one of two. -/
inductive Rounded (f : Format) (negative : Bool) (preferred : Int) (x : ℚ) : Datum → Prop
  | infinity {y : ℚ} (nearest : Nearest f.base f.precision f.minimum x y)
      (overflow : (f.base : ℚ) ^ ((f.precision : ℤ) + f.maximum) ≤ y) :
      Rounded f negative preferred x (.infinity negative)
  | finite {c : Nat} {q : Int} (nearest : Nearest f.base f.precision f.minimum x (c * (f.base : ℚ) ^ q))
      (canonical : Canonical f preferred c q) :
      Rounded f negative preferred x (.finite negative c q)

variable {preferred q : Int} {c : Nat} {x : ℚ}

theorem Canonical.valid (h : Canonical f preferred c q) (negative : Bool) : (Datum.finite negative c q).Valid f :=
  ⟨h.fits, h.normal⟩

theorem Rounded.valid {negative : Bool} {d : Datum} (h : Rounded f negative preferred x d) : d.Valid f := by
  cases h with
  | infinity => trivial
  | finite _ canonical => exact canonical.valid _

/-! ## Cohorts -/

theorem shorten_eq (maximum : Int) (rounds : Nat) : ∀ (q : Int) (c : Nat),
    ∃ (k c' : Nat), shorten maximum rounds q (small c) = (q + k, small c') ∧ c = c' * 10 ^ k ∧
      k ≤ rounds ∧ (q ≤ maximum → q + k ≤ maximum) ∧ (c = 0 → k = 0) ∧
        (k = rounds ∨ maximum ≤ q + k ∨ c' = 0 ∨ ¬10 ∣ c') := by
  induction rounds with
  | zero => exact fun q c => ⟨0, c, by simp [shorten], by simp, Nat.le_refl _, by simp, fun _ => rfl, .inl rfl⟩
  | succ rounds ih =>
    intro q c
    rw [shorten]
    simp only [divideSmall_eq (show 0 < 10 by decide), ne_eq, small_eq_nil]
    by_cases hgo : q < maximum ∧ ¬c = 0
    · rw [if_pos hgo]
      by_cases hzero : c % 10 = 0
      · obtain ⟨k, c', hshort, hc, hk, hmax, _, hstop⟩ := ih (q + 1) (c / 10)
        refine ⟨k + 1, c', ?_, ?_, by omega, fun _ => by have := hmax (by omega); push_cast; omega,
          fun h => absurd h hgo.2, ?_⟩
        · rw [if_neg (by omega), hshort]
          congr 1
          push_cast
          ring
        · have : c = c / 10 * 10 := by omega
          rw [this, hc, Nat.pow_succ, Nat.mul_assoc]
        · rcases hstop with h | h | h
          · exact .inl (by omega)
          · exact .inr (.inl (by push_cast; omega))
          · exact .inr (.inr h)
      · rw [if_pos hzero]
        refine ⟨0, c, by simp, by simp, Nat.zero_le _, by simp, fun _ => rfl, .inr (.inr (.inr ?_))⟩
        rwa [Nat.dvd_iff_mod_eq_zero]
    · rw [if_neg hgo]
      refine ⟨0, c, by simp, by simp, Nat.zero_le _, by simp, fun _ => rfl, ?_⟩
      rw [not_and_or, not_not] at hgo
      rcases hgo with h | h
      · exact .inr (.inl (by push_cast; omega))
      · exact .inr (.inr (.inl h))

theorem coefficient_of_le {c' : Nat} {q' : Int} (h : (c' : ℚ) * 10 ^ q' = c * 10 ^ q) (hle : q ≤ q') :
    c = c' * 10 ^ (q' - q).toNat := by
  have hne : (10 : ℚ) ^ q ≠ 0 := zpow_ne_zero _ (by norm_num)
  have hsplit : (10 : ℚ) ^ q' = 10 ^ (q' - q).toNat * 10 ^ q := by
    rw [← zpow_natCast, ← zpow_add₀ (by norm_num)]
    congr 1
    omega
  rw [hsplit, ← mul_assoc] at h
  have := mul_right_cancel₀ hne h
  exact_mod_cast this.symm

theorem exists_canonical (hf : f.Floating) (preferred : Int) (h : Fits f c q)
    (hfirst : q = f.minimum ∨ f.base ^ (f.precision - 1) ≤ c) :
    ∃ c' q', (if f.base = 10 then shorten f.maximum (preferred - q).toNat q (small c)
        else (q, small c)) = (q', small c') ∧
      Canonical f preferred c' q' ∧ (c' : ℚ) * (f.base : ℚ) ^ q' = c * (f.base : ℚ) ^ q := by
  rcases hf.base_cases with hb | hb
  · rw [if_neg (by omega)]
    refine ⟨c, q, rfl, ⟨h, fun _ hlt => ?_, fun hb' => absurd (hb.symm.trans hb') (by decide)⟩, rfl⟩
    refine hfirst.resolve_right fun hle => ?_
    rw [hb, (hf.binary hb).precision_eq, Nat.add_sub_cancel] at hle
    omega
  rw [if_pos hb]
  obtain ⟨k, c', hshort, hc, hk, hmax, hempty, hstop⟩ := shorten_eq f.maximum (preferred - q).toNat q c
  have hle : c' ≤ c := by
    rw [hc]
    exact Nat.le_mul_of_pos_right _ (Nat.pow_pos (by decide))
  have hlow := h.minimum_le
  have hhigh := hmax h.le_maximum
  have hdigits := h.digits_lt
  have hfits : Fits f c' (q + k) := ⟨by omega, by omega, hhigh⟩
  refine ⟨c', q + k, hshort, ⟨hfits, fun h2 => absurd (hb.symm.trans h2) (by decide), ?_⟩, ?_⟩
  · intro _ c'' q'' hother heq
    have hmin := hother.minimum_le
    have hmax' := hother.le_maximum
    by_cases hzero : c' = 0
    · rw [if_pos hzero]
      rw [hzero, Nat.zero_mul] at hc
      rw [hempty hc]
      rcases hfirst with rfl | hle'
      · simpa using hmin
      · have : 0 < f.base ^ (f.precision - 1) := Nat.pow_pos (by omega)
        omega
    rw [if_neg hzero]
    rcases Nat.lt_or_ge k (preferred - q).toNat with hlt | hge
    · -- the loop has stopped before the preferred exponent
      rcases Int.le_total q'' (q + k) with hle' | hle'
      · rw [abs_of_nonpos (by omega), abs_of_nonpos (by omega)]
        omega
      · have hmul := coefficient_of_le heq hle'
        rcases hle'.lt_or_eq with hlt' | rfl
        · obtain ⟨j, hj⟩ : ∃ j, (q'' - (q + k)).toNat = j + 1 := ⟨(q'' - (q + k)).toNat - 1, by omega⟩
          have hdvd : 10 ∣ c' := by
            rw [hmul, hj, Nat.pow_succ, ← Nat.mul_assoc]
            exact Nat.dvd_mul_left _ _
          rcases hstop with h | h | h | h
          · omega
          · omega
          · exact absurd h hzero
          · exact absurd hdvd h
        · exact le_refl _
    · -- an exponent above the preferred one is that of the first digit
      rcases Int.le_total (q + k) q'' with hle' | hlt'
      · rw [abs_of_nonneg (by omega), abs_of_nonneg (by omega)]
        omega
      · rcases hlt'.lt_or_eq with hlt' | rfl
        · rcases lt_or_ge preferred (q + k) with hpref | hpref
          · obtain rfl : k = 0 := by omega
            rw [Nat.pow_zero, Nat.mul_one] at hc
            have hmul := coefficient_of_le heq.symm hlt'.le
            obtain ⟨j, hj⟩ : ∃ j, (q + (0 : Nat) - q'').toNat = j + 1 :=
              ⟨(q + (0 : Nat) - q'').toNat - 1, by omega⟩
            have hdigit : f.base ^ (f.precision - 1) ≤ c := hfirst.resolve_left (by omega)
            have hmore : f.base ^ f.precision ≤ c'' := by
              rw [hmul, hj, ← Nat.sub_add_cancel hf.precision_pos, Nat.pow_succ, ← hc, hb, Nat.pow_succ,
                Nat.mul_comm (10 ^ j), ← Nat.mul_assoc]
              rw [hb] at hdigit
              exact (Nat.mul_le_mul_right 10 hdigit).trans (Nat.le_mul_of_pos_right _ (Nat.pow_pos (by decide)))
            exact absurd hother.digits_lt (Nat.not_lt.mpr hmore)
          · rw [show q + k - preferred = 0 by omega, abs_zero]
            exact abs_nonneg _
        · exact le_refl _
  · rw [hb, hc, zpow_add₀ (by norm_num), zpow_natCast]
    push_cast
    ring

/-! ## Packing -/

def zeroExponent (f : Format) (exponent : Int) : Int :=
  if f.base = 10 then max f.minimum (min f.maximum exponent) else f.minimum

theorem zero_valid (hf : f.Floating) (negative : Bool) (exponent : Int) :
    (Datum.finite negative 0 (zeroExponent f exponent)).Valid f := by
  have hle := hf.minimum_le_maximum
  have hpos : 0 < f.base ^ f.precision := Nat.pow_pos (by have := hf.base_cases; omega)
  unfold zeroExponent
  rcases hf.base_cases with hb | hb
  · rw [if_neg (by omega)]
    exact ⟨⟨hpos, Int.le_refl _, hle⟩, fun _ _ => rfl⟩
  · rw [if_pos hb]
    exact ⟨⟨hpos, by omega, by omega⟩, fun h => absurd (hb.symm.trans h) (by decide)⟩

theorem pack_zero (hf : f.Floating) (d : Big) (exponent : Int) (negative : Bool) :
    pack (small 0) d exponent negative f = some (encode f (.finite negative 0 (zeroExponent f exponent))) := by
  have hvalid := zero_valid hf negative exponent
  have hfits := hvalid.1
  have hle := hf.minimum_le_maximum
  rw [pack, if_pos small_zero, encode_finite]
  refine congrArg some ?_
  rcases hf.base_cases with hb | hb
  · have hten : ¬f.base = 10 := by omega
    rw [if_neg hten, if_pos hb, binaryField, if_pos (Nat.two_pow_pos _), Nat.or_zero, Nat.add_zero,
      signField, Nat.shiftLeft_eq]
  · have htwo : ¬f.base = 2 := by omega
    have hd := hf.decimal hb
    obtain ⟨hpos, _, hlt, hless, _⟩ := decimalField_lt hf hd hfits
    have hwidth := two_pow_width hf
    have hle128 := hf.width_le
    have hwide : 2 ^ (f.width - 1) < 2 ^ 128 :=
      Nat.pow_lt_pow_right (by decide) (by have := hf.width_ge; omega)
    have hquantum : (if exponent < f.minimum then f.minimum
        else if f.maximum < exponent then f.maximum else exponent) = zeroExponent f exponent := by
      rw [zeroExponent, if_pos hb]
      split_ifs <;> omega
    have hfield : decimalField f 0 (zeroExponent f exponent) =
        (zeroExponent f exponent + f.bias).toNat * 2 ^ f.fraction := by
      rw [decimalField, if_neg (by have := Nat.two_pow_pos f.fraction; omega), Nat.add_zero]
    rw [hfield] at hless
    rw [hquantum, if_pos hb, if_neg htwo, hfield, ← sign_or negative (by omega), shift_field hpos (by omega)]

theorem finish_eq (hf : f.Floating) (negative : Bool) {same : ℚ → Prop}
    (hnear : ∀ z, same z → Nearest f.base f.precision f.minimum z (c * (f.base : ℚ) ^ q)) (h : Fits f c q)
    (hfirst : q = f.minimum ∨ f.base ^ (f.precision - 1) ≤ c) :
    ∃ d, (do
      let short :=
        if f.base = 10 then shorten f.maximum (preferred - q).toNat q (small c) else (q, small c)
      let value ← narrow short.2
      some (assembleBits value short.1 negative f)) = some (encode f d) ∧
        ∀ z, same z → Rounded f negative preferred z d := by
  obtain ⟨c', q', hshort, hcanonical, hvalue⟩ := exists_canonical hf preferred h hfirst
  refine ⟨.finite negative c' q', ?_, fun z hz => .finite (hvalue ▸ hnear z hz) hcanonical⟩
  rw [hshort]
  simp only
  rw [narrow_eq (hcanonical.fits.digits_lt.trans_le hf.digits_le)]
  exact congrArg some (assembleBits_eq hf hcanonical.fits negative)

section Room

variable {n d : Nat} {exponent : Int}

theorem scaled_lt (hf : f.Floating) (hn : n ≠ 0) (hd : d ≠ 0) (h : n * d < 2 ^ roomBits)
    (hmin : d * f.base ^ (f.minimum - exponent).toNat < 2 ^ roomBits)
    (hq : q = quantum f.base f.precision f.minimum ((n : ℚ) / d * (f.base : ℚ) ^ exponent)) :
    (scaled n d f.base (exponent - q)).1 < (2 ^ 32) ^ (LIMBS - 2) ∧
      (scaled n d f.base (exponent - q)).2 < (2 ^ 32) ^ (LIMBS - 2) := by
  have hlimbs := LIMBS_eq
  have hβ := hf.base_cases
  have hd0 : 0 < d := Nat.pos_of_ne_zero hd
  have hdq : (0 : ℚ) < d := by exact_mod_cast hd0
  have hnq : (0 : ℚ) < n := by exact_mod_cast Nat.pos_of_ne_zero hn
  have hbase : (f.base : ℚ) ≠ 0 := base_ne_zero (base_gt hβ)
  have hx : (0 : ℚ) < (n : ℚ) / d * (f.base : ℚ) ^ exponent :=
    mul_pos (div_pos hnq hdq) (zpow_pos_of_base (base_gt hβ) _)
  have hroom : 2 ^ roomBits * 2 ^ 128 ≤ (2 ^ 32) ^ (LIMBS - 2) := by
    rw [← Nat.pow_mul, ← Nat.pow_add]
    exact Nat.pow_le_pow_right (by decide) (by have := roomBits_eq; omega)
  have hnlt : n ≤ n * d := Nat.le_mul_of_pos_right _ hd0
  have hdlt : d ≤ n * d := Nat.le_mul_of_pos_left _ (Nat.pos_of_ne_zero hn)
  clear hlimbs
  generalize (2 ^ 32) ^ (LIMBS - 2) = array at *
  generalize 2 ^ roomBits = room at *
  have hquotient : (n : ℚ) / d * (f.base : ℚ) ^ exponent =
      (n : ℚ) / d * (f.base : ℚ) ^ (exponent - q) * (f.base : ℚ) ^ q := by
    rw [mul_assoc, ← zpow_add₀ hbase, sub_add_cancel]
  unfold scaled
  rcases exponent_cases (exponent - q) with ⟨k, hk⟩ | ⟨k, hk⟩
  · rw [hk, if_pos (by omega), Int.natAbs_natCast]
    refine ⟨?_, by omega⟩
    have hlt := lt_zpow_quantum (p := f.precision) (l := f.minimum) (base_gt hβ) ((n : ℚ) / d * (f.base : ℚ) ^ exponent)
    rw [← hq, hquotient, hk, zpow_natCast] at hlt
    have := lt_of_mul_lt_mul_right hlt (zpow_pos_of_base (base_gt hβ) q).le
    rw [div_mul_eq_mul_div, div_lt_iff₀ hdq] at this
    have hnat : n * f.base ^ k < f.base ^ f.precision * d := by exact_mod_cast this
    have hmul : f.base ^ f.precision * d ≤ 2 ^ 128 * d := Nat.mul_le_mul_right _ hf.digits_le
    omega
  · rw [hk, if_neg (by omega), Int.natAbs_neg, Int.natAbs_natCast]
    refine ⟨by omega, ?_⟩
    by_cases hlow : q = f.minimum
    · rw [show (f.minimum - exponent).toNat = k + 1 by omega] at hmin
      omega
    · have hgt : f.minimum < quantum f.base f.precision f.minimum ((n : ℚ) / d * (f.base : ℚ) ^ exponent) := by
        rw [← hq]
        exact lt_of_le_of_ne (hq ▸ le_max_right _ _) (Ne.symm hlow)
      have hle := zpow_quantum_le (base_gt hβ) hx hgt
      rw [← hq, hquotient, hk] at hle
      have := le_of_mul_le_mul_right hle (zpow_pos_of_base (base_gt hβ) q)
      have hfirst : (1 : ℚ) ≤ (f.base : ℚ) ^ ((f.precision : ℤ) - 1) :=
        one_le_zpow₀ (by exact_mod_cast (base_gt hβ).le) (by have := hf.precision_pos; omega)
      have hone' := hfirst.trans this
      rw [zpow_neg, zpow_natCast, ← div_eq_mul_inv, div_div, le_div_iff₀ (by positivity), one_mul] at hone'
      have hnat : d * f.base ^ (k + 1) ≤ n := by exact_mod_cast hone'
      omega

end Room

theorem coefficient_bounds (hf : f.Floating) (hx : 0 < x)
    (hc : (c : ℤ) = roundEven (x / (f.base : ℚ) ^ quantum f.base f.precision f.minimum x)) :
    c ≤ f.base ^ f.precision ∧ (f.minimum < quantum f.base f.precision f.minimum x →
      f.base ^ (f.precision - 1) ≤ c) := by
  have hβ := base_gt hf.base_cases
  have hgrid := zpow_pos_of_base (K := ℚ) hβ (quantum f.base f.precision f.minimum x)
  constructor
  · have hlt := lt_zpow_quantum (p := f.precision) (l := f.minimum) hβ x
    rw [← div_lt_iff₀ hgrid] at hlt
    have := roundEven_le (m := ((f.base ^ f.precision : Nat) : ℤ)) (by push_cast; exact hlt.le)
    rw [← hc] at this
    exact_mod_cast this
  · intro hlt
    have hle := zpow_quantum_le hβ hx hlt
    rw [← le_div_iff₀ hgrid] at hle
    have hcast : (((f.base ^ (f.precision - 1) : Nat) : ℤ) : ℚ) = (f.base : ℚ) ^ ((f.precision : ℤ) - 1) := by
      push_cast
      rw [← zpow_natCast, Nat.cast_sub hf.precision_pos, Nat.cast_one]
    have := le_roundEven (m := ((f.base ^ (f.precision - 1) : Nat) : ℤ)) (hcast ▸ hle)
    rw [← hc] at this
    exact_mod_cast this

theorem pack_eq (hf : f.Floating) {n d : Nat} {exponent : Int} (hn : n ≠ 0) (hd : d ≠ 0)
    (h : n * d < 2 ^ roomBits) (hmin : d * f.base ^ (f.minimum - exponent).toNat < 2 ^ roomBits) (negative : Bool) :
    ∃ datum, pack (small n) (small d) exponent negative f = some (encode f datum) ∧
      ∀ z, 0 < z ∧ roundTo f.base f.precision f.minimum z =
        roundTo f.base f.precision f.minimum ((n : ℚ) / d * (f.base : ℚ) ^ exponent) →
          Rounded f negative exponent z datum := by
  have hβ := base_gt hf.base_cases
  have hbase : (f.base : ℚ) ≠ 0 := base_ne_zero hβ
  have hX : (0 : ℚ) < (n : ℚ) / d :=
    div_pos (by exact_mod_cast Nat.pos_of_ne_zero hn) (by exact_mod_cast Nat.pos_of_ne_zero hd)
  have hx : (0 : ℚ) < (n : ℚ) / d * (f.base : ℚ) ^ exponent := mul_pos hX (zpow_pos_of_base hβ _)
  obtain ⟨q, hq⟩ : ∃ q, q = quantum f.base f.precision f.minimum ((n : ℚ) / d * (f.base : ℚ) ^ exponent) := ⟨_, rfl⟩
  obtain ⟨hN, hD⟩ := scaled_lt hf hn hd h hmin hq
  obtain ⟨c, hrounded, hc⟩ := rounded_eq hf.base_cases (Nat.pos_of_ne_zero hd) hN hD
  have hgrid : (n : ℚ) / d * (f.base : ℚ) ^ (exponent - q) =
      (n : ℚ) / d * (f.base : ℚ) ^ exponent / (f.base : ℚ) ^ q := by
    rw [zpow_sub₀ hbase, mul_div_assoc]
  rw [hgrid] at hc
  have hnear : ∀ z, 0 < z ∧ roundTo f.base f.precision f.minimum z =
      roundTo f.base f.precision f.minimum ((n : ℚ) / d * (f.base : ℚ) ^ exponent) →
        Nearest f.base f.precision f.minimum z (c * (f.base : ℚ) ^ q) := by
    intro z ⟨hz, hround⟩
    have := nearest_roundTo (p := f.precision) (l := f.minimum) hβ hf.precision_pos hz
    rw [hround, roundTo, ← hq, ← hc] at this
    exact_mod_cast this
  obtain ⟨hcle, hfirst⟩ := coefficient_bounds hf hx (hq ▸ hc)
  rw [← hq] at hfirst
  have hlow : f.minimum ≤ q := hq ▸ le_max_right _ _
  have hquantum : (if Int.log f.base ((n : ℚ) / d) + exponent - ((f.precision : Int) - 1) < f.minimum
      then f.minimum else Int.log f.base ((n : ℚ) / d) + exponent - ((f.precision : Int) - 1)) = q := by
    rw [hq, quantum, log_mul_zpow hβ hX]
    split_ifs <;> omega
  have hnil : ¬small n = [] := fun hnil => hn (small_eq_nil.mp hnil)
  rw [pack, if_neg hnil, magnitude_eq hf.base_cases hn hd h]
  simp only [Option.bind_eq_bind, Option.bind_some, hquantum]
  -- a number whose first digit is behind the greatest exponent
  by_cases hover : f.maximum < q
  · rw [if_pos hover, special_infinity hf]
    refine ⟨_, rfl, fun z hz => .infinity (hnear z hz) ?_⟩
    have hdigit := hfirst (lt_of_le_of_lt hf.minimum_le_maximum hover)
    calc (f.base : ℚ) ^ ((f.precision : ℤ) + f.maximum) ≤ (f.base : ℚ) ^ ((f.precision - 1 : Nat) + q) :=
          zpow_le_zpow_right₀ (by exact_mod_cast hβ.le) (by have := hf.precision_pos; omega)
      _ = (f.base : ℚ) ^ (f.precision - 1) * (f.base : ℚ) ^ q := by
          rw [zpow_add₀ hbase, zpow_natCast]
      _ ≤ c * (f.base : ℚ) ^ q :=
          mul_le_mul_of_nonneg_right (by exact_mod_cast hdigit) (zpow_pos_of_base hβ q).le
  rw [if_neg hover, hrounded]
  simp only [Option.bind_some]
  rw [limit_eq hf]
  simp only [Option.bind_some, compare_small, order_nonneg, decide_eq_true_eq]
  by_cases hcarry : f.base ^ f.precision ≤ c
  · -- the digits are all nines, and one more has been carried
    obtain rfl : c = f.base ^ f.precision := Nat.le_antisymm hcle hcarry
    have hdiv : f.base ^ f.precision / f.base = f.base ^ (f.precision - 1) := by
      conv_lhs => rw [← Nat.sub_add_cancel hf.precision_pos, Nat.pow_succ]
      exact Nat.mul_div_cancel _ (by omega)
    have hvalue : ((f.base ^ f.precision : Nat) : ℚ) * (f.base : ℚ) ^ q =
        ((f.base ^ (f.precision - 1) : Nat) : ℚ) * (f.base : ℚ) ^ (q + 1) := by
      push_cast
      rw [zpow_add_one₀ hbase, ← mul_assoc, mul_right_comm, ← pow_succ, Nat.sub_add_cancel hf.precision_pos]
    simp only [if_pos hcarry, divideSmall_eq (show 0 < f.base by omega), hdiv]
    by_cases htop : f.maximum < q + 1
    · rw [if_pos ⟨hcarry, htop⟩, special_infinity hf]
      refine ⟨_, rfl, fun z hz => .infinity (hnear z hz) ?_⟩
      rw [show f.maximum = q by omega, zpow_add₀ hbase, zpow_natCast]
      push_cast
      exact le_refl _
    · rw [if_neg fun hand => htop hand.2]
      refine finish_eq hf negative (fun z hz => hvalue ▸ hnear z hz) ⟨?_, by omega, by omega⟩ (.inr (Nat.le_refl _))
      exact Nat.pow_lt_pow_right hβ (by have := hf.precision_pos; omega)
  · simp only [if_neg hcarry]
    rw [if_neg fun hand => hcarry hand.1]
    refine finish_eq hf negative hnear ⟨Nat.not_le.mp hcarry, hlow, by omega⟩ ?_
    rcases hlow.eq_or_lt with heq | hlt
    · exact .inl heq.symm
    · exact .inr (hfirst hlt)

end Pack

end Tsuzuri.Soft
