import Tsuzuri.SoftOrder

/-!
# Fused multiply-add

The product is exact and the sum is rounded once.
-/

namespace Tsuzuri.Soft

open Rounding

def fmaExceptional (first second last : Number) : Special × Bool :=
  let negative := first.negative ^^ second.negative
  if first.special = .nan ∨ second.special = .nan ∨ last.special = .nan then (.nan, negative)
  else if first.special ≠ .finite ∨ second.special ≠ .finite then
    (if first.special = .finite ∧ first.coefficient = [] ∨ second.special = .finite ∧ second.coefficient = [] then .nan
      else if last.special ≠ .finite ∧ last.negative ≠ negative then .nan
      else .infinity, negative)
  else if last.special ≠ .finite then (.infinity, last.negative)
  else (.finite, negative)

def guardDigits (f : Format) : Int := 3 * f.precision + 8

def sticky (product last : Number) (f : Format) : Number × Number :=
  if guardDigits f < product.exponent - last.exponent then
    (product, { last with coefficient := small 1, exponent := product.exponent - guardDigits f })
  else if guardDigits f < last.exponent - product.exponent then
    ({ product with coefficient := small 1, exponent := last.exponent - guardDigits f }, last)
  else (product, last)

def fuse (product last : Number) (f : Format) : Option Nat :=
  if product.coefficient = [] ∧ last.coefficient = [] then
    pack product.coefficient (small 1) (if last.exponent < product.exponent then last.exponent else product.exponent)
      (if product.negative ≠ last.negative then false else product.negative) f
  else if product.coefficient = [] then
    pack last.coefficient (small 1) last.exponent last.negative f
  else if last.coefficient = [] then
    pack product.coefficient (small 1) product.exponent product.negative f
  else
    let terms := sticky product last f
    packSum terms.1 terms.2 product.negative f

def applyFma (f : Format) (first second last : Number) : Option Nat :=
  let except := fmaExceptional first second last
  if except.1 ≠ .finite then some (special f except.1 except.2)
  else do
    let product ← multiply first.coefficient second.coefficient
    fuse ⟨product, first.exponent + second.exponent, except.2, .finite⟩ last f

def tzSoftFma (left right addend : List UInt8) (kind : Nat) : Option (List UInt8) := do
  let f := format kind
  let first ← decode left f
  let second ← decode right f
  let last ← decode addend f
  let packed ← applyFma f first second last
  some (store packed f.width)

def InfiniteResult (negative : Bool) : Datum → Datum → Prop
  | .infinity s, d => if s = negative then d = .infinity negative else IsNan d
  | _, d => d = .infinity negative

def fmaPreferred (c c' : Nat) (q q' : Int) : Int :=
  if c = 0 ∧ c' ≠ 0 then q' else if c ≠ 0 ∧ c' = 0 then q else min q q'

def FmaResult (f : Format) : Datum → Datum → Datum → Datum → Prop
  | .nan _, _, _, d => IsNan d
  | _, .nan _, _, d => IsNan d
  | _, _, .nan _, d => IsNan d
  | .infinity s, .infinity t, z, d => InfiniteResult (s ^^ t) z d
  | .infinity s, .finite t c _, z, d => if c = 0 then IsNan d else InfiniteResult (s ^^ t) z d
  | .finite s c _, .infinity t, z, d => if c = 0 then IsNan d else InfiniteResult (s ^^ t) z d
  | .finite .., .finite .., .infinity v, d => d = .infinity v
  | .finite s c q, .finite t c' q', .finite v m r, d =>
    Rounds f (exact f s c q * exact f t c' q' + exact f v m r) ((s ^^ t) && v) (fmaPreferred (c * c') m (q + q') r) d

/-! ## The sticky digit -/

variable {negative : Bool}

section Sticky

variable {f : Format} (hf : f.Floating) {s t : Bool} {c c' : Nat} {q q' : Int} {d : Datum}

include hf

theorem base_even : Even f.base := by
  rcases hf.base_cases with h | h <;> rw [h] <;> decide

variable {x : ℚ}

omit hf in
theorem Rounded.preferred {p p' : Int} (h : Rounded f negative p x d) (hle : p' ≤ p)
    (hlow : ∀ (k : Nat) (r : Int), k < f.base ^ f.precision →
      Nearest f.base f.precision f.minimum x (k * (f.base : ℚ) ^ r) → p ≤ r) : Rounded f negative p' x d := by
  cases h with
  | infinity nearest overflow => exact .infinity nearest overflow
  | @finite k r nearest canonical =>
    refine .finite nearest ⟨canonical.fits, canonical.normal, fun hb k' r' hfits heq => ?_⟩
    have hcohort := canonical.cohort hb k' r' hfits heq
    have hr := hlow k r canonical.fits.digits_lt nearest
    have heq' : (k' : ℚ) * (f.base : ℚ) ^ r' = k * (f.base : ℚ) ^ r := by
      rw [hb]
      exact_mod_cast heq
    have hr' := hlow k' r' hfits.digits_lt (heq' ▸ nearest)
    split_ifs at hcohort ⊢ with hk
    · exact hcohort
    · rw [abs_of_nonneg (by omega), abs_of_nonneg (by omega)] at hcohort ⊢
      omega

omit hf in
theorem far_sum {a b g : ℚ} {m : ℤ} (ha : a = m * g) (hlarge : 2 * g ≤ a) (hb : 0 < b) (hg : b < g)
    (hx : x = (if s then -1 else 1) * a + (if t then -1 else 1) * b) :
    x ≠ 0 ∧ (x < 0 ↔ s = true) ∧ a - g < |x| ∧ ((if s = t then m else m - 1 : ℤ) : ℚ) * g < |x| ∧
        |x| < (((if s = t then m else m - 1 : ℤ) : ℚ) + 1) * g := by
  obtain ⟨y, hy⟩ : ∃ y, y = if s = t then a + b else a - b := ⟨_, rfl⟩
  have hsigned : x = (if s then -1 else 1) * y := by
    rw [hx, hy]
    cases s <;> cases t <;> simp <;> ring
  have hbounds : a - g < y ∧ ((if s = t then m else m - 1 : ℤ) : ℚ) * g < y ∧
      y < (((if s = t then m else m - 1 : ℤ) : ℚ) + 1) * g := by
    rw [hy]
    split_ifs
    · exact ⟨by linarith, by linarith, by linarith⟩
    · push_cast
      exact ⟨by linarith, by linarith, by linarith⟩
  have hpos : 0 < y := by linarith [hbounds.1]
  have habs : |x| = y := by
    rw [hsigned, abs_mul, abs_of_pos hpos]
    cases s <;> simp
  refine ⟨fun h => ?_, ?_, habs ▸ hbounds⟩
  · rw [h, abs_zero] at habs
    linarith
  · rw [hsigned]
    cases s <;> simp <;> linarith

theorem two_mul_zpow_le (q : Int) : 2 * (f.base : ℚ) ^ (q - 1) ≤ (f.base : ℚ) ^ q := by
  have hβ := base_gt hf.base_cases
  calc 2 * (f.base : ℚ) ^ (q - 1) ≤ f.base * (f.base : ℚ) ^ (q - 1) :=
        mul_le_mul_of_nonneg_right (by exact_mod_cast hβ) (zpow_pos_of_base hβ _).le
    _ = (f.base : ℚ) ^ q := by rw [← zpow_one_add₀ (base_ne_zero hβ), add_sub_cancel]

theorem exists_cell (hc : c ≠ 0) (hlt : c' < f.base ^ (2 * f.precision)) (hfar : guardDigits f < q - q') :
    ∃ u m : ℤ, u + f.precision < q ∧ (c : ℚ) * (f.base : ℚ) ^ q = m * (f.base : ℚ) ^ u ∧
      2 * (f.base : ℚ) ^ u ≤ (f.base : ℚ) ^ (q - 1) ∧ (f.base : ℚ) ^ q ≤ c * (f.base : ℚ) ^ q ∧
      (c' : ℚ) * (f.base : ℚ) ^ q' < (f.base : ℚ) ^ u ∧
      ((1 : Nat) : ℚ) * (f.base : ℚ) ^ (q - guardDigits f) < (f.base : ℚ) ^ u := by
  have hβ := base_gt hf.base_cases
  have hβq : (1 : ℚ) < f.base := by exact_mod_cast hβ
  have hbase : (f.base : ℚ) ≠ 0 := base_ne_zero hβ
  have hp := hf.precision_pos
  unfold guardDigits at *
  obtain ⟨m, hm⟩ := exists_multiple (K := ℚ) hβ (show q - f.precision - 8 ≤ q by omega) c
  refine ⟨q - f.precision - 8, m, by omega, hm, ?_, ?_, ?_, ?_⟩
  · have := two_mul_zpow_le hf (q - f.precision - 7)
    rw [sub_sub, show (7 : Int) + 1 = 8 by decide] at this
    exact this.trans (zpow_le_zpow_right₀ hβq.le (by omega))
  · exact le_mul_of_one_le_left (zpow_pos_of_base hβ _).le (by exact_mod_cast Nat.pos_of_ne_zero hc)
  · calc (c' : ℚ) * (f.base : ℚ) ^ q' < (f.base : ℚ) ^ ((2 * f.precision : Nat) : ℤ) * (f.base : ℚ) ^ q' := by
          refine mul_lt_mul_of_pos_right ?_ (zpow_pos_of_base hβ _)
          rw [zpow_natCast]
          exact_mod_cast hlt
      _ = (f.base : ℚ) ^ (((2 * f.precision : Nat) : ℤ) + q') := (zpow_add₀ hbase _ _).symm
      _ ≤ (f.base : ℚ) ^ (q - f.precision - 8) := zpow_le_zpow_right₀ hβq.le (by push_cast; omega)
  · rw [Nat.cast_one, one_mul]
    exact zpow_lt_zpow_right₀ hβq (by omega)

theorem sticky_alike (hc : c ≠ 0) (hc' : c' ≠ 0) (hlt : c' < f.base ^ (2 * f.precision))
    (hfar : guardDigits f < q - q') :
    Alike f (exact f s c q + exact f t 1 (q - guardDigits f)) (exact f s c q + exact f t c' q') := by
  have hβ := base_gt hf.base_cases
  obtain ⟨u, m, hu, hm, hlarge, hle, hb, hb'⟩ := exists_cell hf hc hlt hfar
  have hfirst := two_mul_zpow_le hf q
  have hgrid := zpow_pos_of_base (K := ℚ) hβ u
  have hone : (0 : ℚ) < (1 : Nat) * (f.base : ℚ) ^ (q - guardDigits f) := by
    rw [Nat.cast_one, one_mul]
    exact zpow_pos_of_base hβ _
  have hpos : (0 : ℚ) < c' * (f.base : ℚ) ^ q' :=
    mul_pos (by exact_mod_cast Nat.pos_of_ne_zero hc') (zpow_pos_of_base hβ _)
  obtain ⟨hx, hxsign, hxlow, hxcell⟩ := far_sum (s := s) (t := t)
    (x := exact f s c q + exact f t 1 (q - guardDigits f)) hm (by linarith) hone hb' rfl
  obtain ⟨hz, hzsign, -, hzcell⟩ := far_sum (s := s) (t := t) (x := exact f s c q + exact f t c' q') hm
    (by linarith) hpos hb rfl
  refine .inr ⟨hx, hz, hxsign.trans hzsign.symm, ?_⟩
  refine ((Cell.of_between hgrid hxcell hzcell).roundTo_eq hβ (abs_pos.mpr hx) (abs_pos.mpr hz) (base_even hf) ?_).symm
  have hlog : q - 1 ≤ Int.log f.base |exact f s c q + exact f t 1 (q - guardDigits f)| :=
    (Int.zpow_le_iff_le_log hβ (abs_pos.mpr hx)).mp (le_trans (by linarith) hxlow.le)
  omega

theorem Rounds.of_far {zero : Bool} (hc : c ≠ 0) (hc' : c' ≠ 0) (hlt : c' < f.base ^ (2 * f.precision))
    (hfar : guardDigits f < q - q') (hq : f.minimum ≤ q)
    (h : Rounds f (exact f s c q + exact f t c' q') zero (q - guardDigits f) d) :
    Rounds f (exact f s c q + exact f t c' q') zero q' d := by
  have hβ := base_gt hf.base_cases
  have hβq : (1 : ℚ) < f.base := by exact_mod_cast hβ
  have hp := hf.precision_pos
  obtain ⟨u, m, hu, hm, hlarge, hle, hb, -⟩ := exists_cell hf hc hlt hfar
  have hfirst := two_mul_zpow_le hf q
  have hpos : (0 : ℚ) < c' * (f.base : ℚ) ^ q' :=
    mul_pos (by exact_mod_cast Nat.pos_of_ne_zero hc') (zpow_pos_of_base hβ _)
  have hgrid := zpow_pos_of_base (K := ℚ) hβ u
  obtain ⟨hz, -, hlow, -⟩ := far_sum (s := s) (t := t) (x := exact f s c q + exact f t c' q') hm
    (by linarith) hpos hb rfl
  rw [Rounds, if_neg hz] at h ⊢
  refine h.preferred (by omega) fun k r hk hnear => ?_
  have hnear' := hnear.nearest 1 q (Nat.one_lt_pow (by omega) hβ) hq
  rw [Nat.cast_one, one_mul] at hnear'
  have habove : (f.base : ℚ) ^ (q - 1) ≤ k * (f.base : ℚ) ^ r := by
    have h₁ := le_abs_self (|exact f s c q + exact f t c' q'| - k * (f.base : ℚ) ^ r)
    rcases le_total ((f.base : ℚ) ^ q) |exact f s c q + exact f t c' q'| with hcase | hcase
    · rw [abs_of_nonneg (a := _ - (f.base : ℚ) ^ q) (by linarith)] at hnear'
      linarith
    · rw [abs_of_nonpos (a := _ - (f.base : ℚ) ^ q) (by linarith)] at hnear'
      linarith
  have hdigits : (k : ℚ) * (f.base : ℚ) ^ r < (f.base : ℚ) ^ ((f.precision : ℤ) + r) := by
    rw [zpow_add₀ (base_ne_zero hβ), zpow_natCast]
    exact mul_lt_mul_of_pos_right (by exact_mod_cast hk) (zpow_pos_of_base hβ _)
  have hless := (zpow_lt_zpow_iff_right₀ hβq).mp (habove.trans_lt hdigits)
  unfold guardDigits
  omega

end Sticky

section Fuse

variable {f : Format} (hf : f.Floating) {s t : Bool} {c c' : Nat} {q q' : Int}

include hf

theorem guard_room (hc : c < 2 ^ 256) {k : Nat} (hk : (k : Int) ≤ guardDigits f) :
    c * f.base ^ k < 2 ^ 128 * 2 ^ rangeBits := by
  have hrange := rangeBits_eq
  have hβ := hf.base_cases
  have height : f.base ^ 8 ≤ 2 ^ 32 := by
    rcases hβ with h | h <;> rw [h] <;> decide
  obtain ⟨total, htotal⟩ : ∃ total, total = 256 + (128 * 3 + 32) := ⟨_, rfl⟩
  have hpowers (i j l : Nat) (h : total = i + (j * 3 + l)) : 2 ^ i * ((2 ^ j) ^ 3 * 2 ^ l) = 2 ^ total := by
    rw [← Nat.pow_mul, ← Nat.pow_add, ← Nat.pow_add, h]
  unfold guardDigits at hk
  calc c * f.base ^ k ≤ 2 ^ 256 * f.base ^ (f.precision * 3 + 8) :=
        Nat.mul_le_mul hc.le (Nat.pow_le_pow_right (by omega) (by omega))
    _ = 2 ^ 256 * ((f.base ^ f.precision) ^ 3 * f.base ^ 8) := by rw [Nat.pow_add, Nat.pow_mul]
    _ ≤ 2 ^ 256 * ((2 ^ 128) ^ 3 * 2 ^ 32) :=
        Nat.mul_le_mul_left _ (Nat.mul_le_mul (Nat.pow_le_pow_left hf.digits_le 3) height)
    _ = 2 ^ total := hpowers 256 128 32 htotal
    _ < 2 ^ (128 + rangeBits) := Nat.pow_lt_pow_right (by decide) (by omega)
    _ = 2 ^ 128 * 2 ^ rangeBits := Nat.pow_add ..

theorem pack_term (hc : c ≠ 0) (hlt : c < 2 ^ 256) (hlow : 2 * f.minimum ≤ q) (zero : Bool) :
    ∃ d, pack (small c) (small 1) q s f = some (encode f d) ∧ d.Valid f ∧ Rounds f (exact f s c q) zero q d := by
  have hpos : (0 : ℚ) < c * (f.base : ℚ) ^ q :=
    mul_pos (by exact_mod_cast Nat.pos_of_ne_zero hc) (zpow_pos_of_base (base_gt hf.base_cases) q)
  obtain ⟨hroom, -, -⟩ := aligned_room
  have hmin := hf.minimum_le
  have hmax := hf.maximum_ge
  have hrange := pow_range_le hf (k := (f.minimum - q).toNat) (by omega)
  have hguard : c < 2 ^ 128 * 2 ^ rangeBits := by
    simpa using guard_room hf hlt (k := 0) (by unfold guardDigits; omega)
  have hpow := Nat.two_pow_pos rangeBits
  have hpacked : ∃ d, pack (small c) (small 1) q s f = some (encode f d) ∧ d.Valid f ∧
      Rounds f (exact f s c q) s q d := by
    refine pack_rounds hf (by decide) ?_ (fun _ => ?_) fun _ => ⟨by omega, by omega⟩
    · rw [abs_exact hf, Nat.cast_one, div_one]
    · unfold exact
      cases s <;> simp <;> linarith
  obtain ⟨d, hpack, hvalid, hrounds⟩ := hpacked
  exact ⟨d, hpack, hvalid, hrounds.of_ne_zero fun h => hc ((exact_zero hf s q).mp h)⟩

theorem fuse_eq (hc : c < f.base ^ (2 * f.precision)) (hlow : 2 * f.minimum ≤ q) (hz : (Datum.finite t c' q').Read f) :
    ∃ d, fuse (Datum.finite s c q).number (Datum.finite t c' q').number f = some (encode f d) ∧ d.Valid f ∧
      Rounds f (exact f s c q + exact f t c' q') (s && t) (fmaPreferred c c' q q') d := by
  obtain ⟨hc', hlow', hhigh'⟩ := hz
  have hp := hf.precision_pos
  have hmin := hf.minimum_le
  have hβ := base_gt hf.base_cases
  have hwide : c < 2 ^ 256 := hc.trans_le (by
    rw [Nat.mul_comm, Nat.pow_mul]
    exact (Nat.pow_le_pow_left hf.digits_le 2).trans (by decide))
  have hwide' : c' < 2 ^ 256 := (hc'.trans_le hf.digits_le).trans (by decide)
  unfold fuse Datum.number
  simp only [small_eq_nil]
  by_cases h0 : c = 0
  · have hzero : exact f s c q = 0 := (exact_zero hf s q).mpr h0
    rw [hzero, zero_add]
    by_cases h0' : c' = 0
    · have hsign : (if s ≠ t then false else s) = (s && t) := by cases s <;> cases t <;> rfl
      have hexponent : (if q' < q then q' else q) = min q q' := by split_ifs <;> omega
      have hpreferred : fmaPreferred c c' q q' = min q q' := by simp [fmaPreferred, h0, h0']
      rw [if_pos ⟨h0, h0'⟩, hsign, hexponent, hpreferred, h0]
      refine ⟨_, pack_zero hf _ _ _, zero_valid hf _ _, ?_⟩
      rw [Rounds, if_pos ((exact_zero hf t q').mpr h0')]
    · have hpreferred : fmaPreferred c c' q q' = q' := by simp [fmaPreferred, h0, h0']
      rw [if_neg fun h => h0' h.2, if_pos h0, hpreferred]
      exact pack_term hf h0' hwide' (by omega) _
  rw [if_neg fun h => h0 h.1, if_neg h0]
  by_cases h0' : c' = 0
  · have hpreferred : fmaPreferred c c' q q' = q := by simp [fmaPreferred, h0, h0']
    rw [if_pos h0', hpreferred, (exact_zero hf t q').mpr h0', add_zero]
    exact pack_term hf h0 hwide hlow _
  have hpreferred : fmaPreferred c c' q q' = min q q' := by simp [fmaPreferred, h0, h0']
  rw [if_neg h0', hpreferred]
  have hguard : 0 ≤ guardDigits f := by unfold guardDigits; omega
  have hdigits : f.base ^ f.precision ≤ f.base ^ (2 * f.precision) :=
    Nat.pow_le_pow_right (by omega) (by omega)
  have hone : (1 : Nat) < 2 ^ 256 := by decide
  unfold sticky
  dsimp only
  by_cases hfar : guardDigits f < q - q'
  · rw [if_pos hfar]
    obtain ⟨d, hpack, hvalid, hrounds⟩ := packSum_alike hf (s := s) (t := t)
      (guard_room hf hwide (k := (q - min q (q - guardDigits f)).toNat) (by omega))
      (guard_room hf hone (k := (q - guardDigits f - min q (q - guardDigits f)).toNat) (by omega)) (by omega)
    have hresult := hrounds _ (sticky_alike hf h0 h0' (hc'.trans_le hdigits) hfar)
    rw [min_eq_right (by omega)] at hresult
    rw [min_eq_right (by omega)]
    exact ⟨d, hpack, hvalid, hresult.of_far hf h0 h0' (hc'.trans_le hdigits) hfar (by omega)⟩
  rw [if_neg hfar]
  by_cases hfar' : guardDigits f < q' - q
  · rw [if_pos hfar']
    obtain ⟨d, hpack, hvalid, hrounds⟩ := packSum_alike hf (s := s) (t := t)
      (guard_room hf hone (k := (q' - guardDigits f - min (q' - guardDigits f) q').toNat) (by omega))
      (guard_room hf hwide' (k := (q' - min (q' - guardDigits f) q').toNat) (by omega)) (by omega)
    rw [add_comm] at hrounds
    have hresult := hrounds _ (sticky_alike hf h0' h0 hc hfar')
    rw [min_eq_left (by omega)] at hresult
    rw [min_eq_left (by omega), add_comm]
    exact ⟨d, hpack, hvalid, hresult.of_far hf h0' h0 hc hfar' hlow'⟩
  · rw [if_neg hfar']
    obtain ⟨d, hpack, hvalid, hrounds⟩ := packSum_alike hf (s := s) (t := t)
      (guard_room hf hwide (k := (q - min q q').toNat) (by omega))
      (guard_room hf hwide' (k := (q' - min q q').toNat) (by omega)) (by omega)
    exact ⟨d, hpack, hvalid, hrounds _ (.inl rfl)⟩

end Fuse

/-! ## Every operand -/

section Operands

variable {f : Format} (hf : f.Floating)

include hf

variable {a b z d : Datum}

theorem applyFma_of {kind : Special} (h : fmaExceptional a.number b.number z.number = (kind, negative))
    (hd : kind = .nan ∧ d = .nan negative ∨ kind = .infinity ∧ d = .infinity negative) :
    applyFma f a.number b.number z.number = some (encode f d) := by
  unfold applyFma
  rw [h]
  rcases hd with ⟨rfl, rfl⟩ | ⟨rfl, rfl⟩
  · simp [special_nan hf]
  · simp [special_infinity hf]

omit hf in
theorem special_ne_nan (h : ¬IsNan d) : d.number.special ≠ .nan := by
  cases d with
  | nan s => exact absurd ⟨s, rfl⟩ h
  | infinity s | finite s c q => exact Special.noConfusion

theorem applyFma_infinite (a b : Datum) (negative : Bool) (hz : ¬IsNan z)
    (h : ∀ last : Number, last.special ≠ .nan → fmaExceptional a.number b.number last =
      (if last.special ≠ .finite ∧ last.negative ≠ negative then .nan else .infinity, negative)) :
    ∃ d, applyFma f a.number b.number z.number = some (encode f d) ∧ d.Valid f ∧ InfiniteResult negative z d := by
  have hexcept := h z.number (special_ne_nan hz)
  cases z with
  | nan v => exact absurd ⟨v, rfl⟩ hz
  | finite v m r => exact ⟨.infinity negative, applyFma_of hf hexcept (.inr ⟨rfl, rfl⟩), trivial, rfl⟩
  | infinity v =>
    by_cases hv : v = negative
    · refine ⟨.infinity negative, applyFma_of hf hexcept (.inr ⟨?_, rfl⟩), trivial, ?_⟩
      · simp [Datum.number, hv]
      · simp [InfiniteResult, hv]
    · refine ⟨.nan negative, applyFma_of hf hexcept (.inl ⟨?_, rfl⟩), trivial, ?_⟩
      · simp [Datum.number, hv]
      · simp [InfiniteResult, hv, IsNan]

theorem applyFma_factor (a b : Datum) (negative : Bool) (c : Nat) (hz : ¬IsNan z)
    (h : ∀ last : Number, last.special ≠ .nan → fmaExceptional a.number b.number last =
      (if c = 0 then .nan else if last.special ≠ .finite ∧ last.negative ≠ negative then .nan
        else .infinity, negative)) : ∃ d, applyFma f a.number b.number z.number = some (encode f d) ∧ d.Valid f ∧
      if c = 0 then IsNan d else InfiniteResult negative z d := by
  by_cases hc : c = 0
  · refine ⟨.nan negative, applyFma_of hf (h _ (special_ne_nan hz)) (.inl ⟨if_pos hc, rfl⟩), trivial, ?_⟩
    rw [if_pos hc]
    exact ⟨_, rfl⟩
  · simp only [if_neg hc] at h ⊢
    exact applyFma_infinite hf a b negative hz h

theorem exact_mul (s t : Bool) (c c' : Nat) (q q' : Int) :
    exact f s c q * exact f t c' q' = exact f (s ^^ t) (c * c') (q + q') := by
  unfold exact
  rw [zpow_add₀ (base_ne_zero (base_gt hf.base_cases))]
  push_cast
  cases s <;> cases t <;> simp <;> ring

theorem applyFma_finite {s t v : Bool} {c c' m : Nat} {q q' r : Int} (ha : (Datum.finite s c q).Read f)
    (hb : (Datum.finite t c' q').Read f) (hz : (Datum.finite v m r).Read f) :
    ∃ d, applyFma f (Datum.finite s c q).number (Datum.finite t c' q').number (Datum.finite v m r).number =
        some (encode f d) ∧ d.Valid f ∧ FmaResult f (.finite s c q) (.finite t c' q') (.finite v m r) d := by
  obtain ⟨hc, hlow, -⟩ := ha
  obtain ⟨hc', hlow', -⟩ := hb
  have hlimbs := LIMBS_eq
  have hlen := small_length_le hf hc
  have hlen' := small_length_le hf hc'
  have hproduct : c * c' < f.base ^ (2 * f.precision) := by
    rw [Nat.two_mul, Nat.pow_add]
    exact Nat.mul_lt_mul'' hc hc'
  obtain ⟨d, hfuse, hvalid, hrounds⟩ := fuse_eq hf (s := s ^^ t) (q := q + q') hproduct (by omega) hz
  refine ⟨d, ?_, hvalid, ?_⟩
  · have hexcept : fmaExceptional (Datum.finite s c q).number (Datum.finite t c' q').number
        (Datum.finite v m r).number = (.finite, s ^^ t) := by simp [fmaExceptional, Datum.number]
    unfold applyFma
    rw [hexcept, if_neg (fun h => h rfl)]
    show (multiply (small c) (small c') >>= _) = _
    rw [multiply_eq (by omega)]
    exact hfuse
  · rw [FmaResult, exact_mul hf]
    exact hrounds

theorem applyFma_eq (ha : a.Read f) (hb : b.Read f) (hz : z.Read f) :
    ∃ d, applyFma f a.number b.number z.number = some (encode f d) ∧ d.Valid f ∧ FmaResult f a b z d := by
  by_cases hnan : IsNan a ∨ IsNan b ∨ IsNan z
  · have hkind : fmaExceptional a.number b.number z.number = (.nan, a.number.negative ^^ b.number.negative) := by
      refine if_pos ?_
      rcases hnan with ⟨s, rfl⟩ | ⟨s, rfl⟩ | ⟨s, rfl⟩
      · exact .inl rfl
      · exact .inr (.inl rfl)
      · exact .inr (.inr rfl)
    refine ⟨_, applyFma_of hf hkind (.inl ⟨rfl, rfl⟩), trivial, ?_⟩
    rcases hnan with ⟨s, rfl⟩ | ⟨s, rfl⟩ | ⟨s, rfl⟩
    · exact ⟨_, rfl⟩
    · cases a <;> exact ⟨_, rfl⟩
    · cases a <;> cases b <;> exact ⟨_, rfl⟩
  obtain ⟨hanan, hbnan, hznan⟩ : ¬IsNan a ∧ ¬IsNan b ∧ ¬IsNan z := by simpa only [not_or] using hnan
  cases a with
  | nan s => exact absurd ⟨s, rfl⟩ hanan
  | infinity s =>
    cases b with
    | nan t => exact absurd ⟨t, rfl⟩ hbnan
    | infinity t =>
      obtain ⟨d, happly, hvalid, hresult⟩ := applyFma_infinite hf (.infinity s) (.infinity t) (s ^^ t) hznan
        fun last hlast => by
          simp [fmaExceptional, Datum.number, hlast]
          congr
      exact ⟨d, happly, hvalid, by cases z <;> first | exact absurd ⟨_, rfl⟩ hznan | exact hresult⟩
    | finite t c q =>
      obtain ⟨d, happly, hvalid, hresult⟩ := applyFma_factor hf (.infinity s) (.finite t c q) (s ^^ t) c hznan
        fun last hlast => by
          simp [fmaExceptional, Datum.number, hlast, small_eq_nil]
          congr
      exact ⟨d, happly, hvalid, by cases z <;> first | exact absurd ⟨_, rfl⟩ hznan | exact hresult⟩
  | finite s c q =>
    cases b with
    | nan t => exact absurd ⟨t, rfl⟩ hbnan
    | infinity t =>
      obtain ⟨d, happly, hvalid, hresult⟩ := applyFma_factor hf (.finite s c q) (.infinity t) (s ^^ t) c hznan
        fun last hlast => by
          simp [fmaExceptional, Datum.number, hlast, small_eq_nil]
          congr
      exact ⟨d, happly, hvalid, by cases z <;> first | exact absurd ⟨_, rfl⟩ hznan | exact hresult⟩
    | finite t c' q' =>
      cases z with
      | nan v => exact absurd ⟨v, rfl⟩ hznan
      | infinity v => 
        exact ⟨.infinity v, applyFma_of hf (by simp [fmaExceptional, Datum.number]) (.inr ⟨rfl, rfl⟩), trivial, rfl⟩
      | finite v m r => exact applyFma_finite hf ha hb hz

end Operands

/-- The operation gives the encoding of the exact result, rounded once; a term that lies beyond the guard
digits decides no more than its sticky digit, on either side and for either sign. -/
theorem fma_rounds_once {kind : Nat} (hkind : kind < 7) :
    (∀ left right addend : List UInt8, ∃ d, tzSoftFma left right addend kind =
        some (store (encode (format kind) d) (format kind).width) ∧ d.Valid (format kind) ∧
      FmaResult (format kind) (datum kind left) (datum kind right) (datum kind addend) d) ∧
    ∀ (s t : Bool) (c c' : Nat) (q q' : Int), c ≠ 0 → c' ≠ 0 →
      c' < (format kind).base ^ (2 * (format kind).precision) → guardDigits (format kind) < q - q' →
      Alike (format kind) (exact (format kind) s c q + exact (format kind) t 1 (q - guardDigits (format kind)))
        (exact (format kind) s c q + exact (format kind) t c' q') := by
  have hf := format_floating hkind
  refine ⟨fun left right addend => ?_, fun s t c c' q q' hc hc' hlt hfar => sticky_alike hf hc hc' hlt hfar⟩
  unfold tzSoftFma
  simp only [decode_eq hf, Option.bind_eq_bind, Option.bind_some]
  obtain ⟨d, happly, hvalid, hresult⟩ := applyFma_eq hf (read_ok hf (load left (format kind).width))
    (read_ok hf (load right (format kind).width)) (read_ok hf (load addend (format kind).width))
  exact ⟨d, by rw [happly]; rfl, hvalid, hresult⟩

theorem fma_rounds_once_decimal : (∃ d, tzSoftFma [10, 0, 128, 50] [1, 0, 0, 51] [1, 0, 0, 51] 4 =
        some (store (encode (format 4) d) (format 4).width) ∧ d.Valid (format 4) ∧
      FmaResult (format 4) (datum 4 [10, 0, 128, 50]) (datum 4 [1, 0, 0, 51]) (datum 4 [1, 0, 0, 51]) d) ∧
    Alike (format 4) (exact (format 4) false 5 90 + exact (format 4) true 1 (90 - guardDigits (format 4)))
      (exact (format 4) false 5 90 + exact (format 4) true 1 (-90)) := by
  obtain ⟨hall, hsticky⟩ := fma_rounds_once (show 4 < 7 by decide)
  exact ⟨hall _ _ _, hsticky _ _ _ _ _ _ (by decide) (by decide) (by decide) (by decide)⟩

end Tsuzuri.Soft
