import Tsuzuri.SoftPack

/-!
# The soft operations are rounded once

Every operation and conversion gives the encoding of its exact result, rounded to nearest, and traps on no operands:
the numbers on the way fit the array.
-/

namespace Tsuzuri.Soft

open Rounding

def exact (f : Format) (negative : Bool) (c : Nat) (q : Int) : ℚ :=
  (if negative then -1 else 1) * (c * (f.base : ℚ) ^ q)

/-- A result whose exact value is `x`: `x` rounded, or a zero of the sign. -/
def Rounds (f : Format) (x : ℚ) (zero : Bool) (preferred : Int) (d : Datum) : Prop :=
  if x = 0 then d = .finite zero 0 (zeroExponent f preferred)
  else Rounded f (decide (x < 0)) preferred |x| d

def IsNan (d : Datum) : Prop := ∃ negative, d = .nan negative

def AddResult (f : Format) : Datum → Datum → Datum → Prop
  | .nan _, _, d => IsNan d
  | _, .nan _, d => IsNan d
  | .infinity s, .infinity t, d => if s = t then d = .infinity s else IsNan d
  | .infinity s, .finite .., d => d = .infinity s
  | .finite .., .infinity t, d => d = .infinity t
  | .finite s c q, .finite t c' q', d =>
    Rounds f (exact f s c q + exact f t c' q') (s && t) (min q q') d

def MulResult (f : Format) : Datum → Datum → Datum → Prop
  | .nan _, _, d => IsNan d
  | _, .nan _, d => IsNan d
  | .infinity s, .infinity t, d => d = .infinity (s ^^ t)
  | .infinity s, .finite t c _, d => if c = 0 then IsNan d else d = .infinity (s ^^ t)
  | .finite s c _, .infinity t, d => if c = 0 then IsNan d else d = .infinity (s ^^ t)
  | .finite s c q, .finite t c' q', d =>
    Rounds f (exact f s c q * exact f t c' q') (s ^^ t) (q + q') d

def DivResult (f : Format) : Datum → Datum → Datum → Prop
  | .nan _, _, d => IsNan d
  | _, .nan _, d => IsNan d
  | .infinity _, .infinity _, d => IsNan d
  | .infinity s, .finite t _ _, d => d = .infinity (s ^^ t)
  | .finite s _ q, .infinity t, d => d = .finite (s ^^ t) 0 (zeroExponent f q)
  | .finite s c q, .finite t c' q', d =>
    if c' = 0 then (if c = 0 then IsNan d else d = .infinity (s ^^ t))
    else Rounds f (exact f s c q / exact f t c' q') (s ^^ t) (q - q') d

def Datum.opposite : Datum → Datum
  | .nan s => .nan (!s)
  | .infinity s => .infinity (!s)
  | .finite s c q => .finite (!s) c q

def OpResult (f : Format) (op : Op) (a b d : Datum) : Prop :=
  match op with
  | .add => AddResult f a b d
  | .sub => AddResult f a b.opposite d
  | .mul => MulResult f a b d
  | .div => DivResult f a b d

def Alike (f : Format) (x z : ℚ) : Prop :=
  z = x ∨ x ≠ 0 ∧ z ≠ 0 ∧ (x < 0 ↔ z < 0) ∧
    roundTo f.base f.precision f.minimum |z| = roundTo f.base f.precision f.minimum |x|

variable {f : Format} {x z : ℚ}

theorem Alike.eq_zero (h : Alike f x z) (hx : x = 0) : z = 0 :=
  h.elim (fun heq => heq.trans hx) fun h => absurd hx h.1

theorem Alike.of_ne_zero (h : Alike f x z) (hx : x ≠ 0) : z ≠ 0 ∧ (x < 0 ↔ z < 0) ∧
      roundTo f.base f.precision f.minimum |z| = roundTo f.base f.precision f.minimum |x| := by
  rcases h with rfl | h
  · exact ⟨hx, Iff.rfl, rfl⟩
  · exact h.2

/-! ## Packing an exact result -/

@[irreducible] def rangeBits : Nat := 40963

section Pack

variable {f : Format} (hf : f.Floating)

include hf

variable {c k c' : Nat} {x : ℚ} {q e q' : Int} {s t : Bool}

theorem exact_zero (s : Bool) (q : Int) : exact f s c q = 0 ↔ c = 0 := by
  have hpos := zpow_pos_of_base (K := ℚ) (base_gt hf.base_cases) q
  unfold exact
  rw [mul_eq_zero, mul_eq_zero, Nat.cast_eq_zero]
  refine ⟨?_, fun h => .inr (.inl h)⟩
  rintro (h | h | h)
  · cases s <;> simp at h
  · exact h
  · exact absurd h hpos.ne'

theorem abs_exact (s : Bool) (c : Nat) (q : Int) : |exact f s c q| = c * (f.base : ℚ) ^ q := by
  have hpos := zpow_pos_of_base (K := ℚ) (base_gt hf.base_cases) q
  unfold exact
  rw [abs_mul, abs_of_nonneg (mul_nonneg c.cast_nonneg hpos.le)]
  cases s <;> simp

variable {n d : Nat} {exponent : Int} {negative : Bool}

theorem pack_alike (hd : d ≠ 0) (hx : |x| = (n : ℚ) / d * (f.base : ℚ) ^ exponent)
    (hsign : n ≠ 0 → negative = decide (x < 0))
    (h : n ≠ 0 → n * d < 2 ^ roomBits ∧ d * f.base ^ (f.minimum - exponent).toNat < 2 ^ roomBits) :
    ∃ datum, pack (small n) (small d) exponent negative f = some (encode f datum) ∧ datum.Valid f ∧
      ∀ z, Alike f x z → Rounds f z negative exponent datum := by
  have hpos := zpow_pos_of_base (K := ℚ) (base_gt hf.base_cases) exponent
  have hd' : (d : ℚ) ≠ 0 := by exact_mod_cast hd
  by_cases hn : n = 0
  · subst hn
    have hzero : x = 0 := by
      rw [← abs_eq_zero, hx, Nat.cast_zero, zero_div, zero_mul]
    refine ⟨_, pack_zero hf _ _ _, zero_valid hf _ _, fun z hz => ?_⟩
    rw [Rounds, if_pos (hz.eq_zero hzero)]
  · have hne : x ≠ 0 := by
      rw [← abs_ne_zero, hx]
      have : (n : ℚ) ≠ 0 := by exact_mod_cast hn
      exact mul_ne_zero (div_ne_zero this hd') hpos.ne'
    obtain ⟨datum, hpack, hrounded⟩ := pack_eq hf hn hd (h hn).1 (h hn).2 negative
    refine ⟨datum, hpack, (hrounded |x| ⟨abs_pos.mpr hne, by rw [hx]⟩).valid, fun z hz => ?_⟩
    obtain ⟨hz0, hzsign, hround⟩ := hz.of_ne_zero hne
    rw [Rounds, if_neg hz0, ← decide_eq_decide.mpr hzsign, ← hsign hn]
    exact hrounded |z| ⟨abs_pos.mpr hz0, by rw [hround, hx]⟩

theorem pack_rounds (hd : d ≠ 0) (hx : |x| = (n : ℚ) / d * (f.base : ℚ) ^ exponent)
    (hsign : n ≠ 0 → negative = decide (x < 0))
    (h : n ≠ 0 → n * d < 2 ^ roomBits ∧ d * f.base ^ (f.minimum - exponent).toNat < 2 ^ roomBits) :
    ∃ datum, pack (small n) (small d) exponent negative f = some (encode f datum) ∧ datum.Valid f ∧
      Rounds f x negative exponent datum := by
  obtain ⟨datum, hpack, hvalid, hrounds⟩ := pack_alike hf hd hx hsign h
  exact ⟨datum, hpack, hvalid, hrounds x (.inl rfl)⟩

omit hf in
theorem rangeBits_eq : rangeBits = 40963 := by rw [rangeBits]

theorem pow_range_le (hk : (k : Int) ≤ f.maximum - f.minimum) : f.base ^ k ≤ 2 ^ rangeBits := by
  have hrange := rangeBits_eq
  rcases hf.base_cases with hb | hb
  · have hmin := hf.minimum_ge
    have hmax := hf.maximum_le
    rw [hb]
    exact Nat.pow_le_pow_right (by decide) (by omega)
  · have hrange := hf.decimal_range hb
    rw [hb]
    exact (ten_pow_le k).trans (Nat.pow_le_pow_right (by decide) (by omega))

theorem aligned_lt (hc : c < f.base ^ f.precision) (hk : c ≠ 0 → (k : Int) ≤ f.maximum - f.minimum) :
    c * f.base ^ k < 2 ^ 128 * 2 ^ rangeBits := by
  rcases Nat.eq_zero_or_pos c with rfl | hpos
  · rw [Nat.zero_mul]
    exact Nat.mul_pos (Nat.two_pow_pos _) (Nat.two_pow_pos _)
  · have hlt : c < 2 ^ 128 := hc.trans_le hf.digits_le
    exact Nat.mul_lt_mul_of_lt_of_le hlt (pow_range_le hf (hk (by omega))) (Nat.two_pow_pos _)

omit hf in
theorem aligned_room : 2 ^ 128 * 2 ^ rangeBits * 2 ≤ 2 ^ roomBits ∧
    2 ^ roomBits ≤ (2 ^ 32) ^ (LIMBS - 2) ∧ 1 < 2 ^ roomBits := by
  have hlimbs := LIMBS_eq
  have hroom := roomBits_eq
  have hrange := rangeBits_eq
  refine ⟨?_, ?_, Nat.one_lt_two_pow (by omega)⟩
  · rw [← Nat.pow_add, ← Nat.pow_succ]
    exact Nat.pow_le_pow_right (by decide) (by omega)
  · rw [← Nat.pow_mul]
    exact Nat.pow_le_pow_right (by decide) (by omega)

omit hf in
theorem limbs_le : (2 ^ 32) ^ (LIMBS - 2) ≤ (2 ^ 32) ^ (LIMBS - 1) ∧ (2 ^ 32) ^ (LIMBS - 1) ≤ (2 ^ 32) ^ LIMBS :=
  ⟨Nat.pow_le_pow_right (by decide) (by omega), Nat.pow_le_pow_right (by decide) (by omega)⟩

omit hf in
theorem Rounds.of_ne_zero {zero zero' : Bool} {preferred : Int} {d : Datum} (hx : x ≠ 0)
    (h : Rounds f x zero preferred d) : Rounds f x zero' preferred d := by
  rw [Rounds, if_neg hx] at h ⊢
  exact h

theorem exact_aligned (s : Bool) (c : Nat) (h : e ≤ q) :
    exact f s c q = (if s then -1 else 1) * ((c * f.base ^ (q - e).toNat : Nat) : ℚ) * (f.base : ℚ) ^ e := by
  have hbase : (f.base : ℚ) ≠ 0 := base_ne_zero (base_gt hf.base_cases)
  have hsplit : (f.base : ℚ) ^ q = (f.base : ℚ) ^ (q - e).toNat * (f.base : ℚ) ^ e := by
    rw [← zpow_natCast, ← zpow_add₀ hbase]
    congr 1
    omega
  rw [exact, hsplit]
  push_cast
  ring

theorem sum_cases {A B : Nat} (s t : Bool) (e : Int) (hx : x = (if s then -1 else 1) * (A : ℚ) * (f.base : ℚ) ^ e +
      (if t then -1 else 1) * (B : ℚ) * (f.base : ℚ) ^ e) (n : Nat) (negative : Bool)
    (hn : if s = t then n = A + B ∧ negative = s
      else if A < B then n = B - A ∧ negative = t else n = A - B ∧ negative = s) :
    |x| = (n : ℚ) / (1 : Nat) * (f.base : ℚ) ^ e ∧ (n ≠ 0 → negative = decide (x < 0)) := by
  have hpos := zpow_pos_of_base (K := ℚ) (base_gt hf.base_cases) e
  obtain ⟨y, hy, hsign⟩ : ∃ y : ℤ, x = y * (f.base : ℚ) ^ e ∧ (y.natAbs = n ∧ (n ≠ 0 → negative = decide (y < 0))) := by
    refine ⟨(if s then -1 else 1) * A + (if t then -1 else 1) * B, ?_, ?_⟩
    · rw [hx]
      cases s <;> cases t <;> push_cast <;> ring
    · cases s <;> cases t <;> simp only [Bool.false_eq_true, if_false, if_true, reduceCtorEq] at hn ⊢
      · exact ⟨by omega, fun _ => by rw [hn.2]; simp; omega⟩
      · split at hn
        · exact ⟨by omega, fun _ => by rw [hn.2]; simp; omega⟩
        · exact ⟨by omega, fun _ => by rw [hn.2]; simp; omega⟩
      · split at hn
        · exact ⟨by omega, fun _ => by rw [hn.2]; simp; omega⟩
        · exact ⟨by omega, fun _ => by rw [hn.2]; simp; omega⟩
      · exact ⟨by omega, fun _ => by rw [hn.2]; simp; omega⟩
  constructor
  · rw [hy, abs_mul, abs_of_pos hpos, Nat.cast_one, div_one, ← hsign.1, Nat.cast_natAbs, Int.cast_abs]
  · intro hne
    rw [hsign.2 hne, hy, decide_eq_decide, mul_neg_iff]
    constructor
    · intro h
      exact .inr ⟨by exact_mod_cast h, hpos⟩
    · rintro (h | h)
      · exact absurd h.2 (not_lt.mpr hpos.le)
      · exact_mod_cast h.1

theorem power_aligned (ha : (Datum.finite s c q).Read f) (he : f.minimum ≤ e) :
    c * f.base ^ (q - e).toNat < 2 ^ 128 * 2 ^ rangeBits ∧
      power (small c) f.base (q - e).toNat = some (small (c * f.base ^ (q - e).toNat)) := by
  obtain ⟨hc, hlow, hhigh⟩ := ha
  obtain ⟨hroom, harray, -⟩ := aligned_room
  have hless := limbs_le.1
  have hA := aligned_lt hf (k := (q - e).toNat) hc fun h => by have := hhigh h; omega
  exact ⟨hA, power_eq hf.base_cases (by omega)⟩

theorem packSum_alike (hA : c * f.base ^ (q - min q q').toNat < 2 ^ 128 * 2 ^ rangeBits)
    (hB : c' * f.base ^ (q' - min q q').toNat < 2 ^ 128 * 2 ^ rangeBits) (hlow : 2 * f.minimum ≤ min q q') :
    ∃ d, packSum (Datum.finite s c q).number (Datum.finite t c' q').number s f = some (encode f d) ∧
      d.Valid f ∧ ∀ z, Alike f (exact f s c q + exact f t c' q') z → Rounds f z (s && t) (min q q') d := by
  obtain ⟨hroom, harray, hone⟩ := aligned_room
  obtain ⟨hless, hless'⟩ := limbs_le
  obtain ⟨e, he⟩ : ∃ e, e = if q < q' then q else q' := ⟨_, rfl⟩
  have hmin : e = min q q' := by
    rw [he]
    split_ifs <;> omega
  rw [← hmin] at hA hB hlow
  have hpower : power (small c) f.base (q - e).toNat = some (small (c * f.base ^ (q - e).toNat)) :=
    power_eq hf.base_cases (by omega)
  have hpower' : power (small c') f.base (q' - e).toNat = some (small (c' * f.base ^ (q' - e).toNat)) :=
    power_eq hf.base_cases (by omega)
  have hxA := exact_aligned hf s c (show e ≤ q by omega)
  have hxB := exact_aligned hf t c' (show e ≤ q' by omega)
  have hrange := Nat.two_pow_pos rangeBits
  have hexact := pow_range_le hf (k := (f.minimum - e).toNat) (by
    have := hf.minimum_le
    have := hf.maximum_ge
    omega)
  unfold packSum Datum.number
  simp only
  rw [← he]
  rw [hpower, hpower', ← hmin]
  simp only [Option.bind_eq_bind, Option.bind_some]
  generalize c * f.base ^ (q - e).toNat = A at *
  generalize c' * f.base ^ (q' - e).toNat = B at *
  have hx : exact f s c q + exact f t c' q' = (if s then -1 else 1) * (A : ℚ) * (f.base : ℚ) ^ e +
      (if t then -1 else 1) * (B : ℚ) * (f.base : ℚ) ^ e := by rw [hxA, hxB]
  generalize exact f s c q + exact f t c' q' = x at *
  by_cases hst : s = t
  · subst hst
    rw [if_pos rfl, add_eq (by omega)]
    obtain ⟨habs, hsign⟩ := sum_cases hf s s e hx (A + B) s (by rw [if_pos rfl]; simp)
    rw [Bool.and_self]
    exact pack_alike hf (by decide) habs hsign fun _ => by omega
  · rw [if_neg hst]
    simp only [compare_small, order_neg, decide_eq_true_eq]
    have hzero : (s && t) = false := by cases s <;> cases t <;> simp_all
    have hfinish : ∀ (n : Nat) (negative : Bool), n < 2 ^ roomBits → (if s = t then n = A + B ∧ negative = s
          else if A < B then n = B - A ∧ negative = t else n = A - B ∧ negative = s) →
        ∃ d, pack (small n) (small 1) e (if small n = [] then false else negative) f = some (encode f d) ∧
          d.Valid f ∧ ∀ z, Alike f x z → Rounds f z (s && t) e d := by
      intro n negative hn hcase
      obtain ⟨habs, hsign⟩ := sum_cases hf s t e hx n negative hcase
      have hroom' : n ≠ 0 → n * 1 < 2 ^ roomBits ∧
          1 * f.base ^ (f.minimum - e).toNat < 2 ^ roomBits := fun _ => ⟨by omega, by omega⟩
      by_cases hn0 : n = 0
      · subst hn0
        rw [if_pos small_zero, hzero]
        exact pack_alike hf (by decide) habs (fun h => absurd rfl h) hroom'
      · rw [if_neg fun h => hn0 (small_eq_nil.mp h)]
        obtain ⟨d, hpack, hvalid, hrounds⟩ := pack_alike hf (by decide) habs hsign hroom'
        refine ⟨d, hpack, hvalid, fun z hz => (hrounds z hz).of_ne_zero (hz.of_ne_zero ?_).1⟩
        intro hx0
        have hpos := zpow_pos_of_base (K := ℚ) (base_gt hf.base_cases) e
        rw [hx0, abs_zero, Nat.cast_one, div_one] at habs
        exact mul_ne_zero (by exact_mod_cast hn0) hpos.ne' habs.symm
    by_cases hlt : A < B
    · rw [if_pos hlt, if_pos hlt, subtract_eq hlt.le]
      exact hfinish _ _ (by omega) (by rw [if_neg hst, if_pos hlt]; exact ⟨rfl, rfl⟩)
    · rw [if_neg hlt, if_neg hlt, subtract_eq (Nat.not_lt.mp hlt)]
      exact hfinish _ _ (by omega) (by rw [if_neg hst, if_neg hlt]; exact ⟨rfl, rfl⟩)

theorem packSum_eq (ha : (Datum.finite s c q).Read f) (hb : (Datum.finite t c' q').Read f) :
    ∃ d, packSum (Datum.finite s c q).number (Datum.finite t c' q').number s f = some (encode f d) ∧
      d.Valid f ∧ Rounds f (exact f s c q + exact f t c' q') (s && t) (min q q') d := by
  obtain ⟨hc, hlow, hhigh⟩ := ha
  obtain ⟨hc', hlow', hhigh'⟩ := hb
  have hmin := hf.minimum_le
  have hA : c * f.base ^ (q - min q q').toNat < 2 ^ 128 * 2 ^ rangeBits :=
    aligned_lt hf hc fun h => by have := hhigh h; omega
  have hB : c' * f.base ^ (q' - min q q').toNat < 2 ^ 128 * 2 ^ rangeBits :=
    aligned_lt hf hc' fun h => by have := hhigh' h; omega
  obtain ⟨d, hpack, hvalid, hrounds⟩ := packSum_alike hf (s := s) (t := t) hA hB (by omega)
  exact ⟨d, hpack, hvalid, hrounds _ (.inl rfl)⟩

omit hf in
theorem sign_mul (s t : Bool) {y : ℚ} (hx : 0 < x) (hy : 0 < y) :
    (s ^^ t) = decide ((if s then -1 else 1) * x * ((if t then -1 else 1) * y) < 0) := by
  have hxy := mul_pos hx hy
  cases s <;> cases t <;> simp <;> linarith

theorem small_length_le (hc : c < f.base ^ f.precision) : (small c).length ≤ 4 :=
  length_small_le.mpr (by simpa using hc.trans_le hf.digits_le)

omit hf in
theorem mul_room (hc : c < 2 ^ 128) (hc' : c' < 2 ^ 128) : c * c' < 2 ^ roomBits := by
  have hroom := roomBits_eq
  calc c * c' ≤ 2 ^ 128 * 2 ^ 128 := Nat.mul_le_mul hc.le hc'.le
    _ = 2 ^ 256 := (Nat.pow_add ..).symm
    _ < 2 ^ roomBits := Nat.pow_lt_pow_right (by decide) (by omega)

theorem packMul_eq (ha : (Datum.finite s c q).Read f) (hb : (Datum.finite t c' q').Read f) :
    ∃ d, (multiply (small c) (small c') >>= fun numerator =>
        pack numerator (small 1) (q + q') (s ^^ t) f) = some (encode f d) ∧
      d.Valid f ∧ Rounds f (exact f s c q * exact f t c' q') (s ^^ t) (q + q') d := by
  obtain ⟨hc, hlow, _⟩ := ha
  obtain ⟨hc', hlow', _⟩ := hb
  have hlimbs := LIMBS_eq
  have hlen := small_length_le hf hc
  have hlen' := small_length_le hf hc'
  obtain ⟨hroom, _, hone⟩ := aligned_room
  have hbase : (f.base : ℚ) ≠ 0 := base_ne_zero (base_gt hf.base_cases)
  rw [multiply_eq (by omega)]
  refine pack_rounds hf (by decide) ?_ ?_ fun _ => ⟨?_, ?_⟩
  · rw [abs_mul, abs_exact hf, abs_exact hf, zpow_add₀ hbase]
    push_cast
    ring
  · intro hne
    have hpos := zpow_pos_of_base (K := ℚ) (base_gt hf.base_cases) q
    have hpos' := zpow_pos_of_base (K := ℚ) (base_gt hf.base_cases) q'
    have hcq : (0 : ℚ) < c := by exact_mod_cast Nat.pos_of_ne_zero (Nat.ne_zero_of_mul_ne_zero_left hne)
    have hcq' : (0 : ℚ) < c' := by exact_mod_cast Nat.pos_of_ne_zero (Nat.ne_zero_of_mul_ne_zero_right hne)
    exact sign_mul s t (mul_pos hcq hpos) (mul_pos hcq' hpos')
  · rw [Nat.mul_one]
    exact mul_room (hc.trans_le hf.digits_le) (hc'.trans_le hf.digits_le)
  · have hmin := hf.minimum_le
    have hmax := hf.maximum_ge
    have := pow_range_le hf (k := (f.minimum - (q + q')).toNat) (by omega)
    have hpos := Nat.two_pow_pos rangeBits
    omega

theorem packDiv_eq (ha : (Datum.finite s c q).Read f) (hb : (Datum.finite t c' q').Read f) (hne' : c' ≠ 0) :
    ∃ d, pack (small c) (small c') (q - q') (s ^^ t) f = some (encode f d) ∧
      d.Valid f ∧ Rounds f (exact f s c q / exact f t c' q') (s ^^ t) (q - q') d := by
  obtain ⟨hc, hlow, _⟩ := ha
  obtain ⟨hc', hlow', hhigh'⟩ := hb
  obtain ⟨hroom, _, hone⟩ := aligned_room
  have hbase : (f.base : ℚ) ≠ 0 := base_ne_zero (base_gt hf.base_cases)
  have hpos := zpow_pos_of_base (K := ℚ) (base_gt hf.base_cases) q
  have hpos' := zpow_pos_of_base (K := ℚ) (base_gt hf.base_cases) q'
  have hcq' : (0 : ℚ) < c' := by exact_mod_cast Nat.pos_of_ne_zero hne'
  refine pack_rounds hf hne' ?_ ?_ fun _ => ⟨?_, ?_⟩
  · rw [abs_div, abs_exact hf, abs_exact hf, zpow_sub₀ hbase, mul_div_mul_comm]
  · intro hne
    have hcq : (0 : ℚ) < c := by exact_mod_cast Nat.pos_of_ne_zero hne
    have hinv : exact f s c q / exact f t c' q' = (if s then -1 else 1) * (c * (f.base : ℚ) ^ q) *
          ((if t then -1 else 1) * (c' * (f.base : ℚ) ^ q')⁻¹) := by
      rw [div_eq_mul_inv]
      unfold exact
      rw [mul_inv (if t then (-1 : ℚ) else 1)]
      congr 2
      cases t <;> norm_num
    rw [hinv]
    exact sign_mul s t (mul_pos hcq hpos) (inv_pos.mpr (mul_pos hcq' hpos'))
  · exact mul_room (hc.trans_le hf.digits_le) (hc'.trans_le hf.digits_le)
  · have hmin := hf.minimum_le
    have := hhigh' hne'
    have := aligned_lt hf (k := (f.minimum - (q - q')).toNat) hc' fun _ => by omega
    omega

end Pack

/-! ## Operations -/

variable {b : Datum}

section Operations

variable {f : Format} (hf : f.Floating)

include hf

variable {a : Datum}

theorem applyOp_nan (op : Op) (h : IsNan a ∨ IsNan b) :
    ∃ d, applyOp f op a.number b.number = some (encode f d) ∧ d.Valid f ∧ IsNan d := by
  have hnan : a.number.special = .nan ∨ b.number.special = .nan := by
    rcases h with ⟨s, rfl⟩ | ⟨s, rfl⟩
    · exact .inl rfl
    · exact .inr rfl
  refine ⟨.nan (if op.additive then a.number.negative else a.number.negative ^^ b.number.negative), ?_, trivial, _, rfl⟩
  unfold applyOp exceptional
  rw [if_pos hnan]
  exact congrArg some (special_nan hf _)

theorem applyOp_add {op : Op} (hop : op.additive = true) (ha : a.Read f) (hb : b.Read f) :
    ∃ d, applyOp f op a.number b.number = some (encode f d) ∧ d.Valid f ∧ AddResult f a b d := by
  cases a with
  | nan s =>
    obtain ⟨d, happly, hvalid, hnan⟩ := applyOp_nan hf op (b := b) (.inl ⟨s, rfl⟩)
    exact ⟨d, happly, hvalid, by cases b <;> exact hnan⟩
  | infinity s =>
    cases b with
    | nan t =>
      exact applyOp_nan hf op (.inr ⟨t, rfl⟩)
    | infinity t =>
      by_cases hst : s = t
      · subst hst
        refine ⟨.infinity s, ?_, trivial, by simp [AddResult]⟩
        simp [applyOp, exceptional, Datum.number, hop, special_infinity hf]
      · refine ⟨.nan s, ?_, trivial, by simp [AddResult, hst, IsNan]⟩
        simp [applyOp, exceptional, Datum.number, hop, hst, special_nan hf]
    | finite t c q =>
      refine ⟨.infinity s, ?_, trivial, rfl⟩
      simp [applyOp, exceptional, Datum.number, hop, special_infinity hf]
  | finite s c q =>
    cases b with
    | nan t => exact applyOp_nan hf op (.inr ⟨t, rfl⟩)
    | infinity t =>
      refine ⟨.infinity t, ?_, trivial, rfl⟩
      simp [applyOp, exceptional, Datum.number, hop, special_infinity hf]
    | finite t c' q' =>
      obtain ⟨d, hpack, hvalid, hrounds⟩ := packSum_eq hf ha hb
      refine ⟨d, ?_, hvalid, hrounds⟩
      rw [← hpack]
      cases op with
      | add => rfl
      | sub => rfl
      | mul => cases hop
      | div => cases hop

theorem applyOp_mul (ha : a.Read f) (hb : b.Read f) :
    ∃ d, applyOp f .mul a.number b.number = some (encode f d) ∧ d.Valid f ∧ MulResult f a b d := by
  cases a with
  | nan s =>
    obtain ⟨d, happly, hvalid, hnan⟩ := applyOp_nan hf .mul (b := b) (.inl ⟨s, rfl⟩)
    exact ⟨d, happly, hvalid, by cases b <;> exact hnan⟩
  | infinity s =>
    cases b with
    | nan t => exact applyOp_nan hf _ (.inr ⟨t, rfl⟩)
    | infinity t =>
      refine ⟨.infinity (s ^^ t), ?_, trivial, rfl⟩
      simp [applyOp, exceptional, Datum.number, Op.additive, special_infinity hf]
    | finite t c q =>
      by_cases hc : c = 0
      · refine ⟨.nan (s ^^ t), ?_, trivial, by simp [MulResult, hc, IsNan]⟩
        simp [applyOp, exceptional, Datum.number, Op.additive, hc, special_nan hf]
      · refine ⟨.infinity (s ^^ t), ?_, trivial, by simp [MulResult, hc]⟩
        simp [applyOp, exceptional, Datum.number, Op.additive, hc, small_eq_nil, special_infinity hf]
  | finite s c q =>
    cases b with
    | nan t => exact applyOp_nan hf _ (.inr ⟨t, rfl⟩)
    | infinity t =>
      by_cases hc : c = 0
      · refine ⟨.nan (s ^^ t), ?_, trivial, by simp [MulResult, hc, IsNan]⟩
        simp [applyOp, exceptional, Datum.number, Op.additive, hc, special_nan hf]
      · refine ⟨.infinity (s ^^ t), ?_, trivial, by simp [MulResult, hc]⟩
        simp [applyOp, exceptional, Datum.number, Op.additive, hc, small_eq_nil, special_infinity hf]
    | finite t c' q' =>
      obtain ⟨d, hpack, hvalid, hrounds⟩ := packMul_eq hf ha hb
      exact ⟨d, hpack, hvalid, hrounds⟩

theorem applyOp_div (ha : a.Read f) (hb : b.Read f) :
    ∃ d, applyOp f .div a.number b.number = some (encode f d) ∧ d.Valid f ∧ DivResult f a b d := by
  cases a with
  | nan s =>
    obtain ⟨d, happly, hvalid, hnan⟩ := applyOp_nan hf .div (b := b) (.inl ⟨s, rfl⟩)
    exact ⟨d, happly, hvalid, by cases b <;> exact hnan⟩
  | infinity s =>
    cases b with
    | nan t => exact applyOp_nan hf _ (.inr ⟨t, rfl⟩)
    | infinity t =>
      refine ⟨.nan (s ^^ t), ?_, trivial, _, rfl⟩
      simp [applyOp, exceptional, Datum.number, Op.additive, special_nan hf]
    | finite t c q =>
      refine ⟨.infinity (s ^^ t), ?_, trivial, rfl⟩
      simp [applyOp, exceptional, Datum.number, Op.additive, special_infinity hf]
  | finite s c q =>
    cases b with
    | nan t => exact applyOp_nan hf _ (.inr ⟨t, rfl⟩)
    | infinity t =>
      refine ⟨.finite (s ^^ t) 0 (zeroExponent f q), ?_, zero_valid hf _ _, rfl⟩
      rw [← pack_zero hf (small 1) q (s ^^ t)]
      simp [applyOp, exceptional, Datum.number, Op.additive]
    | finite t c' q' =>
      by_cases hc' : c' = 0
      · by_cases hc : c = 0
        · refine ⟨.nan (s ^^ t), ?_, trivial, by simp [DivResult, hc, hc', IsNan]⟩
          simp [applyOp, exceptional, Datum.number, Op.additive, hc, hc', special_nan hf]
        · refine ⟨.infinity (s ^^ t), ?_, trivial, by simp [DivResult, hc, hc']⟩
          simp [applyOp, exceptional, Datum.number, Op.additive, hc, hc', small_eq_nil, special_infinity hf]
      · obtain ⟨d, hpack, hvalid, hrounds⟩ := packDiv_eq hf ha hb hc'
        refine ⟨d, ?_, hvalid, by rw [DivResult, if_neg hc']; exact hrounds⟩
        rw [← hpack]
        simp [applyOp, exceptional, Datum.number, Op.additive, hc', small_eq_nil]

end Operations

theorem opposite_number (b : Datum) :
    ({ b.number with negative := !b.number.negative } : Number) = b.opposite.number := by
  cases b <;> rfl

theorem opposite_read (h : b.Read f) : b.opposite.Read f := by
  cases b <;> exact h

theorem tzSoftOp_eq {kind : Nat} (hkind : kind < 7) (op : Op) (left right : List UInt8) :
    ∃ d, tzSoftOp left right kind op = some (store (encode (format kind) d) (format kind).width) ∧
      d.Valid (format kind) ∧ OpResult (format kind) op (read (format kind) (load left (format kind).width))
        (read (format kind) (load right (format kind).width)) d := by
  have hf := format_floating hkind
  unfold tzSoftOp
  simp only [decode_eq hf, Option.bind_eq_bind, Option.bind_some]
  have ha := read_ok hf (load left (format kind).width)
  have hb := read_ok hf (load right (format kind).width)
  generalize read (format kind) (load left (format kind).width) = a at *
  generalize read (format kind) (load right (format kind).width) = b at *
  obtain ⟨d, happly, hvalid, hresult⟩ : ∃ d, applyOp (format kind) op a.number
      (if op = .sub then { b.number with negative := !b.number.negative } else b.number) =
        some (encode (format kind) d) ∧ d.Valid (format kind) ∧ OpResult (format kind) op a b d := by
    cases op with
    | add => exact applyOp_add hf rfl ha hb
    | sub =>
      rw [if_pos rfl, opposite_number]
      exact applyOp_add hf rfl ha (opposite_read hb)
    | mul => exact applyOp_mul hf ha hb
    | div => exact applyOp_div hf ha hb
  exact ⟨d, by rw [happly]; rfl, hvalid, hresult⟩

end Tsuzuri.Soft
