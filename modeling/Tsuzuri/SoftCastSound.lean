import Tsuzuri.SoftFloatSound

/-!
# The soft conversions

A conversion to a format rounds its number once; one to an integer drops the
fraction and saturates.
-/

namespace Tsuzuri.Soft

open Rounding Option

/-! ## Integers -/

structure Format.Integral (f : Format) : Prop where
  integer_eq : f.integer = true
  base_eq : f.base = 2
  width_ge : 8 ≤ f.width
  width_le : f.width ≤ 128
  width_bytes : f.width % 8 = 0

def IsInteger (kind : Nat) : Prop := 16 ≤ kind ∧ kind < 21 ∨ 24 ≤ kind ∧ kind < 29

variable {kind source target : Nat} {s : Bool} {f : Format} {d : Datum}

theorem format_integral (h : IsInteger kind) : (format kind).Integral := by
  rcases h with ⟨hlow, hhigh⟩ | ⟨hlow, hhigh⟩ <;>
    interval_cases kind <;> exact ⟨rfl, rfl, by decide, by decide, by decide⟩

def integerOf (f : Format) (raw : Nat) : Int :=
  if f.sign ∧ 2 ^ (f.width - 1) ≤ raw then raw - 2 ^ f.width else raw

def datumOf (f : Format) (raw : Nat) : Datum :=
  if f.integer then .finite (decide (integerOf f raw < 0)) (integerOf f raw).natAbs 0 else read f raw

def lowest (f : Format) : Int := if f.sign then -2 ^ (f.width - 1) else 0

def highest (f : Format) : Int := 2 ^ (f.width - f.sign.toNat) - 1

def truncate (x : ℚ) : Int := if x < 0 then ⌈x⌉ else ⌊x⌋

def castValue (source target : Format) : Datum → Int
  | .nan _ => 0
  | .infinity s => if s then lowest target else highest target
  | .finite s c q => max (lowest target) (min (highest target) (truncate (exact source s c q)))

def CastResult (source target : Format) : Datum → Datum → Prop
  | .nan s, d => d = .nan s
  | .infinity s, d => d = .infinity s
  | .finite s c q, d =>
    Rounds target (exact source s c q) s (if source.base = target.base then q else 0) d

section Integral

variable {f : Format} (hf : f.Integral)

include hf

theorem two_pow_integral : 2 ^ f.width = 2 * 2 ^ (f.width - 1) := by
  have := hf.width_ge
  conv_lhs => rw [show f.width = 1 + (f.width - 1) by omega, Nat.pow_add, Nat.pow_one]

theorem negate_mod {value : Nat} (h : value ≤ 2 ^ f.width) :
    negate value % 2 ^ f.width = (2 ^ f.width - value) % 2 ^ f.width := by
  have hsplit : 2 ^ 128 = 2 ^ f.width * 2 ^ (128 - f.width) := by
    rw [← Nat.pow_add]
    congr 1
    have := hf.width_le
    omega
  have hpos := Nat.two_pow_pos (128 - f.width)
  rw [negate, Nat.mod_mod_of_dvd _ ⟨_, hsplit⟩]
  have hdvd : 2 ^ 128 - value = 2 ^ f.width - value + 2 ^ f.width * (2 ^ (128 - f.width) - 1) := by
    rw [hsplit, Nat.mul_sub, Nat.mul_one]
    have : 2 ^ f.width ≤ 2 ^ f.width * 2 ^ (128 - f.width) := Nat.le_mul_of_pos_right _ hpos
    omega
  rw [hdvd, Nat.add_mul_mod_self_left]

theorem decode_integer (p : List UInt8) : decode p f = some (datumOf f (load p f.width)).number := by
  have hlt := load_lt hf.width_le p
  have hwidth := two_pow_integral hf
  unfold decode datumOf
  simp only [hf.integer_eq, if_true, Nat.shiftRight_eq_div_pow, and_mask]
  generalize load p f.width = raw at *
  have hhigh : (raw / 2 ^ (f.width - 1) ≠ 0) ↔ 2 ^ (f.width - 1) ≤ raw := by
    rw [← Nat.shiftRight_eq_div_pow]
    exact shiftRight_ne_zero
  rw [negate_mod hf hlt.le]
  simp only [hhigh]
  have hcast : ((2 ^ f.width : Nat) : Int) = 2 ^ f.width := by push_cast; rfl
  cases hsign : f.sign with
  | false =>
    simp only [Bool.and_false, integerOf, hsign, Bool.false_eq_true, false_and, if_false]
    simp [Datum.number]
  | true =>
    by_cases hle : 2 ^ (f.width - 1) ≤ raw
    · have hneg : (raw : Int) - 2 ^ f.width < 0 := by omega
      have habs : ((raw : Int) - 2 ^ f.width).natAbs = 2 ^ f.width - raw := by omega
      simp only [Bool.and_true, integerOf, hsign, hle, and_self, if_true, decide_true, hneg, habs]
      rw [Nat.mod_eq_of_lt (by omega)]
      rfl
    · simp only [Bool.and_true, integerOf, hsign, hle, and_false, if_false, decide_false, Bool.false_eq_true]
      simp [Datum.number]

theorem integerOf_store {m : Nat} (hm : if s then (m : Int) ≤ -lowest f else (m : Int) ≤ highest f) :
    integerOf f ((if s then negate m else m) % 2 ^ f.width) = if s then -(m : Int) else m := by
  have hwidth := two_pow_integral hf
  have hpos := Nat.two_pow_pos (f.width - 1)
  have hcast : ((2 ^ f.width : Nat) : Int) = 2 ^ f.width := by push_cast; rfl
  have hcast' : ((2 ^ (f.width - 1) : Nat) : Int) = 2 ^ (f.width - 1) := by push_cast; rfl
  unfold lowest highest at hm
  cases s with
  | false =>
    simp only [Bool.false_eq_true, if_false] at hm ⊢
    cases hsign : f.sign with
    | false =>
      rw [hsign, Bool.toNat_false, Nat.sub_zero] at hm
      rw [Nat.mod_eq_of_lt (by omega), integerOf, hsign]
      simp
    | true =>
      rw [hsign, Bool.toNat_true] at hm
      rw [Nat.mod_eq_of_lt (by omega), integerOf, if_neg (by omega)]
  | true =>
    simp only [if_true] at hm ⊢
    cases hsign : f.sign with
    | false =>
      rw [hsign] at hm
      obtain rfl : m = 0 := by simpa using hm
      rw [negate_mod hf (Nat.zero_le _), Nat.sub_zero, Nat.mod_self, integerOf, hsign]
      simp
    | true =>
      rw [hsign] at hm
      simp only [if_true, neg_neg] at hm
      rw [negate_mod hf (by omega)]
      by_cases hzero : m = 0
      · subst hzero
        rw [Nat.sub_zero, Nat.mod_self, integerOf, if_neg (by omega)]
        rfl
      · rw [Nat.mod_eq_of_lt (by omega), integerOf, if_pos ⟨hsign, by omega⟩]
        omega

end Integral

/-! ## The operands of a cast -/

def Datum.Bounded (f : Format) : Datum → Prop
  | .finite _ c q => c < 2 ^ 128 ∧ (c ≠ 0 ∨ q < 0 → f.base ^ q.natAbs ≤ 2 ^ rangeBits)
  | _ => True

theorem read_bounded (hf : f.Floating) (h : d.Read f) : d.Bounded f := by
  cases d with
  | nan s => trivial
  | infinity s => trivial
  | finite s c q =>
    obtain ⟨hc, hlow, hhigh⟩ := h
    have hmin := hf.minimum_le
    have hmax := hf.maximum_ge
    refine ⟨hc.trans_le hf.digits_le, fun hpower => pow_range_le hf ?_⟩
    rcases hpower with hne | hneg
    · have := hhigh hne
      omega
    · omega

theorem integer_bounded (hf : f.Integral) {raw : Nat} (h : raw < 2 ^ f.width) : (datumOf f raw).Bounded f := by
  have hwide : 2 ^ f.width ≤ 2 ^ 128 := Nat.pow_le_pow_right (by decide) hf.width_le
  have hwidth := two_pow_integral hf
  have hpos := Nat.two_pow_pos (f.width - 1)
  have hcast : ((2 ^ f.width : Nat) : Int) = 2 ^ f.width := by push_cast; rfl
  rw [datumOf, if_pos hf.integer_eq]
  refine ⟨?_, fun _ => by rw [Int.natAbs_zero, Nat.pow_zero]; exact Nat.one_le_two_pow⟩
  unfold integerOf
  split <;> omega

section Cast

variable {source target : Format} (hbase : source.base = 2 ∨ source.base = 10)

include hbase

variable {c : Nat} {q : Int}

omit hbase in
theorem scaled_room (h : (Datum.finite s c q).Bounded source) :
    (scaled c 1 source.base q).1 < 2 ^ 128 * 2 ^ rangeBits ∧ (scaled c 1 source.base q).2 ≤ 2 ^ rangeBits ∧
        (scaled c 1 source.base q).1 * (scaled c 1 source.base q).2 < 2 ^ 128 * 2 ^ rangeBits := by
  obtain ⟨hc, hpower⟩ := h
  have hpos := Nat.two_pow_pos rangeBits
  have hmore : 2 ^ 128 ≤ 2 ^ 128 * 2 ^ rangeBits := Nat.le_mul_of_pos_right _ hpos
  unfold scaled
  split
  · rcases Nat.eq_zero_or_pos c with rfl | hc0
    · simp only [Nat.zero_mul]
      omega
    · have := Nat.mul_lt_mul_of_lt_of_le hc (hpower (.inl (by omega))) hpos
      simp only [Nat.mul_one]
      omega
  · have := hpower (.inr (by omega))
    have hmul := Nat.mul_lt_mul_of_lt_of_le hc this hpos
    simp only [Nat.one_mul]
    omega

theorem castQuotient_eq (h : (Datum.finite s c q).Bounded source) :
    castQuotient (Datum.finite s c q).number source.base =
      some (small (scaled c 1 source.base q).1, small (scaled c 1 source.base q).2) := by
  obtain ⟨hN, hD, _⟩ := scaled_room h
  obtain ⟨hroom, harray, _⟩ := aligned_room
  obtain ⟨hless, _⟩ := limbs_le
  have hpos := Nat.two_pow_pos rangeBits
  unfold castQuotient Datum.number
  unfold scaled at hN hD ⊢
  simp only
  by_cases hq : 0 ≤ q
  · simp only [hq, if_true] at hN hD ⊢
    rw [power_eq hbase (by omega)]
    rfl
  · simp only [hq, if_false] at hN hD ⊢
    rw [power_eq hbase (by omega)]
    rfl

theorem abs_exact_scaled (s : Bool) (c : Nat) (q : Int) : |exact source s c q| =
    ((scaled c 1 source.base q).1 : ℚ) / (scaled c 1 source.base q).2 := by
  have hpos := zpow_pos_of_base (K := ℚ) (base_gt hbase) q
  rw [scaled_div hbase Nat.one_pos, Nat.cast_one, div_one, exact, abs_mul,
    abs_of_nonneg (mul_nonneg c.cast_nonneg hpos.le)]
  cases s <;> simp

theorem castFloat_eq (ht : target.Floating) (h : d.Bounded source) :
    ∃ d', castFloat d.number source target = some (encode target d') ∧ d'.Valid target ∧
      CastResult source target d d' := by
  cases d with
  | nan s =>
    refine ⟨.nan s, ?_, trivial, rfl⟩
    rw [← special_nan ht]
    rfl
  | infinity s =>
    refine ⟨.infinity s, ?_, trivial, rfl⟩
    rw [← special_infinity ht]
    rfl
  | finite s c q =>
    have hsign : c ≠ 0 → s = decide (exact source s c q < 0) := by
      intro hc
      have hpos := zpow_pos_of_base (K := ℚ) (base_gt hbase) q
      have hc' : (0 : ℚ) < c := by exact_mod_cast Nat.pos_of_ne_zero hc
      have hmul := mul_pos hc' hpos
      unfold exact
      cases s
      · simpa using hmul.le
      · simpa using hmul
    obtain ⟨hroom, _, hone⟩ := aligned_room
    have hpos := Nat.two_pow_pos rangeBits
    change ∃ d', castFloat (Datum.finite s c q).number source target = some (encode target d') ∧ d'.Valid target ∧
        Rounds target (exact source s c q) s (if source.base = target.base then q else 0) d'
    unfold castFloat
    rw [if_neg (by simp [Datum.number])]
    by_cases hsame : source.base = target.base
    · rw [if_neg (by simpa using hsame), if_pos hsame]
      refine pack_rounds ht (by decide) ?_ hsign fun hc => ⟨?_, ?_⟩
      · have hzpos := zpow_pos_of_base (K := ℚ) (base_gt hbase) q
        rw [exact, abs_mul, abs_of_nonneg (mul_nonneg c.cast_nonneg hzpos.le), ← hsame, Nat.cast_one, div_one]
        cases s <;> simp [Datum.number]
      · have hmore : 2 ^ 128 ≤ 2 ^ 128 * 2 ^ rangeBits := Nat.le_mul_of_pos_right _ hpos
        have := h.1
        omega
      · have hmin := ht.minimum_le
        change 1 * target.base ^ (target.minimum - q).toNat < 2 ^ roomBits
        by_cases hq : target.minimum ≤ q
        · rw [show (target.minimum - q).toNat = 0 by omega, Nat.pow_zero]
          omega
        · have hpower := h.2 (.inr (by omega))
          have hle : target.base ^ (target.minimum - q).toNat ≤ source.base ^ q.natAbs := by
            rw [hsame]
            exact Nat.pow_le_pow_right (by have := ht.base_cases; omega) (by omega)
          omega
    · obtain ⟨hN, hD, hND⟩ := scaled_room h
      rw [if_pos hsame, if_neg hsame, castQuotient_eq hbase h]
      have hscaled := scaled_pos (n := c) hbase Nat.one_pos q
      refine pack_rounds ht (by omega) ?_ (fun hn => hsign fun hc => hn ?_) fun _ => ⟨by omega, ?_⟩
      · rw [abs_exact_scaled hbase, zpow_zero, mul_one]
      · rw [hc]
        unfold scaled
        split <;> simp
      · have hmin := ht.minimum_le
        rw [show (target.minimum - 0).toNat = 0 by omega, Nat.pow_zero]
        omega

theorem truncate_exact (s : Bool) (c : Nat) (q : Int) : truncate (exact source s c q) =
    (if s then -1 else 1) * ((scaled c 1 source.base q).1 / (scaled c 1 source.base q).2 : Nat) := by
  have habs := abs_exact_scaled hbase s c q
  have hfloor : ⌊((scaled c 1 source.base q).1 : ℚ) / (scaled c 1 source.base q).2⌋ =
      ((scaled c 1 source.base q).1 / (scaled c 1 source.base q).2 : Nat) := by
    rw [Rat.floor_natCast_div_natCast]
    norm_cast
  have hpos := zpow_pos_of_base (K := ℚ) (base_gt hbase) q
  have hnonneg : (0 : ℚ) ≤ c * (source.base : ℚ) ^ q := mul_nonneg c.cast_nonneg hpos.le
  have hvalue : exact source s c q = (if s then -1 else 1) *
      (((scaled c 1 source.base q).1 : ℚ) / (scaled c 1 source.base q).2) := by
    rw [← habs]
    unfold exact
    rw [abs_mul, abs_of_nonneg hnonneg]
    cases s <;> simp
  unfold truncate
  cases s with
  | false =>
    rw [if_neg]
    · rw [hvalue, if_neg (by simp), if_neg (by simp), one_mul, one_mul, hfloor]
    · rw [not_lt]
      unfold exact
      simpa using hnonneg
  | true =>
    rw [hvalue, if_pos (rfl : true = true), if_pos (rfl : true = true)]
    split
    · rw [neg_one_mul, Int.ceil_neg, hfloor]
      push_cast
      ring
    · rename_i hle
      have hzero : ((scaled c 1 source.base q).1 : ℚ) / (scaled c 1 source.base q).2 = 0 := by
        have h1 : (0 : ℚ) ≤ ((scaled c 1 source.base q).1 : ℚ) / (scaled c 1 source.base q).2 := by
          positivity
        linarith
      rw [hzero] at hfloor ⊢
      rw [← hfloor]
      simp

omit hbase in
theorem integral_range (target : Format) : lowest target ≤ 0 ∧ 0 ≤ highest target := by
  have hlow : (0 : Int) < 2 ^ (target.width - 1) := by positivity
  have hhigh : (0 : Int) < 2 ^ (target.width - target.sign.toNat) := by positivity
  unfold lowest highest
  constructor
  · split <;> omega
  · omega

omit hbase in
theorem castLimit_eq (ht : target.Integral) (hd : ∀ s, d ≠ .nan s) : (castLimit d.number target : Int) =
      if d.number.negative then -lowest target else highest target := by
  have hwidth := two_pow_integral ht
  have hpos := Nat.two_pow_pos (target.width - 1)
  have hcast : ((2 ^ target.width : Nat) : Int) = 2 ^ target.width := by push_cast; rfl
  have hcast' : ((2 ^ (target.width - 1) : Nat) : Int) = 2 ^ (target.width - 1) := by push_cast; rfl
  have hspecial : d.number.special ≠ .nan := by
    cases d with
    | nan s => exact absurd rfl (hd s)
    | infinity s | finite s c q => exact Special.noConfusion
  unfold castLimit lowest highest
  simp only [hspecial, mask_eq, or_false]
  cases target.sign <;> cases d.number.negative <;>
    simp only [Bool.toNat_false, Bool.toNat_true, Nat.sub_zero, Bool.false_eq_true, reduceCtorEq,
      and_false, and_true, and_self, if_true, if_false, neg_zero, neg_neg, Nat.cast_zero] <;>
    omega

omit hbase in
theorem castLimit_lt (ht : target.Integral) (value : Number) : castLimit value target < 2 ^ 128 := by
  have hwidth := two_pow_integral ht
  have hpos := Nat.two_pow_pos (target.width - 1)
  have hwide : 2 ^ target.width ≤ 2 ^ 128 := Nat.pow_le_pow_right (by decide) ht.width_le
  unfold castLimit
  simp only [mask_eq]
  cases target.sign
  · simp only [Bool.toNat_false, Nat.sub_zero, Bool.false_eq_true, false_and, if_false]
    split
    · exact Nat.two_pow_pos 128
    · omega
  · simp only [Bool.toNat_true]
    split
    · exact Nat.two_pow_pos 128
    · split <;> omega

omit hbase in
theorem saturate_eq (ht : target.Integral) (value : Number) {N D : Nat} (hD : 0 < D)
    (hN : N < 2 ^ 128 * 2 ^ rangeBits) (hD' : D ≤ 2 ^ rangeBits) :
    ∃ limit, multiply (small (castLimit value target)) (small D) = some limit ∧
      (if 0 ≤ compare (small N) limit then some (castLimit value target)
        else do
          let (quotient, _) ← divide (small N) (small D)
          narrow quotient) = some (min (castLimit value target) (N / D)) := by
  have hlimit := castLimit_lt ht value
  generalize castLimit value target = maximum at *
  have hlimbs := LIMBS_eq
  have hrange := rangeBits_eq
  obtain ⟨hroom, harray, _⟩ := aligned_room
  have hlow : (small maximum).length ≤ 4 := length_small_le.mpr (by simpa using hlimit)
  have hhigh : (small D).length ≤ LIMBS - 4 := by
    refine length_small_le.mpr (Nat.lt_of_le_of_lt hD' ?_)
    rw [← Nat.pow_mul]
    exact Nat.pow_lt_pow_right (by decide) (by omega)
  refine ⟨_, multiply_eq (by omega), ?_⟩
  simp only [compare_small, order_nonneg]
  by_cases hle : maximum * D ≤ N
  · rw [if_pos hle, Nat.min_eq_left ((Nat.le_div_iff_mul_le hD).mpr hle)]
  · have hlt : N / D < maximum := (Nat.div_lt_iff_lt_mul hD).mpr (Nat.not_le.mp hle)
    rw [if_neg hle, divide_eq hD (by omega), Nat.min_eq_right hlt.le]
    exact narrow_eq (hlt.trans hlimit)

theorem castInteger_eq (ht : target.Integral) (h : d.Bounded source) :
    ∃ result, castInteger d.number source target = some result ∧
      integerOf target (result % 2 ^ target.width) = castValue source target d := by
  cases d with
  | nan s =>
    have hlimit : castLimit (Datum.nan s).number target = 0 := by simp [castLimit, Datum.number]
    refine ⟨if s then negate 0 else 0, ?_, ?_⟩
    · rw [castInteger, hlimit, if_pos (by simp [Datum.number])]
      rfl
    · have hrange := integral_range target
      rw [integerOf_store ht (by cases s <;> simp <;> omega)]
      cases s <;> rfl
  | infinity s =>
    have hlimit := castLimit_eq ht (d := .infinity s) fun _ => Datum.noConfusion
    refine ⟨if s then negate (castLimit (Datum.infinity s).number target)
      else castLimit (Datum.infinity s).number target, ?_, ?_⟩
    · rw [castInteger, if_pos (by simp [Datum.number])]
      rfl
    · rw [show (Datum.infinity s).number.negative = s from rfl] at hlimit
      rw [integerOf_store ht (by cases s <;> simp [hlimit]), hlimit]
      cases s <;> simp [castValue]
  | finite s c q =>
    have hlimit := castLimit_eq ht (d := .finite s c q) fun _ => Datum.noConfusion
    rw [show (Datum.finite s c q).number.negative = s from rfl] at hlimit
    obtain ⟨hN, hD, _⟩ := scaled_room h
    have hpos := scaled_pos (n := c) hbase Nat.one_pos q
    obtain ⟨limit, hmultiply, hsaturate⟩ := saturate_eq ht (Datum.finite s c q).number hpos hN hD
    have htruncate := truncate_exact hbase s c q
    have hrange := integral_range target
    refine ⟨if s then negate (min (castLimit (Datum.finite s c q).number target)
        ((scaled c 1 source.base q).1 / (scaled c 1 source.base q).2))
      else min (castLimit (Datum.finite s c q).number target)
        ((scaled c 1 source.base q).1 / (scaled c 1 source.base q).2), ?_, ?_⟩
    · unfold castInteger
      rw [if_neg (by simp [Datum.number]), castQuotient_eq hbase h]
      simp only [bind_eq_bind, bind_some, hmultiply]
      simp only [bind_eq_bind] at hsaturate
      split at hsaturate
      · rename_i hle
        rw [if_pos hle, ← some_inj.mp hsaturate]
        rfl
      · rename_i hlt
        rw [if_neg hlt, ← bind_assoc, hsaturate]
        rfl
    · generalize castLimit (Datum.finite s c q).number target = maximum at *
      generalize (scaled c 1 source.base q).1 / (scaled c 1 source.base q).2 = quotient at *
      rw [integerOf_store ht (by cases s <;> simp at hlimit ⊢ <;> omega)]
      change _ = max (lowest target) (min (highest target) (truncate (exact source s c q)))
      rw [htruncate]
      cases s <;> simp at hlimit ⊢ <;> omega

end Cast

theorem decode_datumOf (h : kind < 7 ∨ IsInteger kind) (p : List UInt8) :
    decode p (format kind) = some (datumOf (format kind) (load p (format kind).width)).number ∧
      (datumOf (format kind) (load p (format kind).width)).Bounded (format kind) := by
  rcases h with hkind | hkind
  · have hf := format_floating hkind
    rw [datumOf, if_neg (by rw [hf.integer_eq]; exact Bool.false_ne_true)]
    exact ⟨decode_eq hf p, read_bounded hf (read_ok hf _)⟩
  · have hf := format_integral hkind
    exact ⟨decode_integer hf p, integer_bounded hf (load_lt hf.width_le p)⟩

theorem base_of_kind (h : kind < 7 ∨ IsInteger kind) : (format kind).base = 2 ∨ (format kind).base = 10 :=
  h.elim (fun hkind => (format_floating hkind).base_cases) fun hkind => .inl (format_integral hkind).base_eq

def Returns (f : Format) (run : Option (List UInt8)) (result : Datum → Prop) : Prop :=
  ∃ out d, run = some out ∧ out.length = f.width / 8 ∧ load out f.width = encode f d ∧
    decode out f = some d.number ∧ d.Valid f ∧ result d

theorem Returns.of_store (hf : f.Floating) {run : Option (List UInt8)} {result : Datum → Prop}
    (hrun : run = some (store (encode f d) f.width)) (hvalid : d.Valid f) (hresult : result d) :
    Returns f run result := by
  refine ⟨_, d, hrun, length_storeFrom _ _, ?_, decode_store hf hvalid, hvalid, hresult⟩
  rw [load_store hf.width_le hf.width_bytes, Nat.mod_eq_of_lt (encode_lt hf hvalid)]

theorem tzSoftCast_float (hsource : source < 7 ∨ IsInteger source) (htarget : target < 7) (input : List UInt8) :
    ∃ d, tzSoftCast input source target = some (store (encode (format target) d) (format target).width) ∧
      d.Valid (format target) ∧ CastResult (format source) (format target)
        (datumOf (format source) (load input (format source).width)) d := by
  have ht := format_floating htarget
  obtain ⟨hdecode, hbounded⟩ := decode_datumOf hsource input
  obtain ⟨d, hcast, hvalid, hresult⟩ := castFloat_eq (base_of_kind hsource) ht hbounded
  refine ⟨d, ?_, hvalid, hresult⟩
  unfold tzSoftCast
  rw [hdecode, ht.integer_eq]
  simp only [bind_eq_bind, bind_some, Bool.false_eq_true, if_false, hcast]

theorem tzSoftCast_integer (hsource : source < 7 ∨ IsInteger source) (htarget : IsInteger target) (input : List UInt8) :
    ∃ out, tzSoftCast input source target = some out ∧ out.length = (format target).width / 8 ∧
      integerOf (format target) (load out (format target).width) = castValue (format source) (format target)
          (datumOf (format source) (load input (format source).width)) := by
  have ht := format_integral htarget
  obtain ⟨hdecode, hbounded⟩ := decode_datumOf hsource input
  obtain ⟨result, hcast, hvalue⟩ := castInteger_eq (base_of_kind hsource) ht hbounded
  refine ⟨store result (format target).width, ?_, length_storeFrom _ _, ?_⟩
  · unfold tzSoftCast
    rw [hdecode, ht.integer_eq]
    simp only [bind_eq_bind, bind_some, if_true, hcast]
  · rw [load_store ht.width_le ht.width_bytes, hvalue]

/-- Every operation and every conversion to a format is rounded once, every conversion to an integer
type drops the fraction and saturates, and none of them traps. -/
theorem soft_float_rounded : (∀ kind, kind < 7 → ∀ (op : Op) (left right : List UInt8),
      Returns (format kind) (tzSoftOp left right kind op)
        (OpResult (format kind) op (read (format kind) (load left (format kind).width))
          (read (format kind) (load right (format kind).width)))) ∧
    ∀ source, source < 7 ∨ IsInteger source → ∀ (target : Nat) (input : List UInt8),
      (target < 7 → Returns (format target) (tzSoftCast input source target)
        (CastResult (format source) (format target) (datumOf (format source) (load input (format source).width)))) ∧
      (IsInteger target → ∃ out, tzSoftCast input source target = some out ∧ out.length = (format target).width / 8 ∧
          integerOf (format target) (load out (format target).width) = castValue (format source) (format target)
              (datumOf (format source) (load input (format source).width))) := by
  refine ⟨fun kind hkind op left right => ?_, fun source hsource target input => ⟨fun htarget => ?_, ?_⟩⟩
  · obtain ⟨d, hrun, hvalid, hresult⟩ := tzSoftOp_eq hkind op left right
    exact .of_store (format_floating hkind) hrun hvalid hresult
  · obtain ⟨d, hrun, hvalid, hresult⟩ := tzSoftCast_float hsource htarget input
    exact .of_store (format_floating htarget) hrun hvalid hresult
  · exact fun htarget => tzSoftCast_integer hsource htarget input

/-- A third in decimal32, and the conversion of minus one to a byte. -/
theorem soft_float_rounded_third : Returns (format 4) (tzSoftOp (store 0x32800001 32) (store 0x32800003 32) 4 .div)
      (OpResult (format 4) .div (read (format 4) (load (store 0x32800001 32) 32))
        (read (format 4) (load (store 0x32800003 32) 32))) ∧
    ∃ out, tzSoftCast (store 0xbf800000 32) 1 16 = some out ∧ out.length = 1 ∧ integerOf (format 16) (load out 8) =
        castValue (format 1) (format 16) (datumOf (format 1) (load (store 0xbf800000 32) 32)) :=
  ⟨soft_float_rounded.1 4 (by decide) .div _ _, (soft_float_rounded.2 1 (.inl (by decide)) 16 _).2 (.inl (by decide))⟩

end Tsuzuri.Soft
