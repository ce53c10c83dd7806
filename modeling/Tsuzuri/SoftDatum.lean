import Tsuzuri.SoftBigSound
import Tsuzuri.SoftFloat

/-!
# The data of the formats

What a bit pattern stands for, and the encoding of a datum: that of IEEE 754 for the binary formats,
BID for the decimal ones.
-/

namespace Tsuzuri.Soft

open Nat

inductive Datum where
  | nan (negative : Bool)
  | infinity (negative : Bool)
  | finite (negative : Bool) (coefficient : Nat) (exponent : Int)
deriving DecidableEq

def Datum.number : Datum → Number
  | .nan negative => ⟨[], 0, negative, .nan⟩
  | .infinity negative => ⟨[], 0, negative, .infinity⟩
  | .finite negative coefficient exponent => ⟨small coefficient, exponent, negative, .finite⟩

section Encode

variable (f : Format)

def signField (negative : Bool) : Nat := negative.toNat * 2 ^ (f.width - 1)

def infinityField : Nat :=
  if f.base = 2 then (f.bias * 2 + 1) * 2 ^ f.fraction else 30 * 2 ^ (f.width - 6)

def nanField : Nat :=
  if f.base = 2 then (f.bias * 2 + 1) * 2 ^ f.fraction + 2 ^ (f.fraction - 1)
  else 31 * 2 ^ (f.width - 6)

def binaryField (coefficient : Nat) (exponent : Int) : Nat :=
  if coefficient < 2 ^ f.fraction then coefficient
  else (exponent + f.fraction + f.bias).toNat * 2 ^ f.fraction + (coefficient - 2 ^ f.fraction)

def decimalField (coefficient : Nat) (exponent : Int) : Nat :=
  if f.width ≠ 128 ∧ 2 ^ f.fraction ≤ coefficient then
    3 * 2 ^ (f.width - 3) + (exponent + f.bias).toNat * 2 ^ (f.fraction - 2) + (coefficient - 2 ^ f.fraction)
  else (exponent + f.bias).toNat * 2 ^ f.fraction + coefficient

def encode : Datum → Nat
  | .nan negative => signField f negative + nanField f
  | .infinity negative => signField f negative + infinityField f
  | .finite negative coefficient exponent =>
    signField f negative +
      if f.base = 2 then binaryField f coefficient exponent else decimalField f coefficient exponent

theorem encode_nan (negative : Bool) : encode f (.nan negative) = signField f negative + nanField f := rfl

theorem encode_infinity (negative : Bool) :
    encode f (.infinity negative) = signField f negative + infinityField f := rfl

theorem encode_finite (negative : Bool) (coefficient : Nat) (exponent : Int) :
    encode f (.finite negative coefficient exponent) = signField f negative +
      if f.base = 2 then binaryField f coefficient exponent else decimalField f coefficient exponent := rfl

end Encode

/-- The fields of a binary format. -/
structure Format.Binary (f : Format) : Prop where
  base_eq : f.base = 2
  precision_eq : f.precision = f.fraction + 1
  minimum_eq : f.minimum = 1 - f.bias - f.fraction
  maximum_eq : f.maximum = f.bias - f.fraction
  bias_eq : f.bias * 2 + 2 = 2 ^ (f.width - 1 - f.fraction)

/-- The fields of a decimal format. -/
structure Format.Decimal (f : Format) : Prop where
  base_eq : f.base = 10
  minimum_eq : f.minimum = -f.bias
  maximum_eq : f.maximum + f.bias + 1 = 3 * 2 ^ (f.width - 3 - f.fraction)
  exponent_bits : f.fraction + 8 ≤ f.width
  digits_le : 10 ^ f.precision ≤ 2 ^ f.fraction + 2 ^ (f.fraction - 2)
  digits_le_wide : f.width = 128 → 10 ^ f.precision ≤ 2 ^ f.fraction

structure Format.Floating (f : Format) : Prop where
  integer_eq : f.integer = false
  kind : f.Binary ∨ f.Decimal
  precision_pos : 0 < f.precision
  precision_le : f.precision ≤ 113
  fraction_ge : 2 ≤ f.fraction
  fraction_le : f.fraction + 6 ≤ f.width
  width_le : f.width ≤ 128
  width_ge : 16 ≤ f.width
  width_bytes : f.width % 8 = 0
  digits_le : f.base ^ f.precision ≤ 2 ^ 128
  minimum_ge : -16494 ≤ f.minimum
  minimum_le : f.minimum ≤ 0
  maximum_ge : 0 ≤ f.maximum
  maximum_le : f.maximum ≤ 16271
  decimal_range : f.base = 10 → f.maximum - f.minimum ≤ 12287

theorem format_floating {kind : Nat} (h : kind < 7) : (format kind).Floating := by
  have hbinary : kind < 4 → (format kind).Binary := by
    intro h4
    interval_cases kind <;> exact ⟨by decide, by decide, by decide, by decide, by decide⟩
  have hdecimal : ¬kind < 4 → (format kind).Decimal := by
    intro h4
    interval_cases kind <;>
      first | exact absurd (by decide) h4
            | exact ⟨by decide, by decide, by decide, by decide, by decide, by decide⟩
  have hkind : (format kind).Binary ∨ (format kind).Decimal := by
    by_cases h4 : kind < 4
    · exact .inl (hbinary h4)
    · exact .inr (hdecimal h4)
  interval_cases kind <;>
    exact ⟨rfl, hkind, by decide, by decide, by decide, by decide, by decide, by decide, by decide,
      by decide, by decide, by decide, by decide, by decide, by decide⟩

section Floating

variable {f : Format} (hf : f.Floating)

include hf

theorem Format.Floating.base_cases : f.base = 2 ∨ f.base = 10 :=
  hf.kind.imp (·.base_eq) (·.base_eq)

theorem Format.Floating.minimum_le_maximum : f.minimum ≤ f.maximum :=
  hf.minimum_le.trans hf.maximum_ge

theorem Format.Floating.binary (h : f.base = 2) : f.Binary :=
  hf.kind.resolve_right fun hd => absurd (h.symm.trans hd.base_eq) (by decide)

theorem Format.Floating.decimal (h : f.base = 10) : f.Decimal :=
  hf.kind.resolve_left fun hb => absurd (h.symm.trans hb.base_eq) (by decide)

end Floating

theorem or_eq_add {a b k : Nat} (hdvd : 2 ^ k ∣ a) (hlt : b < 2 ^ k) : a ||| b = a + b := by
  obtain ⟨c, rfl⟩ := hdvd
  rw [Nat.mul_comm, ← Nat.shiftLeft_eq, shiftLeft_add_eq_or_of_lt hlt]

theorem mask_eq (count : Nat) : mask count = 2 ^ count - 1 := by
  unfold mask
  split
  · rename_i h128
    rw [h128]
  · rw [Nat.shiftLeft_eq, Nat.one_mul]

theorem and_mask (value count : Nat) : value &&& mask count = value % 2 ^ count := by
  rw [mask_eq, and_two_pow_sub_one_eq_mod]

variable {value q : Int} {count rest c width : Nat} {d : Datum}

theorem u128_eq (hpos : 0 ≤ value) (h : value < 2 ^ 128) : u128 value = value.toNat := by
  rw [u128, Int.emod_eq_of_lt hpos h]

theorem shift_field (hpos : 0 ≤ value) (h : value.toNat * 2 ^ count < 2 ^ 128) :
    u128 value <<< count % 2 ^ 128 = value.toNat * 2 ^ count := by
  have hle : value.toNat ≤ value.toNat * 2 ^ count := Nat.le_mul_of_pos_right _ (Nat.two_pow_pos _)
  rw [u128_eq hpos (by omega), Nat.shiftLeft_eq, mod_eq_of_lt h]

theorem shiftRight_ne_zero {value : Nat} : value >>> count ≠ 0 ↔ 2 ^ count ≤ value := by
  rw [Nat.shiftRight_eq_div_pow, Nat.div_ne_zero_iff]
  exact ⟨fun h => h.2, fun h => ⟨(Nat.two_pow_pos _).ne', h⟩⟩

/-! ## The bits of an encoding -/

section Bits

variable {f : Format}

theorem sign_or (negative : Bool) (h : rest < 2 ^ (f.width - 1)) :
    negative.toNat <<< (f.width - 1) ||| rest = signField f negative + rest := by
  rw [Nat.shiftLeft_eq, signField]
  exact or_eq_add (Nat.dvd_mul_left _ _) h

variable (hf : f.Floating)

include hf

theorem bias_field (hb : f.Binary) : (f.bias * 2 + 2) * 2 ^ f.fraction = 2 ^ (f.width - 1) := by
  have := hf.fraction_le
  rw [hb.bias_eq, ← Nat.pow_add]
  congr 1
  omega

theorem two_pow_fraction : 2 ^ f.fraction = 4 * 2 ^ (f.fraction - 2) ∧ 2 ^ f.fraction = 2 * 2 ^ (f.fraction - 1) := by
  have h2 := hf.fraction_ge
  constructor
  · conv_lhs => rw [show f.fraction = 2 + (f.fraction - 2) by omega, Nat.pow_add]
  · conv_lhs => rw [show f.fraction = 1 + (f.fraction - 1) by omega, Nat.pow_add, pow_one]

theorem two_pow_width : 2 ^ (f.width - 1) = 32 * 2 ^ (f.width - 6) ∧
    2 ^ (f.width - 1) = 4 * 2 ^ (f.width - 3) ∧ 2 ^ f.width = 2 * 2 ^ (f.width - 1) := by
  have := hf.fraction_le
  refine ⟨?_, ?_, ?_⟩
  · conv_lhs => rw [show f.width - 1 = 5 + (f.width - 6) by omega, Nat.pow_add]
  · conv_lhs => rw [show f.width - 1 = 2 + (f.width - 3) by omega, Nat.pow_add]
  · conv_lhs => rw [show f.width = 1 + (f.width - 1) by omega, Nat.pow_add, pow_one]

theorem infinityField_lt : infinityField f < 2 ^ (f.width - 1) ∧ nanField f < 2 ^ (f.width - 1) := by
  have hfraction := two_pow_fraction hf
  have hwidth := two_pow_width hf
  have hpos := Nat.two_pow_pos (f.fraction - 1)
  have hpos' := Nat.two_pow_pos (f.width - 6)
  unfold infinityField nanField
  rcases hf.base_cases with hb | hb
  · have hfield := bias_field hf (hf.binary hb)
    rw [add_mul] at hfield
    rw [if_pos hb, if_pos hb, add_mul]
    omega
  · rw [if_neg (by omega), if_neg (by omega)]
    omega

theorem special_infinity (negative : Bool) : special f .infinity negative = encode f (.infinity negative) := by
  have hlt := (infinityField_lt hf).1
  rw [encode_infinity, ← sign_or negative hlt]
  unfold special infinityField
  split <;> simp [Nat.shiftLeft_eq]

theorem special_nan (negative : Bool) : special f .nan negative = encode f (.nan negative) := by
  have hlt := (infinityField_lt hf).2
  have hfraction := hf.fraction_ge
  rw [encode_nan, ← sign_or negative hlt]
  unfold special nanField
  split
  · have hor : (f.bias * 2 + 1) * 2 ^ f.fraction ||| 2 ^ (f.fraction - 1) =
        (f.bias * 2 + 1) * 2 ^ f.fraction + 2 ^ (f.fraction - 1) :=
      or_eq_add (Nat.dvd_mul_left _ _) (Nat.pow_lt_pow_right (by decide) (by omega))
    simp only [if_true, Nat.shiftLeft_eq, Nat.one_mul, ← hor, Nat.or_assoc]
  · simp [Nat.shiftLeft_eq]

/-- The coefficient and the exponent are those of the format. -/
structure Fits (f : Format) (coefficient : Nat) (exponent : Int) : Prop where
  digits_lt : coefficient < f.base ^ f.precision
  minimum_le : f.minimum ≤ exponent
  le_maximum : exponent ≤ f.maximum

theorem binaryField_lt (hb : f.Binary) (h : Fits f c q) : binaryField f c q < infinityField f ∧
      (2 ^ f.fraction ≤ c → 0 ≤ q + f.fraction + f.bias ∧
        (q + f.fraction + f.bias).toNat * 2 ^ f.fraction < 2 ^ (f.width - 1) ∧
          c - 2 ^ f.fraction < 2 ^ f.fraction) := by
  have hc := h.digits_lt
  have hlow := h.minimum_le
  have hhigh := h.le_maximum
  rw [hb.base_eq, hb.precision_eq, pow_succ] at hc
  rw [hb.minimum_eq] at hlow
  rw [hb.maximum_eq] at hhigh
  have hfield := bias_field hf hb
  have hencoded : (q + f.fraction + f.bias).toNat + 1 ≤ f.bias * 2 + 1 := by omega
  have hmul := mul_le_mul_right (2 ^ f.fraction) hencoded
  rw [add_mul, Nat.one_mul] at hmul
  rw [add_mul] at hfield
  unfold binaryField infinityField
  rw [if_pos hb.base_eq, add_mul]
  rw [add_mul] at hmul
  refine ⟨?_, fun hle => ⟨by omega, by omega, by omega⟩⟩
  split
  · have : 2 ^ f.fraction ≤ f.bias * 2 * 2 ^ f.fraction + 1 * 2 ^ f.fraction := by omega
    omega
  · omega

theorem assembleBits_binary (hb : f.Binary) (h : Fits f c q) (negative : Bool) :
    assembleBits c q negative f = encode f (.finite negative c q) := by
  obtain ⟨hlt, hlarge⟩ := binaryField_lt hf hb h
  have hlt := hlt.trans (infinityField_lt hf).1
  have hfraction := hf.fraction_le
  have hwidth := hf.width_le
  have hwide : 2 ^ (f.width - 1) < 2 ^ 128 := Nat.pow_lt_pow_right (by decide) (by omega)
  rw [encode_finite, if_pos hb.base_eq, ← sign_or negative hlt]
  unfold assembleBits binaryField
  rw [if_pos hb.base_eq, and_mask]
  by_cases hle : 2 ^ f.fraction ≤ c
  · obtain ⟨hpos, hencoded, hrest⟩ := hlarge hle
    simp only [shiftRight_ne_zero, if_pos hle, if_neg (Nat.not_lt.mpr hle)]
    have hmod : c % 2 ^ f.fraction = c - 2 ^ f.fraction := by
      rw [mod_eq_sub_mod hle, mod_eq_of_lt hrest]
    rw [shift_field hpos (by omega), hmod, Nat.or_assoc, or_eq_add (Nat.dvd_mul_left _ _) hrest]
  · simp only [shiftRight_ne_zero, if_neg hle, if_pos (not_le.mp hle)]
    rw [shift_field (by omega) (by simp), mod_eq_of_lt (not_le.mp hle)]
    simp

theorem decimalField_lt (hd : f.Decimal) (h : Fits f c q) :
    0 ≤ q + f.bias ∧ (q + f.bias).toNat < 3 * 2 ^ (f.width - 3 - f.fraction) ∧
      (q + f.bias).toNat * 2 ^ f.fraction + 2 ^ f.fraction ≤ 3 * 2 ^ (f.width - 3) ∧
        decimalField f c q < 30 * 2 ^ (f.width - 6) ∧
          (2 ^ f.fraction ≤ c → c - 2 ^ f.fraction < 2 ^ (f.fraction - 2)) := by
  have hlow := h.minimum_le
  have hhigh := h.le_maximum
  have hmax := hd.maximum_eq
  have hc := h.digits_lt
  have hdigits := hd.digits_le
  have hbits := hd.exponent_bits
  have hfraction := two_pow_fraction hf
  have hwidth := two_pow_width hf
  rw [hd.base_eq] at hc
  rw [hd.minimum_eq] at hlow
  have hencoded : (q + f.bias).toNat < 3 * 2 ^ (f.width - 3 - f.fraction) := by
    have : ((3 * 2 ^ (f.width - 3 - f.fraction) : Nat) : Int) = f.maximum + f.bias + 1 := by
      rw [hmax]
      push_cast
      rfl
    omega
  have hmul := mul_le_mul_right (2 ^ f.fraction) hencoded
  have hpow : 2 ^ (f.width - 3 - f.fraction) * 2 ^ f.fraction = 2 ^ (f.width - 3) := by
    rw [← Nat.pow_add]
    congr 1
    omega
  rw [Nat.mul_assoc, hpow, succ_mul] at hmul
  refine ⟨by omega, hencoded, hmul, ?_, fun hle => by omega⟩
  unfold decimalField
  have hquarter : (q + f.bias).toNat * 2 ^ (f.fraction - 2) * 4 = (q + f.bias).toNat * 2 ^ f.fraction := by
    rw [hfraction.1]
    ring
  split
  · omega
  · rename_i hnot
    have hclt : c < 2 ^ f.fraction := by
      by_cases h128 : f.width = 128
      · exact hc.trans_le (hd.digits_le_wide h128)
      · exact not_le.mp fun hle => hnot ⟨h128, hle⟩
    omega

theorem assembleBits_decimal (hd : f.Decimal) (h : Fits f c q) (negative : Bool) :
    assembleBits c q negative f = encode f (.finite negative c q) := by
  obtain ⟨hpos, hencoded, hfits, hlt, hrest⟩ := decimalField_lt hf hd h
  have hbits := hd.exponent_bits
  have hfraction := two_pow_fraction hf
  have hwidth := two_pow_width hf
  have hge := hf.fraction_ge
  have hle128 := hf.width_le
  have hwide : 2 ^ (f.width - 1) < 2 ^ 128 := Nat.pow_lt_pow_right (by decide) (by omega)
  have hquarter : (q + f.bias).toNat * 2 ^ (f.fraction - 2) * 4 = (q + f.bias).toNat * 2 ^ f.fraction := by
    rw [hfraction.1]
    ring
  have hbase : ¬f.base = 2 := by rw [hd.base_eq]; decide
  rw [encode_finite, if_neg hbase, ← sign_or negative (by omega)]
  unfold assembleBits decimalField
  rw [if_neg hbase]
  simp only [shiftRight_ne_zero]
  by_cases hlarge : f.width ≠ 128 ∧ 2 ^ f.fraction ≤ c
  · rw [if_pos hlarge, if_pos hlarge, and_mask, shift_field hpos (by omega)]
    have hmod : c % 2 ^ (f.fraction - 2) = c - 2 ^ f.fraction := by
      have hr := hrest hlarge.2
      obtain ⟨r, hr'⟩ : ∃ r, c = r + 2 ^ (f.fraction - 2) * 4 := ⟨c - 2 ^ f.fraction, by omega⟩
      rw [hr', add_mul_mod_self_left, mod_eq_of_lt (by omega)]
      omega
    have hhigh : 3 * 2 ^ (f.width - 3) ||| (q + f.bias).toNat * 2 ^ (f.fraction - 2) =
        3 * 2 ^ (f.width - 3) + (q + f.bias).toNat * 2 ^ (f.fraction - 2) :=
      or_eq_add (Nat.dvd_mul_left _ _) (by omega)
    have hall : 3 * 2 ^ (f.width - 3) + (q + f.bias).toNat * 2 ^ (f.fraction - 2) |||
        (c - 2 ^ f.fraction) = _ :=
      or_eq_add (k := f.fraction - 2) (dvd_add ((pow_dvd_pow 2 (by omega)).trans
        (Nat.dvd_mul_left _ _)) (Nat.dvd_mul_left _ _)) (hrest hlarge.2)
    rw [hmod, Nat.shiftLeft_eq 3, Nat.or_assoc, Nat.or_assoc, ← Nat.or_assoc (3 * _), hhigh, hall]
  · rw [if_neg hlarge, if_neg hlarge, shift_field hpos (by omega)]
    have hclt : c < 2 ^ f.fraction := by
      by_cases h128 : f.width = 128
      · have := h.digits_lt
        rw [hd.base_eq] at this
        exact this.trans_le (hd.digits_le_wide h128)
      · exact not_le.mp fun hle => hlarge ⟨h128, hle⟩
    rw [Nat.or_assoc, or_eq_add (Nat.dvd_mul_left _ _) hclt]

theorem assembleBits_eq (h : Fits f c q) (negative : Bool) :
    assembleBits c q negative f = encode f (.finite negative c q) := by
  rcases hf.kind with hb | hd
  · exact assembleBits_binary hf hb h negative
  · exact assembleBits_decimal hf hd h negative

end Bits

/-! ## Reading -/

section Read

variable (f : Format)

def readBinary (negative : Bool) (rest : Nat) : Datum :=
  let exponent := rest / 2 ^ f.fraction
  let coefficient := rest % 2 ^ f.fraction
  if exponent = f.bias * 2 + 1 then (if coefficient = 0 then .infinity negative else .nan negative)
  else if exponent = 0 then .finite negative coefficient f.minimum
  else .finite negative (coefficient + 2 ^ f.fraction) (exponent - f.bias - f.fraction)

def readDecimal (negative : Bool) (rest : Nat) : Datum :=
  if rest / 2 ^ (f.width - 6) = 30 then .infinity negative
  else if 30 < rest / 2 ^ (f.width - 6) then .nan negative
  else
    let large := rest / 2 ^ (f.width - 3) = 3
    let fields :=
      if large ∧ f.width ≠ 128 then
        (rest / 2 ^ (f.fraction - 2) % 2 ^ (f.width - f.fraction - 1), rest % 2 ^ (f.fraction - 2) + 2 ^ f.fraction)
      else (rest / 2 ^ f.fraction, rest % 2 ^ f.fraction)
    .finite negative (if 10 ^ f.precision ≤ fields.2 ∨ f.width = 128 ∧ large then 0 else fields.2) (fields.1 - f.bias)

def read (raw : Nat) : Datum :=
  let negative : Bool := raw / 2 ^ (f.width - 1) ≠ 0
  let rest := raw % 2 ^ (f.width - 1)
  if f.base = 2 then readBinary f negative rest else readDecimal f negative rest

end Read

section Decode

variable {f : Format} (hf : f.Floating)

include hf

theorem limit_eq : power (small 1) f.base f.precision = some (small (f.base ^ f.precision)) := by
  have hlimbs := LIMBS_eq
  have hlt : 1 * f.base ^ f.precision < (2 ^ 32) ^ (LIMBS - 1) := by
    rw [Nat.one_mul, ← pow_mul]
    exact Nat.lt_of_le_of_lt hf.digits_le (Nat.pow_lt_pow_right (by decide) (by omega))
  rw [power_eq hf.base_cases hlt, Nat.one_mul]

theorem decode_eq (p : List UInt8) : decode p f = some (read f (load p f.width)).number := by
  have hfraction := hf.fraction_le
  have hge := hf.fraction_ge
  have hwidth := hf.width_le
  unfold decode read
  simp only [hf.integer_eq, Bool.false_eq_true, if_false, Nat.shiftRight_eq_div_pow, and_mask]
  generalize load p f.width % 2 ^ (f.width - 1) = rest
  generalize (decide (load p f.width / 2 ^ (f.width - 1) ≠ 0)) = negative
  rcases hf.base_cases with hb | hb
  · rw [if_pos hb, if_pos hb, readBinary]
    have hor : rest % 2 ^ f.fraction ||| 1 <<< f.fraction = rest % 2 ^ f.fraction + 2 ^ f.fraction := by
      rw [Nat.or_comm, Nat.shiftLeft_eq, Nat.one_mul,
        or_eq_add (Nat.dvd_refl _) (Nat.mod_lt _ (Nat.two_pow_pos _)), Nat.add_comm]
    generalize rest % 2 ^ f.fraction = coefficient at *
    generalize rest / 2 ^ f.fraction = exponent
    by_cases hspecial : exponent = f.bias * 2 + 1
    · by_cases hzero : coefficient = 0
      · simp only [hspecial, hzero, if_true, ne_eq, not_true_eq_false, if_false]
        rfl
      · simp only [hspecial, hzero, if_true, ne_eq, not_false_eq_true, if_false]
        rfl
    · by_cases hzero : exponent = 0
      · simp only [hzero, if_neg (by omega : ¬0 = f.bias * 2 + 1), ne_eq, not_true_eq_false, if_false, if_true, or_zero]
        rfl
      · simp only [hspecial, hzero, if_true, ne_eq, not_false_eq_true, if_false, hor]
        rfl
  · have hd := hf.decimal hb
    have hbits := hd.exponent_bits
    have hlimit := limit_eq hf
    rw [hb] at hlimit
    have hbase : ¬f.base = 2 := by omega
    simp only [hbase, if_false]
    rw [readDecimal]
    generalize hcomb : rest / 2 ^ (f.width - 6) = combination
    by_cases hspecial : 30 ≤ combination
    · rw [if_pos hspecial]
      by_cases hinfinity : combination = 30
      · rw [if_pos hinfinity, if_pos hinfinity]
        rfl
      · rw [if_neg hinfinity, if_neg hinfinity, if_pos (by omega)]
        rfl
    · rw [if_neg hspecial, if_neg (by omega), if_neg (by omega), hlimit]
      have hor : rest % 2 ^ (f.fraction - 2) ||| 1 <<< f.fraction = rest % 2 ^ (f.fraction - 2) + 2 ^ f.fraction := by
        have hlt : rest % 2 ^ (f.fraction - 2) < 2 ^ f.fraction :=
          Nat.lt_of_lt_of_le (Nat.mod_lt _ (Nat.two_pow_pos _)) (Nat.pow_le_pow_right (by decide) (by omega))
        rw [Nat.or_comm, Nat.shiftLeft_eq, Nat.one_mul, or_eq_add (Nat.dvd_refl _) hlt, Nat.add_comm]
      have hfields : decimalFields rest f = if rest / 2 ^ (f.width - 3) = 3 ∧ f.width ≠ 128 then
            (rest / 2 ^ (f.fraction - 2) % 2 ^ (f.width - f.fraction - 1), rest % 2 ^ (f.fraction - 2) + 2 ^ f.fraction)
          else (rest / 2 ^ f.fraction, rest % 2 ^ f.fraction) := by
        simp only [decimalFields, Nat.shiftRight_eq_div_pow, and_mask, hor]
      have hwide : f.width = 128 ∧ rest / 2 ^ 125 = 3 ↔ f.width = 128 ∧ rest / 2 ^ (f.width - 3) = 3 :=
        and_congr_right fun h => by rw [h]
      simp only [Option.bind_eq_bind, Option.bind_some, hfields, compare_small, order_nonneg, hwide]
      refine congrArg some ?_
      rw [Datum.number]
      congr 1
      exact (apply_ite small _ _ _).symm

def Datum.Read (f : Format) : Datum → Prop
  | .finite _ coefficient exponent =>
    coefficient < f.base ^ f.precision ∧ f.minimum ≤ exponent ∧ (coefficient ≠ 0 → exponent ≤ f.maximum)
  | _ => True

theorem readBinary_ok (hb : f.Binary) (negative : Bool) (hrest : rest < 2 ^ (f.width - 1)) :
    (readBinary f negative rest).Read f := by
  have hmod : rest % 2 ^ f.fraction < 2 ^ f.fraction := Nat.mod_lt _ (Nat.two_pow_pos _)
  have hfield := bias_field hf hb
  have hexp : rest / 2 ^ f.fraction < f.bias * 2 + 2 := by
    rw [Nat.div_lt_iff_lt_mul (Nat.two_pow_pos _), hfield]
    exact hrest
  have hdigits : f.base ^ f.precision = 2 ^ f.fraction * 2 := by
    rw [hb.base_eq, hb.precision_eq, pow_succ]
  have hmin := hb.minimum_eq
  have hmax := hb.maximum_eq
  have hle := hf.minimum_le_maximum
  unfold readBinary
  generalize rest / 2 ^ f.fraction = exponent at *
  generalize rest % 2 ^ f.fraction = coefficient at *
  dsimp only
  split_ifs
  · trivial
  · trivial
  · exact ⟨by omega, Int.le_refl _, fun _ => hle⟩
  · exact ⟨by omega, by omega, fun _ => by omega⟩

theorem large_exponent_lt (hd : f.Decimal) (h3 : rest / 2 ^ (f.width - 3) = 3) (hlt : rest / 2 ^ (f.width - 6) < 30) :
    rest / 2 ^ (f.fraction - 2) % 2 ^ (f.width - f.fraction - 1) < 3 * 2 ^ (f.width - 3 - f.fraction) := by
  have hbits := hd.exponent_bits
  have hge := hf.fraction_ge
  have hwidth := two_pow_width hf
  have hsplit := div_add_mod rest (2 ^ (f.width - 3))
  rw [h3] at hsplit
  generalize rest % 2 ^ (f.width - 3) = r at hsplit
  rw [Nat.div_lt_iff_lt_mul (Nat.two_pow_pos _)] at hlt
  have hr : r < 6 * 2 ^ (f.width - 6) := by omega
  have hpow : 2 ^ (f.width - 3) = 2 ^ (f.fraction - 2) * 2 ^ (f.width - f.fraction - 1) := by
    rw [← Nat.pow_add]
    congr 1
    omega
  have hdiv : rest / 2 ^ (f.fraction - 2) = r / 2 ^ (f.fraction - 2) + 2 ^ (f.width - f.fraction - 1) * 3 := by
    rw [← hsplit, hpow, Nat.mul_assoc, Nat.add_comm, add_mul_div_left _ _ (Nat.two_pow_pos _)]
  have hsix : 6 * 2 ^ (f.width - 6) = 3 * 2 ^ (f.width - 3 - f.fraction) * 2 ^ (f.fraction - 2) := by
    rw [Nat.mul_assoc, ← Nat.pow_add, show 6 = 3 * 2 by rfl, Nat.mul_assoc, ← pow_succ']
    congr 2
    omega
  rw [hdiv, add_mul_mod_self_left]
  refine Nat.lt_of_le_of_lt (mod_le _ _) ?_
  rw [Nat.div_lt_iff_lt_mul (Nat.two_pow_pos _), ← hsix]
  exact hr

theorem readDecimal_ok (hd : f.Decimal) (negative : Bool) (hrest : rest < 2 ^ (f.width - 1)) :
    (readDecimal f negative rest).Read f := by
  have hb := hd.base_eq
  have hmin := hd.minimum_eq
  have hbits := hd.exponent_bits
  have hwidth := two_pow_width hf
  have hmax : ((3 * 2 ^ (f.width - 3 - f.fraction) : Nat) : Int) = f.maximum + f.bias + 1 := by
    rw [hd.maximum_eq]
    push_cast
    rfl
  have hzero : 0 < f.base ^ f.precision := Nat.pow_pos (by omega)
  have hnonneg : (0 : Int) ≤ (rest / 2 ^ f.fraction : Nat) := Int.natCast_nonneg _
  unfold readDecimal
  dsimp only
  split_ifs with h30 h31 hlarge hbig hbig
  · trivial
  · trivial
  · exact ⟨hzero, by omega, fun h => absurd rfl h⟩
  · rw [not_or] at hbig
    have hexp := large_exponent_lt hf hd hlarge.1 (by omega)
    exact ⟨by rw [hb]; omega, by omega, fun _ => by omega⟩
  · exact ⟨hzero, by omega, fun h => absurd rfl h⟩
  · rw [not_or] at hbig
    refine ⟨by rw [hb]; omega, by omega, fun _ => ?_⟩
    have hnot3 : ¬rest / 2 ^ (f.width - 3) = 3 := fun h3 => by
      by_cases h128 : f.width = 128
      · exact hbig.2 ⟨h128, h3⟩
      · exact hlarge ⟨h3, h128⟩
    have hlt4 : rest / 2 ^ (f.width - 3) < 4 := by
      rw [Nat.div_lt_iff_lt_mul (Nat.two_pow_pos _)]
      omega
    have hlt3 : rest < 3 * 2 ^ (f.width - 3) := by
      rw [← Nat.div_lt_iff_lt_mul (Nat.two_pow_pos _)]
      omega
    have hexp : rest / 2 ^ f.fraction < 3 * 2 ^ (f.width - 3 - f.fraction) := by
      rw [Nat.div_lt_iff_lt_mul (Nat.two_pow_pos _), Nat.mul_assoc, ← Nat.pow_add]
      rwa [show f.width - 3 - f.fraction + f.fraction = f.width - 3 by omega]
    omega

theorem read_ok (raw : Nat) : (read f raw).Read f := by
  have hrest : raw % 2 ^ (f.width - 1) < 2 ^ (f.width - 1) := Nat.mod_lt _ (Nat.two_pow_pos _)
  unfold read
  rcases hf.base_cases with hb | hb
  · simp only [hb, if_true]
    exact readBinary_ok hf (hf.binary hb) _ hrest
  · have hbase : ¬f.base = 2 := by omega
    simp only [hbase, if_false]
    exact readDecimal_ok hf (hf.decimal hb) _ hrest

def Datum.Valid (f : Format) : Datum → Prop
  | .finite _ coefficient exponent =>
    Fits f coefficient exponent ∧ (f.base = 2 → coefficient < 2 ^ f.fraction → exponent = f.minimum)
  | _ => True

theorem readBinary_binaryField (hb : f.Binary) (negative : Bool) (h : Fits f c q)
    (hnormal : c < 2 ^ f.fraction → q = f.minimum) :
    readBinary f negative (binaryField f c q) = .finite negative c q := by
  obtain ⟨_, hlarge⟩ := binaryField_lt hf hb h
  have hmin := hb.minimum_eq
  have hmax := hb.maximum_eq
  have hhigh := h.le_maximum
  have hlow := h.minimum_le
  have hpos := Nat.two_pow_pos f.fraction
  unfold readBinary binaryField
  by_cases hlt : c < 2 ^ f.fraction
  · rw [if_pos hlt]
    dsimp only
    rw [Nat.div_eq_of_lt hlt, mod_eq_of_lt hlt, if_neg (by omega), if_pos rfl, hnormal hlt]
  · rw [if_neg hlt]
    obtain ⟨hexp, _, hrest⟩ := hlarge (Nat.not_lt.mp hlt)
    dsimp only
    rw [Nat.mul_comm, Nat.mul_add_div hpos, Nat.mul_add_mod, Nat.div_eq_of_lt hrest,
      mod_eq_of_lt hrest, Nat.add_zero, if_neg (by omega), if_neg (by omega),
      Nat.sub_add_cancel (Nat.not_lt.mp hlt)]
    congr 1
    omega

theorem readDecimal_decimalField (hd : f.Decimal) (negative : Bool) (h : Fits f c q) :
    readDecimal f negative (decimalField f c q) = .finite negative c q := by
  obtain ⟨hexp, hencoded, hfits, hlt, hrest⟩ := decimalField_lt hf hd h
  have hc := h.digits_lt
  have hbits := hd.exponent_bits
  have hge := hf.fraction_ge
  have hfraction := two_pow_fraction hf
  have hwidth := two_pow_width hf
  rw [hd.base_eq] at hc
  have hcomb : decimalField f c q / 2 ^ (f.width - 6) < 30 := by
    rw [Nat.div_lt_iff_lt_mul (Nat.two_pow_pos _)]
    exact hlt
  unfold readDecimal
  rw [if_neg (by omega), if_neg (by omega)]
  unfold decimalField at hlt ⊢
  by_cases hlarge : f.width ≠ 128 ∧ 2 ^ f.fraction ≤ c
  · have hr := hrest hlarge.2
    have hquarter : (q + f.bias).toNat * 2 ^ (f.fraction - 2) * 4 = (q + f.bias).toNat * 2 ^ f.fraction := by
      rw [hfraction.1]
      ring
    have hpow : 2 ^ (f.width - 3) = 2 ^ (f.fraction - 2) * 2 ^ (f.width - f.fraction - 1) := by
      rw [← Nat.pow_add]
      congr 1
      omega
    have h3 : (3 * 2 ^ (f.width - 3) + (q + f.bias).toNat * 2 ^ (f.fraction - 2) +
        (c - 2 ^ f.fraction)) / 2 ^ (f.width - 3) = 3 := by
      rw [Nat.add_assoc, Nat.mul_comm, Nat.mul_add_div (Nat.two_pow_pos _), Nat.div_eq_of_lt (by omega)]
    have hregroup : 3 * 2 ^ (f.width - 3) + (q + f.bias).toNat * 2 ^ (f.fraction - 2) +
        (c - 2 ^ f.fraction) = 2 ^ (f.fraction - 2) *
          (2 ^ (f.width - f.fraction - 1) * 3 + (q + f.bias).toNat) + (c - 2 ^ f.fraction) := by
      rw [hpow]
      ring
    have hsmall : (q + f.bias).toNat < 2 ^ (f.width - f.fraction - 1) := by
      refine hencoded.trans_le ?_
      rw [show f.width - f.fraction - 1 = 2 + (f.width - 3 - f.fraction) by omega, Nat.pow_add]
      omega
    simp only [if_pos hlarge, h3, true_and]
    rw [if_pos hlarge.1, hregroup, Nat.mul_add_div (Nat.two_pow_pos _), Nat.div_eq_of_lt hr, Nat.add_zero,
      Nat.mul_add_mod, Nat.mul_add_mod, mod_eq_of_lt hsmall, mod_eq_of_lt hr,
      Nat.sub_add_cancel hlarge.2, if_neg (by omega)]
    congr 1
    omega
  · have hclt : c < 2 ^ f.fraction := by
      by_cases h128 : f.width = 128
      · exact hc.trans_le (hd.digits_le_wide h128)
      · exact not_le.mp fun hle => hlarge ⟨h128, hle⟩
    have h3 : ¬((q + f.bias).toNat * 2 ^ f.fraction + c) / 2 ^ (f.width - 3) = 3 := by
      have : ((q + f.bias).toNat * 2 ^ f.fraction + c) / 2 ^ (f.width - 3) < 3 := by
        rw [Nat.div_lt_iff_lt_mul (Nat.two_pow_pos _)]
        omega
      omega
    simp only [if_neg hlarge, h3, false_and, and_false, or_false, if_false]
    rw [Nat.mul_comm, Nat.mul_add_div (Nat.two_pow_pos _), Nat.mul_add_mod, Nat.div_eq_of_lt hclt,
      mod_eq_of_lt hclt, Nat.add_zero, if_neg (by omega)]
    congr 1
    omega

theorem fields_lt (h : d.Valid f) :
    ∃ negative rest, encode f d = signField f negative + rest ∧ rest < 2 ^ (f.width - 1) ∧
      (if f.base = 2 then readBinary f negative rest else readDecimal f negative rest) = d := by
  have hwidth := two_pow_width hf
  have hspecial := infinityField_lt hf
  have hpos := Nat.two_pow_pos f.fraction
  have hpos' := Nat.two_pow_pos (f.width - 6)
  have hfraction := two_pow_fraction hf
  cases d with
  | nan negative =>
    refine ⟨negative, nanField f, rfl, hspecial.2, ?_⟩
    rcases hf.base_cases with hb | hb
    · have hlt : 2 ^ (f.fraction - 1) < 2 ^ f.fraction := by
        have := Nat.two_pow_pos (f.fraction - 1)
        omega
      have hne := (Nat.two_pow_pos (f.fraction - 1)).ne'
      simp only [hb, if_true, readBinary, nanField]
      rw [Nat.mul_comm, Nat.mul_add_div hpos, Nat.mul_add_mod, Nat.div_eq_of_lt hlt, mod_eq_of_lt hlt,
        Nat.add_zero, if_pos rfl, if_neg hne]
    · have hbase : ¬f.base = 2 := by omega
      simp only [hbase, if_false, readDecimal, nanField]
      rw [Nat.mul_div_cancel _ hpos', if_neg (by decide), if_pos (by decide)]
  | infinity negative =>
    refine ⟨negative, infinityField f, rfl, hspecial.1, ?_⟩
    rcases hf.base_cases with hb | hb
    · simp only [hb, if_true, readBinary, infinityField]
      rw [Nat.mul_div_cancel _ hpos, mul_mod_left, if_pos rfl, if_pos rfl]
    · have hbase : ¬f.base = 2 := by omega
      simp only [hbase, if_false, readDecimal, infinityField]
      rw [Nat.mul_div_cancel _ hpos', if_pos rfl]
  | finite negative c q =>
    obtain ⟨hfits, hnormal⟩ := h
    rcases hf.base_cases with hb | hb
    · refine ⟨negative, binaryField f c q, ?_, ?_, ?_⟩
      · rw [encode_finite, if_pos hb]
      · exact (binaryField_lt hf (hf.binary hb) hfits).1.trans hspecial.1
      · rw [if_pos hb]
        exact readBinary_binaryField hf (hf.binary hb) negative hfits (hnormal hb)
    · have hbase : ¬f.base = 2 := by omega
      have hd := hf.decimal hb
      refine ⟨negative, decimalField f c q, ?_, ?_, ?_⟩
      · rw [encode_finite, if_neg hbase]
      · obtain ⟨_, _, _, hlt, _⟩ := decimalField_lt hf hd hfits
        omega
      · rw [if_neg hbase]
        exact readDecimal_decimalField hf hd negative hfits

theorem encode_lt (h : d.Valid f) : encode f d < 2 ^ f.width := by
  obtain ⟨negative, rest, heq, hlt, _⟩ := fields_lt hf h
  have hwidth := (two_pow_width hf).2.2
  rw [heq, signField]
  cases negative <;> simp only [Bool.toNat_false, Bool.toNat_true] <;> omega

theorem read_encode (h : d.Valid f) : read f (encode f d) = d := by
  obtain ⟨negative, rest, heq, hlt, hread⟩ := fields_lt hf h
  have hpos := Nat.two_pow_pos (f.width - 1)
  have hsign : (decide ((signField f negative + rest) / 2 ^ (f.width - 1) ≠ 0) : Bool) = negative := by
    rw [signField, Nat.mul_comm, Nat.mul_add_div hpos, Nat.div_eq_of_lt hlt]
    cases negative <;> rfl
  unfold read
  rw [heq, hsign, signField, Nat.mul_comm, Nat.mul_add_mod, mod_eq_of_lt hlt]
  exact hread

end Decode

theorem foldr_bytes (p : List UInt8) (h : p.length ≤ 16) :
    p.foldr (fun byte value => value <<< 8 % 2 ^ 128 ||| byte.toNat) 0 < 2 ^ (8 * p.length) := by
  induction p with
  | nil => simp
  | cons byte p ih =>
    have hlt := ih (by simp only [List.length_cons] at h; omega)
    have hbyte := byte.toNat_lt
    rw [List.foldr_cons, List.length_cons]
    generalize p.foldr (fun byte value => value <<< 8 % 2 ^ 128 ||| byte.toNat) 0 = value at *
    have hmul : value * 2 ^ 8 < 2 ^ (8 * (p.length + 1)) := by
      rw [mul_succ, Nat.pow_add]
      exact mul_lt_mul_of_pos_right hlt (by decide)
    refine Nat.or_lt_two_pow ?_ (hbyte.trans_le (Nat.pow_le_pow_right (by decide) (by omega)))
    rw [Nat.shiftLeft_eq]
    exact Nat.lt_of_le_of_lt (mod_le _ _) hmul

theorem load_lt (hle : width ≤ 128) (p : List UInt8) : load p width < 2 ^ width := by
  have hlength : (p.take (width / 8)).length ≤ width / 8 := by
    rw [List.length_take]
    omega
  refine (foldr_bytes _ (by omega)).trans_le (Nat.pow_le_pow_right (by decide) ?_)
  omega

theorem length_storeFrom (count : Nat) : ∀ value, (storeFrom count value).length = count := by
  induction count with
  | zero => exact fun _ => rfl
  | succ count ih => exact fun value => congrArg (· + 1) (ih _)

theorem foldr_storeFrom (count : Nat) (h : count ≤ 16) : ∀ value,
    (storeFrom count value).foldr (fun byte value => value <<< 8 % 2 ^ 128 ||| byte.toNat) 0 =
      value % 2 ^ (8 * count) := by
  induction count with
  | zero => intro value; simp [storeFrom, mod_one]
  | succ count ih =>
    intro value
    rw [storeFrom, List.foldr_cons, ih (by omega), Nat.shiftLeft_eq, Nat.shiftRight_eq_div_pow]
    have hlt : value / 2 ^ 8 % 2 ^ (8 * count) < 2 ^ (8 * count) := Nat.mod_lt _ (Nat.two_pow_pos _)
    have hfits : value / 2 ^ 8 % 2 ^ (8 * count) * 2 ^ 8 < 2 ^ 128 := by
      refine Nat.lt_of_lt_of_le (mul_lt_mul_of_pos_right hlt (by decide)) ?_
      rw [← Nat.pow_add]
      exact Nat.pow_le_pow_right (by decide) (by omega)
    have hbyte : (UInt8.ofNat value).toNat = value % 2 ^ 8 := by simp
    rw [mod_eq_of_lt hfits, hbyte, or_eq_add (k := 8) (Nat.dvd_mul_left _ _)
      (Nat.mod_lt _ (by decide)), mul_succ, Nat.add_comm (8 * count), Nat.pow_add, mod_mul]
    ring

theorem load_store (hle : width ≤ 128) (hbytes : width % 8 = 0) (value : Nat) :
    load (store value width) width = value % 2 ^ width := by
  unfold load store
  rw [List.take_of_length_le (by rw [length_storeFrom]), foldr_storeFrom _ (by omega)]
  congr 2
  omega

theorem decode_store {f : Format} (hf : f.Floating) (h : d.Valid f) :
    decode (store (encode f d) f.width) f = some d.number := by
  rw [decode_eq hf, load_store hf.width_le hf.width_bytes, mod_eq_of_lt (encode_lt hf h), read_encode hf h]

end Tsuzuri.Soft
