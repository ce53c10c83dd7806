import Tsuzuri.Basic
import Mathlib.Data.Int.Bitwise
import Mathlib.Data.Int.ModEq
import Mathlib.Order.Interval.Set.Basic
import Mathlib.Tactic.Linarith
import Mathlib.Tactic.Ring

/-!
# Integer intervals

The arithmetic of `interval.rs`: intervals of mathematical integers, and the overflow flags that
they prove.
-/

namespace Tsuzuri

/-! ## Machine integers -/

def intMin (bits : Nat) (signed : Bool) : Int := if signed then -(2 ^ bits / 2) else 0

def intMax (bits : Nat) (signed : Bool) : Int := if signed then 2 ^ bits / 2 - 1 else 2 ^ bits - 1

def wrapTo (bits : Nat) (signed : Bool) (n : Int) : Int :=
  (n - intMin bits signed) % 2 ^ bits + intMin bits signed

def bitPattern (bits : Nat) (n : Int) : Nat := (n % 2 ^ bits).toNat

/-- An integer type of at most 64 bits. -/
structure IntType where
  bits : Nat
  signed : Bool
  pos : 0 < bits
  le : bits ≤ 64

namespace IntType

/-- `none` for a width that the intervals do not cover (more than 64 bits, or none). -/
def new (bits : Nat) (signed : Bool) : Option IntType :=
  if h : 0 < bits ∧ bits ≤ 64 then some ⟨bits, signed, h.1, h.2⟩ else none

variable (ty : IntType)

def modulus : Int := 2 ^ ty.bits

def min : Int := intMin ty.bits ty.signed

def max : Int := intMax ty.bits ty.signed

def withSign (signed : Bool) : IntType := { ty with signed }

/-- The value of the type with the bit pattern of `n`. -/
def value (n : Int) : Int := wrapTo ty.bits ty.signed n

end IntType

/-- The inclusive range of integers that a value can take. -/
structure Interval where
  low : Int
  high : Int
deriving DecidableEq

namespace Interval

instance : Membership Int Interval := ⟨fun i n => i.low ≤ n ∧ n ≤ i.high⟩

def point (value : Int) : Interval := ⟨value, value⟩

def within (i outer : Interval) : Bool := outer.low ≤ i.low && i.high ≤ outer.high

def hull (i j : Interval) : Interval := ⟨min i.low j.low, max i.high j.high⟩

def meet (i j : Interval) : Option Interval :=
  let low := max i.low j.low
  let high := min i.high j.high
  if low ≤ high then some ⟨low, high⟩ else none

end Interval

def IntType.full (ty : IntType) : Interval := ⟨ty.min, ty.max⟩

/-- The overflow flags that an integer `add`, `sub` or `mul` may carry. -/
structure Flags where
  nsw : Bool
  nuw : Bool

instance : Inhabited Flags := ⟨false, false⟩

/-- The integer operations whose overflow flags are decided here. -/
inductive Operation where
  | add | subtract | multiply

def Operation.apply : Operation → Int → Int → Int
  | .add, l, r => l + r
  | .subtract, l, r => l - r
  | .multiply, l, r => l * r

structure Interval.Outcome where
  flags : Flags
  result : Interval

namespace Interval

def saturate (n : Int) : Int := max (-2 ^ 127) (min (2 ^ 127 - 1) n)

def limit : Int := 2 ^ 100

/-- The values in the interval, read as `signed` numbers of the width. -/
def reading (ty : IntType) (i : Interval) (signed : Bool) : Interval :=
  if ty.signed = signed then i
  else if signed then
    -- An unsigned pattern from half the range up is a negative number.
    if i.high < ty.modulus / 2 then i
    else if i.low ≥ ty.modulus / 2 then ⟨i.low - ty.modulus, i.high - ty.modulus⟩
    else (ty.withSign true).full
  else if i.low ≥ 0 then i
  else if i.high < 0 then ⟨i.low + ty.modulus, i.high + ty.modulus⟩
  else (ty.withSign false).full

def exact (operation : Operation) (left right : Interval) : Interval :=
  match operation with
  | .add => ⟨saturate (left.low + right.low), saturate (left.high + right.high)⟩
  | .subtract => ⟨saturate (left.low - right.high), saturate (left.high - right.low)⟩
  | .multiply =>
    let a := saturate (left.low * right.low)
    let b := saturate (left.low * right.high)
    let c := saturate (left.high * right.low)
    let d := saturate (left.high * right.high)
    ⟨min (min (min a b) c) d, max (max (max a b) c) d⟩

/-- The values of `ty` that the integers in the interval become when they are cut to its width. -/
def wrap (ty : IntType) (i : Interval) : Interval :=
  if i.within ty.full then i
  else if i.low < -limit ∨ i.high > limit then ty.full
  else
    let period (value : Int) := (value - ty.min) / ty.modulus
    if period i.low ≠ period i.high then ty.full
    else
      let shift := period i.low * ty.modulus
      ⟨i.low - shift, i.high - shift⟩

def arithmetic (operation : Operation) (ty : IntType) (left right : Interval) : Outcome :=
  let signed := ty.withSign true
  let unsigned := ty.withSign false
  let asSigned := exact operation (reading ty left true) (reading ty right true)
  let asUnsigned := exact operation (reading ty left false) (reading ty right false)
  { flags := { nsw := asSigned.within signed.full, nuw := asUnsigned.within unsigned.full }
    result := ((wrap ty asSigned).meet (wrap ty asUnsigned)).getD ty.full }

/-- The values of `target` that the integers in the interval become. -/
def cast (target : IntType) (i : Interval) : Interval := wrap target i

def bitAnd (ty : IntType) (left right : Interval) : Interval :=
  wrap ty ⟨0, min (reading ty left false).high (reading ty right false).high⟩

/-- `left % right`, which has the sign of the dividend and is smaller than the divisor. -/
def remainder (ty : IntType) (left right : Interval) : Interval :=
  let largest := max right.low.natAbs right.high.natAbs
  if largest = 0 then ty.full
  else
    let most := min (largest - 1 : Int) (2 ^ 127 - 1)
    ⟨if left.low ≥ 0 then 0 else max left.low (-most), if left.high ≤ 0 then 0 else min left.high most⟩

def quotients (left divisor : Interval) : Interval :=
  let a := left.low.tdiv divisor.low
  let b := left.low.tdiv divisor.high
  let c := left.high.tdiv divisor.low
  let d := left.high.tdiv divisor.high
  ⟨min (min (min a b) c) d, max (max (max a b) c) d⟩

def addQuotients (left : Interval) (known : Option Interval) (divisor : Interval) :
    Option Interval :=
  some <| match known with
    | none => quotients left divisor
    | some known => known.hull (quotients left divisor)

/-- `left / right`, rounded toward zero. -/
def divide (ty : IntType) (left right : Interval) : Interval :=
  let pieces := [right.meet ⟨-2 ^ 127, -1⟩, right.meet ⟨1, 2 ^ 127 - 1⟩]
  let quotient := pieces.reduceOption.foldl (addQuotients left) none
  (quotient.bind fun quotient => quotient.meet ty.full).getD ty.full

def shiftRight (left : Interval) (count : Nat) : Interval :=
  ⟨left.low >>> count, left.high >>> count⟩

def shiftRightLogical (ty : IntType) (left : Interval) (count : Nat) : Interval :=
  wrap ty (shiftRight (reading ty left false) count)

def complement (ty : IntType) (value : Interval) : Interval :=
  if ty.signed then ⟨-value.high - 1, -value.low - 1⟩
  else ⟨ty.max - value.high, ty.max - value.low⟩

def shiftLeft (ty : IntType) (left : Interval) (count : Nat) : Interval :=
  wrap ty (exact .multiply left (point (2 ^ count)))

end Interval

/-! ## Cutting to a width -/

section Cut

variable {bits : Nat} {signed : Bool} {n m : Int}

theorem two_pow_half (h : 0 < bits) : (2 : Int) ^ bits = 2 * (2 ^ bits / 2) := by
  obtain ⟨b, rfl⟩ := Nat.exists_eq_succ_of_ne_zero h.ne'
  rw [pow_succ, Int.mul_ediv_cancel _ two_ne_zero, mul_comm]

theorem intMax_sub_intMin (h : 0 < bits) : intMax bits signed = intMin bits signed + 2 ^ bits - 1 := by
  have := two_pow_half h
  cases signed <;> simp only [intMax, intMin, if_true, if_false, Bool.false_eq_true] <;> omega

theorem wrapTo_mem (h : 0 < bits) : intMin bits signed ≤ wrapTo bits signed n ∧
    wrapTo bits signed n ≤ intMax bits signed := by
  have hpos : (0 : Int) < 2 ^ bits := by positivity
  have hlow := Int.emod_nonneg (n - intMin bits signed) hpos.ne'
  have hhigh := Int.emod_lt_of_pos (n - intMin bits signed) hpos
  have := @intMax_sub_intMin bits signed h
  unfold wrapTo
  omega

theorem wrapTo_eq (h : 0 < bits) (k : Int) (hlow : intMin bits signed ≤ n - k * 2 ^ bits)
    (hhigh : n - k * 2 ^ bits ≤ intMax bits signed) : wrapTo bits signed n = n - k * 2 ^ bits := by
  have := @intMax_sub_intMin bits signed h
  have hsplit : n - intMin bits signed = (n - k * 2 ^ bits - intMin bits signed) + 2 ^ bits * k := by
    ring
  rw [wrapTo, hsplit, Int.add_mul_emod_self_left, Int.emod_eq_of_lt (by omega) (by omega)]
  ring

theorem wrapTo_eq_self (h : 0 < bits) (hlow : intMin bits signed ≤ n) (hhigh : n ≤ intMax bits signed) :
    wrapTo bits signed n = n := by
  have := @wrapTo_eq bits signed n h 0
  simp only [zero_mul, sub_zero] at this
  exact this hlow hhigh

theorem wrapTo_congr (hnm : n % 2 ^ bits = m % 2 ^ bits) : wrapTo bits signed n = wrapTo bits signed m := by
  rw [wrapTo, wrapTo, Int.sub_emod, hnm, ← Int.sub_emod]

theorem wrapTo_emod : wrapTo bits signed n % 2 ^ bits = n % 2 ^ bits := by
  rw [wrapTo, Int.emod_add_emod]
  ring_nf

end Cut

namespace Interval

@[simp] theorem mem_iff {i : Interval} {n : Int} : n ∈ i ↔ i.low ≤ n ∧ n ≤ i.high := Iff.rfl

variable {ty : IntType} {i left right : Interval} {n l r : Int} {signed : Bool}

theorem mem_full : n ∈ ty.full ↔ intMin ty.bits ty.signed ≤ n ∧ n ≤ intMax ty.bits ty.signed :=
  Iff.rfl

theorem value_mem_full (n : Int) : ty.value n ∈ ty.full := wrapTo_mem ty.pos

theorem value_eq_self (h : n ∈ ty.full) : ty.value n = n := wrapTo_eq_self ty.pos h.1 h.2

theorem mem_of_within {outer : Interval} (h : i.within outer = true) (hn : n ∈ i) : n ∈ outer := by
  simp only [within, Bool.and_eq_true, decide_eq_true_eq] at h
  exact ⟨le_trans h.1 hn.1, le_trans hn.2 h.2⟩

variable {j divisor : Interval} {low high d : Int} {known : Option Interval}

theorem mem_hull_left (h : n ∈ i) : n ∈ i.hull j :=
  ⟨le_trans (min_le_left _ _) h.1, le_trans h.2 (le_max_left _ _)⟩

theorem mem_hull_right (h : n ∈ j) : n ∈ i.hull j :=
  ⟨le_trans (min_le_right _ _) h.1, le_trans h.2 (le_max_right _ _)⟩

theorem mem_meet (hi : n ∈ i) (hj : n ∈ j) : ∃ k, i.meet j = some k ∧ n ∈ k := by
  have hlow := max_le hi.1 hj.1
  have hhigh := le_min hi.2 hj.2
  exact ⟨_, if_pos (le_trans hlow hhigh), hlow, hhigh⟩

theorem wrapTo_mem_full (signed : Bool) (n : Int) :
    wrapTo ty.bits signed n ∈ (ty.withSign signed).full := wrapTo_mem ty.pos

theorem mem_reading_signed (hty : ty.signed = false) (hi : n ∈ i) (hn : n ∈ ty.full) :
    wrapTo ty.bits true n ∈ reading ty i true := by
  have hhalf := two_pow_half ty.pos
  have hmin : intMin ty.bits true = -(2 ^ ty.bits / 2) := rfl
  have hmax : intMax ty.bits true = 2 ^ ty.bits / 2 - 1 := rfl
  have hrange : 0 ≤ n ∧ n ≤ 2 ^ ty.bits - 1 := by
    have := mem_full.mp hn
    rwa [hty] at this
  obtain ⟨hlow, hhigh⟩ := hi
  rw [reading, if_neg (by simp [hty]), if_pos rfl, IntType.modulus]
  split
  · have hsame : wrapTo ty.bits true n = n := wrapTo_eq_self ty.pos (by omega) (by omega)
    rw [hsame]
    exact ⟨hlow, hhigh⟩
  · split
    · have hdown : wrapTo ty.bits true n = n - 1 * 2 ^ ty.bits :=
        wrapTo_eq ty.pos 1 (by omega) (by omega)
      rw [hdown]
      simp only [mem_iff]
      omega
    · exact wrapTo_mem_full true n

theorem mem_reading_unsigned (hty : ty.signed = true) (hi : n ∈ i) (hn : n ∈ ty.full) :
    wrapTo ty.bits false n ∈ reading ty i false := by
  have hhalf := two_pow_half ty.pos
  have hmin : intMin ty.bits false = 0 := rfl
  have hmax : intMax ty.bits false = 2 ^ ty.bits - 1 := rfl
  have hrange : -(2 ^ ty.bits / 2) ≤ n ∧ n ≤ 2 ^ ty.bits / 2 - 1 := by
    have := mem_full.mp hn
    rwa [hty] at this
  obtain ⟨hlow, hhigh⟩ := hi
  rw [reading, if_neg (by simp [hty]), if_neg (by simp), IntType.modulus]
  split
  · have hsame : wrapTo ty.bits false n = n := wrapTo_eq_self ty.pos (by omega) (by omega)
    rw [hsame]
    exact ⟨hlow, hhigh⟩
  · split
    · have hup : wrapTo ty.bits false n = n - -1 * 2 ^ ty.bits :=
        wrapTo_eq ty.pos (-1) (by omega) (by omega)
      rw [hup]
      simp only [mem_iff]
      omega
    · exact wrapTo_mem_full false n

theorem mem_reading (signed : Bool) (hi : n ∈ i) (hn : n ∈ ty.full) :
    wrapTo ty.bits signed n ∈ reading ty i signed := by
  by_cases hsame : ty.signed = signed
  · subst hsame
    rw [reading, if_pos rfl, show wrapTo ty.bits ty.signed n = n from value_eq_self hn]
    exact hi
  · cases signed with
    | true => exact mem_reading_signed (by simpa using hsame) hi hn
    | false => exact mem_reading_unsigned (by simpa using hsame) hi hn

theorem saturate_mono (h : n ≤ l) : saturate n ≤ saturate l :=
  max_le_max_left _ (min_le_min_left _ h)

theorem saturate_eq (hlow : -2 ^ 127 < saturate n) (hhigh : saturate n < 2 ^ 127 - 1) : saturate n = n := by
  unfold saturate at *
  omega

theorem mul_between (a : Int) (hlow : low ≤ n) (hhigh : n ≤ high) :
    min (a * low) (a * high) ≤ a * n ∧ a * n ≤ max (a * low) (a * high) := by
  rcases le_total 0 a with ha | ha
  · have := mul_le_mul_of_nonneg_left hlow ha
    have := mul_le_mul_of_nonneg_left hhigh ha
    omega
  · have := mul_le_mul_of_nonpos_left hlow ha
    have := mul_le_mul_of_nonpos_left hhigh ha
    omega

theorem mul_mem_corners (hl : l ∈ left) (hr : r ∈ right) :
    min (min (min (left.low * right.low) (left.low * right.high)) (left.high * right.low))
      (left.high * right.high) ≤ l * r ∧
    l * r ≤ max (max (max (left.low * right.low) (left.low * right.high)) (left.high * right.low))
      (left.high * right.high) := by
  have houter := mul_between l hr.1 hr.2
  have hfirst := mul_between right.low hl.1 hl.2
  have hlast := mul_between right.high hl.1 hl.2
  rw [mul_comm right.low, mul_comm right.low, mul_comm right.low] at hfirst
  rw [mul_comm right.high, mul_comm right.high, mul_comm right.high] at hlast
  omega

theorem saturate_min (n l : Int) : saturate (min n l) = min (saturate n) (saturate l) := by
  unfold saturate
  omega

theorem saturate_max (n l : Int) : saturate (max n l) = max (saturate n) (saturate l) := by
  unfold saturate
  omega

theorem mem_exact (operation : Operation) (hl : l ∈ left) (hr : r ∈ right) :
    saturate (operation.apply l r) ∈ exact operation left right := by
  obtain ⟨hl₁, hl₂⟩ := hl
  obtain ⟨hr₁, hr₂⟩ := hr
  cases operation with
  | add => exact ⟨saturate_mono (add_le_add hl₁ hr₁), saturate_mono (add_le_add hl₂ hr₂)⟩
  | subtract => exact ⟨saturate_mono (sub_le_sub hl₁ hr₂), saturate_mono (sub_le_sub hl₂ hr₁)⟩
  | multiply =>
    obtain ⟨hlow, hhigh⟩ := mul_mem_corners ⟨hl₁, hl₂⟩ ⟨hr₁, hr₂⟩
    have hlow := saturate_mono hlow
    have hhigh := saturate_mono hhigh
    simp only [saturate_min] at hlow
    simp only [saturate_max] at hhigh
    exact ⟨hlow, hhigh⟩

theorem two_pow_le (ty : IntType) : (2 : Int) ^ ty.bits ≤ 2 ^ 64 :=
  pow_le_pow_right₀ (by decide) ty.le

theorem saturate_eq_of_full (h : saturate n ∈ ty.full) : saturate n = n := by
  have hhalf := two_pow_half ty.pos
  have hle := two_pow_le ty
  obtain ⟨hlow, hhigh⟩ := mem_full.mp h
  have hmin : -2 ^ 64 ≤ intMin ty.bits ty.signed := by
    cases ty.signed <;> simp only [intMin, if_true, if_false, Bool.false_eq_true] <;> omega
  have hmax : intMax ty.bits ty.signed ≤ 2 ^ 64 := by
    cases ty.signed <;> simp only [intMax, if_true, if_false, Bool.false_eq_true] <;> omega
  exact saturate_eq (by omega) (by omega)

theorem mem_wrap (h : saturate n ∈ i) : ty.value n ∈ wrap ty i := by
  have hpos : (0 : Int) < 2 ^ ty.bits := by positivity
  unfold wrap
  split
  · rename_i hwithin
    have hn := saturate_eq_of_full (mem_of_within hwithin h)
    rw [hn] at h
    rw [value_eq_self (mem_of_within hwithin h)]
    exact h
  · split
    · exact value_mem_full n
    · rename_i hlimit
      rw [not_or, not_lt, not_lt, limit] at hlimit
      have hn : saturate n = n := by
        obtain ⟨hlow, hhigh⟩ := h
        exact saturate_eq (by omega) (by omega)
      rw [hn] at h
      simp only
      split
      · exact value_mem_full n
      · rename_i hperiod
        rw [not_not] at hperiod
        have hsame : (n - ty.min) / ty.modulus = (i.low - ty.min) / ty.modulus := by
          have hle := Int.ediv_le_ediv (b := i.high - ty.min) hpos (sub_le_sub_right h.2 ty.min)
          have hge := Int.ediv_le_ediv (a := i.low - ty.min) hpos (sub_le_sub_right h.1 ty.min)
          exact le_antisymm (hperiod ▸ hle) hge
        have hvalue : ty.value n = n - (i.low - ty.min) / ty.modulus * ty.modulus := by
          have hsplit := Int.emod_add_mul_ediv (n - ty.min) ty.modulus
          rw [hsame] at hsplit
          show (n - ty.min) % ty.modulus + ty.min = _
          rw [mul_comm]
          omega
        rw [hvalue]
        exact ⟨sub_le_sub_right h.1 _, sub_le_sub_right h.2 _⟩

/-! ## The operations -/

section

variable (operation : Operation)

theorem value_apply (signed : Bool) (l r : Int) :
    ty.value (operation.apply (wrapTo ty.bits signed l) (wrapTo ty.bits signed r))
      = ty.value (operation.apply l r) := by
  refine wrapTo_congr ?_
  have hl : wrapTo ty.bits signed l % 2 ^ ty.bits = l % 2 ^ ty.bits := wrapTo_emod
  have hr : wrapTo ty.bits signed r % 2 ^ ty.bits = r % 2 ^ ty.bits := wrapTo_emod
  cases operation with
  | add => exact Int.ModEq.add hl hr
  | subtract => exact Int.ModEq.sub hl hr
  | multiply => exact Int.ModEq.mul hl hr

theorem mem_exact_reading (signed : Bool) (hl : l ∈ left) (hr : r ∈ right) (hl' : l ∈ ty.full) (hr' : r ∈ ty.full) :
    saturate (operation.apply (wrapTo ty.bits signed l) (wrapTo ty.bits signed r))
      ∈ exact operation (reading ty left signed) (reading ty right signed) :=
  mem_exact operation (mem_reading signed hl hl') (mem_reading signed hr hr')

theorem mem_arithmetic (hl : l ∈ left) (hr : r ∈ right) (hl' : l ∈ ty.full) (hr' : r ∈ ty.full) :
    ty.value (operation.apply l r) ∈ (arithmetic operation ty left right).result := by
  have hsigned : ty.value _ ∈ wrap ty _ :=
    mem_wrap (mem_exact_reading operation true hl hr hl' hr')
  have hunsigned : ty.value _ ∈ wrap ty _ :=
    mem_wrap (mem_exact_reading operation false hl hr hl' hr')
  rw [value_apply] at hsigned hunsigned
  obtain ⟨both, hmeet, hmem⟩ := mem_meet hsigned hunsigned
  simp only [arithmetic, hmeet, Option.getD_some]
  exact hmem

theorem arithmetic_flags (hl : l ∈ left) (hr : r ∈ right) (hl' : l ∈ ty.full) (hr' : r ∈ ty.full) :
    ((arithmetic operation ty left right).flags.nsw = true →
      operation.apply (wrapTo ty.bits true l) (wrapTo ty.bits true r) ∈ (ty.withSign true).full) ∧
    ((arithmetic operation ty left right).flags.nuw = true →
      operation.apply (wrapTo ty.bits false l) (wrapTo ty.bits false r) ∈ (ty.withSign false).full) := by
  refine ⟨fun hflag => ?_, fun hflag => ?_⟩
  · have hmem := mem_of_within hflag (mem_exact_reading operation true hl hr hl' hr')
    rwa [saturate_eq_of_full hmem] at hmem
  · have hmem := mem_of_within hflag (mem_exact_reading operation false hl hr hl' hr')
    rwa [saturate_eq_of_full hmem] at hmem

end

theorem saturate_small (hlow : -2 ^ 64 ≤ n) (hhigh : n ≤ 2 ^ 64) : saturate n = n := by
  unfold saturate
  omega

theorem saturate_of_full (h : n ∈ ty.full) : saturate n = n := by
  have hhalf := two_pow_half ty.pos
  have hle := two_pow_le ty
  have hmax := @intMax_sub_intMin ty.bits ty.signed ty.pos
  obtain ⟨hlow, hhigh⟩ := mem_full.mp h
  have hmin : -2 ^ 64 ≤ intMin ty.bits ty.signed ∧ intMin ty.bits ty.signed ≤ 0 := by
    cases ty.signed <;> simp only [intMin, if_true, if_false, Bool.false_eq_true] <;> omega
  exact saturate_small (by omega) (by omega)

theorem mem_cast {source : IntType} (hn : n ∈ i) (hfull : n ∈ source.full) : ty.value n ∈ cast ty i := by
  refine mem_wrap ?_
  rwa [saturate_of_full hfull]

theorem bitPattern_eq (bits : Nat) (n : Int) : (bitPattern bits n : Int) = wrapTo bits false n := by
  have hpos : (0 : Int) < 2 ^ bits := by positivity
  rw [bitPattern, Int.toNat_of_nonneg (Int.emod_nonneg _ hpos.ne'), wrapTo]
  simp [intMin]

theorem bitPattern_mem (bits : Nat) (h : 0 < bits) (n : Int) : (bitPattern bits n : Int) ≤ 2 ^ bits - 1 := by
  rw [bitPattern_eq]
  exact (wrapTo_mem h).2

theorem mem_bitAnd (hl : l ∈ left) (hr : r ∈ right) (hl' : l ∈ ty.full) (hr' : r ∈ ty.full) :
    ty.value (bitPattern ty.bits l &&& bitPattern ty.bits r : Nat) ∈ bitAnd ty left right := by
  have hle := two_pow_le ty
  have hleft := (mem_reading false hl hl').2
  have hright := (mem_reading false hr hr').2
  rw [← bitPattern_eq] at hleft hright
  have hmem := bitPattern_mem ty.bits ty.pos l
  have handl : bitPattern ty.bits l &&& bitPattern ty.bits r ≤ bitPattern ty.bits l :=
    Nat.and_le_left
  have handr : bitPattern ty.bits l &&& bitPattern ty.bits r ≤ bitPattern ty.bits r :=
    Nat.and_le_right
  refine mem_wrap ?_
  rw [saturate_small (by omega) (by omega)]
  simp only [mem_iff]
  omega

theorem mem_remainder (hl : l ∈ left) (hr : r ∈ right) (h : r ≠ 0) (hr' : r ∈ ty.full) :
    l.tmod r ∈ remainder ty left right := by
  have habs : (l.tmod r).natAbs = l.natAbs % r.natAbs := Int.natAbs_tmod l r
  have hlt : l.natAbs % r.natAbs < r.natAbs := Nat.mod_lt _ (by omega)
  have hle : l.natAbs % r.natAbs ≤ l.natAbs := Nat.mod_le _ _
  have hsmall := saturate_of_full hr'
  unfold saturate at hsmall
  obtain ⟨hr₁, hr₂⟩ := hr
  obtain ⟨hl₁, hl₂⟩ := hl
  unfold remainder
  simp only
  rw [if_neg (by omega)]
  rcases le_total 0 l with hl | hl
  · have hsign : 0 ≤ l.tmod r := Int.tmod_nonneg _ hl
    simp only [mem_iff]
    refine ⟨?_, ?_⟩ <;> split <;> omega
  · have hsign : l.tmod r ≤ 0 := by
      have := Int.tmod_nonneg r (neg_nonneg.mpr hl)
      rw [Int.neg_tmod] at this
      omega
    simp only [mem_iff]
    refine ⟨?_, ?_⟩ <;> split <;> omega

theorem tdiv_between_left (hd : 0 < d) (hl : l ∈ left) : left.low.tdiv d ≤ l.tdiv d ∧ l.tdiv d ≤ left.high.tdiv d :=
  ⟨Int.tdiv_le_tdiv hd hl.1, Int.tdiv_le_tdiv hd hl.2⟩

theorem tdiv_between_right (hpos : 0 < low) (hlow : low ≤ d) (hhigh : d ≤ high) :
    min (l.tdiv low) (l.tdiv high) ≤ l.tdiv d ∧ l.tdiv d ≤ max (l.tdiv low) (l.tdiv high) := by
  have hnat : ∀ n : Nat, (n : Int).tdiv high ≤ (n : Int).tdiv d ∧ (n : Int).tdiv d ≤ (n : Int).tdiv low := by
    intro n
    lift low to Nat using hpos.le
    lift d to Nat using by omega
    lift high to Nat using by omega
    refine ⟨Int.ofNat_le.mpr (Nat.div_le_div_left ?_ ?_), Int.ofNat_le.mpr (Nat.div_le_div_left ?_ ?_)⟩
    all_goals omega
  rcases le_total 0 l with hl | hl
  · obtain ⟨n, rfl⟩ := Int.eq_ofNat_of_zero_le hl
    have := hnat n
    omega
  · obtain ⟨n, hn⟩ := Int.eq_ofNat_of_zero_le (neg_nonneg.mpr hl)
    obtain rfl : l = -n := by omega
    simp only [Int.neg_tdiv]
    have := hnat n
    omega

theorem mem_quotients_pos (hpos : 0 < divisor.low) (hl : l ∈ left) (hr : r ∈ divisor) :
    l.tdiv r ∈ quotients left divisor := by
  have hdivisor := @tdiv_between_left left l r (lt_of_lt_of_le hpos hr.1) hl
  have hlow := @tdiv_between_right left.low _ _ _ hpos hr.1 hr.2
  have hhigh := @tdiv_between_right left.high _ _ _ hpos hr.1 hr.2
  simp only [quotients, mem_iff]
  omega

theorem mem_quotients_neg (hneg : divisor.high < 0) (hl : l ∈ left) (hr : r ∈ divisor) :
    l.tdiv r ∈ quotients left divisor := by
  have hmirror : (-r) ∈ (⟨-divisor.high, -divisor.low⟩ : Interval) :=
    ⟨neg_le_neg hr.2, neg_le_neg hr.1⟩
  have hmem := mem_quotients_pos (by show 0 < -divisor.high; omega) hl hmirror
  simp only [quotients, mem_iff, Int.tdiv_neg] at hmem ⊢
  omega

theorem mem_addQuotients (h : n ∈ quotients left divisor ∨ ∃ k, known = some k ∧ n ∈ k) :
    ∃ k, addQuotients left known divisor = some k ∧ n ∈ k := by
  refine ⟨_, rfl, ?_⟩
  rcases h with h | ⟨k, rfl, h⟩
  · cases known with
    | none => exact h
    | some known => exact mem_hull_right h
  · exact mem_hull_left h

theorem mem_foldl_quotients {pieces : List Interval}
    (h : (∃ divisor ∈ pieces, n ∈ quotients left divisor) ∨ ∃ k, known = some k ∧ n ∈ k) :
    ∃ k, pieces.foldl (addQuotients left) known = some k ∧ n ∈ k := by
  induction pieces generalizing known with
  | nil =>
    obtain ⟨_, hmem, -⟩ | h := h
    · cases hmem
    · exact h
  | cons divisor pieces ih =>
    obtain ⟨d, hmem, hn⟩ | hknown := h
    · rcases List.mem_cons.mp hmem with rfl | hmem
      · exact ih (.inr (mem_addQuotients (.inl hn)))
      · exact ih (.inl ⟨d, hmem, hn⟩)
    · exact ih (.inr (mem_addQuotients (.inr hknown)))

theorem meet_bounds {k : Interval} (h : i.meet j = some k) : j.low ≤ k.low ∧ k.high ≤ j.high := by
  unfold meet at h
  simp only [Option.ite_none_right_eq_some, Option.some.injEq] at h
  obtain ⟨-, rfl⟩ := h
  exact ⟨le_max_right _ _, min_le_right _ _⟩

theorem mem_divide (hl : l ∈ left) (hr : r ∈ right) (h : r ≠ 0) (hr' : r ∈ ty.full)
    (hquotient : l.tdiv r ∈ ty.full) : l.tdiv r ∈ divide ty left right := by
  have hsmall := saturate_of_full hr'
  unfold saturate at hsmall
  have hpiece : ∃ divisor ∈ List.reduceOption [right.meet ⟨-2 ^ 127, -1⟩, right.meet ⟨1, 2 ^ 127 - 1⟩],
      l.tdiv r ∈ quotients left divisor := by
    rcases lt_or_gt_of_ne h with hneg | hpos
    · have hside : r ∈ (⟨-2 ^ 127, -1⟩ : Interval) := by
        simp only [mem_iff]
        omega
      obtain ⟨divisor, hmeet, hmem⟩ := mem_meet hr hside
      have hbounds : divisor.high ≤ -1 := (meet_bounds hmeet).2
      exact ⟨divisor, List.mem_filterMap.mpr ⟨_, List.mem_cons_self, hmeet⟩, mem_quotients_neg (by omega) hl hmem⟩
    · have hside : r ∈ (⟨1, 2 ^ 127 - 1⟩ : Interval) := by
        simp only [mem_iff]
        omega
      obtain ⟨divisor, hmeet, hmem⟩ := mem_meet hr hside
      have hbounds : 1 ≤ divisor.low := (meet_bounds hmeet).1
      exact ⟨divisor, List.mem_filterMap.mpr ⟨_, List.mem_cons_of_mem _ List.mem_cons_self, hmeet⟩,
        mem_quotients_pos (by omega) hl hmem⟩
  have hsome : _ ∨ ∃ k, (none : Option Interval) = some k ∧ l.tdiv r ∈ k := .inl hpiece
  obtain ⟨quotient, hfold, hmem⟩ := mem_foldl_quotients hsome
  obtain ⟨both, hmeet, hboth⟩ := mem_meet hmem hquotient
  simp only [divide, hfold, Option.bind_some, hmeet, Option.getD_some]
  exact hboth

theorem mem_shiftRight (count : Nat) (hl : l ∈ left) : l >>> count ∈ shiftRight left count := by
  have hpos : (0 : Int) < 2 ^ count := by positivity
  simp only [shiftRight, mem_iff, Int.shiftRight_eq_div_pow]
  exact ⟨Int.ediv_le_ediv (by exact_mod_cast hpos) hl.1, Int.ediv_le_ediv (by exact_mod_cast hpos) hl.2⟩

theorem mem_shiftRightLogical (count : Nat) (hl : l ∈ left) (hl' : l ∈ ty.full) :
    ty.value (bitPattern ty.bits l >>> count : Nat) ∈ shiftRightLogical ty left count := by
  have hle := two_pow_le ty
  have hmem := bitPattern_mem ty.bits ty.pos l
  have hshift : bitPattern ty.bits l >>> count ≤ bitPattern ty.bits l := Nat.shiftRight_le _ _
  refine mem_wrap ?_
  rw [saturate_small (le_trans (by decide) (Int.natCast_nonneg _)) (by omega), Int.natCast_shiftRight, bitPattern_eq]
  exact mem_shiftRight count (mem_reading false hl hl')

theorem mem_complement (hl : l ∈ left) (hl' : l ∈ ty.full) : ty.value (-l - 1) ∈ complement ty left := by
  have hhalf := two_pow_half ty.pos
  have hmax := @intMax_sub_intMin ty.bits ty.signed ty.pos
  obtain ⟨hlow, hhigh⟩ := mem_full.mp hl'
  obtain ⟨hl₁, hl₂⟩ := hl
  unfold complement
  split
  · rename_i hsigned
    have hmin : intMin ty.bits ty.signed = -(2 ^ ty.bits / 2) := if_pos hsigned
    have hvalue : ty.value (-l - 1) = -l - 1 := value_eq_self (mem_full.mpr (by omega))
    rw [hvalue]
    simp only [mem_iff]
    omega
  · rename_i hunsigned
    have hmin : intMin ty.bits ty.signed = 0 := if_neg hunsigned
    have hvalue : ty.value (-l - 1) = -l - 1 - -1 * 2 ^ ty.bits :=
      wrapTo_eq ty.pos (-1) (by omega) (by omega)
    rw [hvalue]
    simp only [mem_iff, IntType.max]
    omega

theorem mem_shiftLeft (count : Nat) (hl : l ∈ left) : ty.value (l * 2 ^ count) ∈ shiftLeft ty left count :=
  mem_wrap (mem_exact .multiply hl ⟨le_refl _, le_refl _⟩)

end Interval

end Tsuzuri
