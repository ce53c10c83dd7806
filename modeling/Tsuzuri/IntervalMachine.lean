import Tsuzuri.Interval
import Mathlib.Tactic.NormNum

/-!
# Intervals and the machine

The machine's operations on bit patterns, and the 128-bit arithmetic of the source, where an overflow and a reversed
interval end the computation.
-/

namespace Tsuzuri

open Option

/-! ## Bit patterns -/

namespace IntType

variable (ty : IntType)

def toBits (n : Int) : BitVec ty.bits := BitVec.ofInt ty.bits n

def ofBits (b : BitVec ty.bits) : Int := if ty.signed then b.toInt else b.toNat

def castBits (target : IntType) (b : BitVec ty.bits) : BitVec target.bits :=
  if ty.signed then b.signExtend target.bits else b.setWidth target.bits

def divideBits (x y : BitVec ty.bits) : BitVec ty.bits := if ty.signed then x.sdiv y else x / y

def remainderBits (x y : BitVec ty.bits) : BitVec ty.bits := if ty.signed then x.srem y else x % y

def shiftRightBits (x : BitVec ty.bits) (count : Nat) : BitVec ty.bits :=
  if ty.signed then x.sshiftRight count else x >>> count

end IntType

namespace Operation

variable {w : Nat}

def onBits : Operation → BitVec w → BitVec w → BitVec w
  | .add, x, y => x + y
  | .subtract, x, y => x - y
  | .multiply, x, y => x * y

def signedOverflow : Operation → BitVec w → BitVec w → Bool
  | .add => BitVec.saddOverflow
  | .subtract => BitVec.ssubOverflow
  | .multiply => BitVec.smulOverflow

def unsignedOverflow : Operation → BitVec w → BitVec w → Bool
  | .add => BitVec.uaddOverflow
  | .subtract => BitVec.usubOverflow
  | .multiply => BitVec.umulOverflow

end Operation

section Bits

variable {ty : IntType} {n l r : Int}

theorem toInt_toBits (ty : IntType) (n : Int) : (ty.toBits n).toInt = wrapTo ty.bits true n := by
  have hhalf := two_pow_half ty.pos
  have hpos : (0 : Int) < 2 ^ ty.bits := by positivity
  have hcast : ((2 ^ ty.bits : Nat) : Int) = 2 ^ ty.bits := by push_cast; rfl
  have hlow := Int.le_bmod (x := n) (m := 2 ^ ty.bits) (by positivity)
  have hhigh := Int.bmod_lt (x := n) (m := 2 ^ ty.bits) (by positivity)
  rw [hcast] at hlow hhigh
  have hmin : intMin ty.bits true = -(2 ^ ty.bits / 2) := rfl
  have hmax : intMax ty.bits true = 2 ^ ty.bits / 2 - 1 := rfl
  have hsame : n.bmod (2 ^ ty.bits) % 2 ^ ty.bits = n % 2 ^ ty.bits := by
    have := Int.bmod_emod (x := n) (m := 2 ^ ty.bits)
    rwa [hcast] at this
  rw [IntType.toBits, BitVec.toInt_ofInt, ← @wrapTo_congr _ true _ _ hsame, wrapTo_eq_self ty.pos (by omega) (by omega)]

theorem toNat_toBits (ty : IntType) (n : Int) : ((ty.toBits n).toNat : Int) = wrapTo ty.bits false n := by
  have hpos : (0 : Int) < 2 ^ ty.bits := by positivity
  rw [IntType.toBits, BitVec.toNat_ofInt, wrapTo]
  have hcast : ((2 ^ ty.bits : Nat) : Int) = 2 ^ ty.bits := by push_cast; rfl
  rw [hcast, Int.toNat_of_nonneg (Int.emod_nonneg _ hpos.ne')]
  simp [intMin]

@[simp] theorem ofBits_toBits (ty : IntType) (n : Int) : ty.ofBits (ty.toBits n) = ty.value n := by
  unfold IntType.ofBits IntType.value
  cases hsigned : ty.signed with
  | true => rw [if_pos rfl, toInt_toBits]
  | false => rw [if_neg Bool.false_ne_true, toNat_toBits]

theorem onBits_toBits (operation : Operation) (ty : IntType) (l r : Int) :
    operation.onBits (ty.toBits l) (ty.toBits r) = ty.toBits (operation.apply l r) := by
  cases operation with
  | add => exact (BitVec.ofInt_add l r).symm
  | subtract =>
    apply BitVec.eq_of_toInt_eq
    have hcast : ((2 ^ ty.bits : Nat) : Int) = 2 ^ ty.bits := by push_cast; rfl
    have hmod : (wrapTo ty.bits true l - wrapTo ty.bits true r) % (2 ^ ty.bits : Nat) =
        (l - r) % (2 ^ ty.bits : Nat) := by
      rw [hcast]
      exact Int.ModEq.sub wrapTo_emod wrapTo_emod
    rw [Operation.onBits, BitVec.toInt_sub, toInt_toBits, toInt_toBits, IntType.toBits, BitVec.toInt_ofInt]
    rw [← Int.emod_bmod, hmod, Int.emod_bmod]
    rfl
  | multiply => exact (BitVec.ofInt_mul l r).symm

theorem signedOverflow_eq_false {w : Nat} (operation : Operation) (h : 0 < w) (x y : BitVec w) :
    operation.signedOverflow x y = false ↔
      intMin w true ≤ operation.apply x.toInt y.toInt ∧ operation.apply x.toInt y.toInt ≤ intMax w true := by
  have hhalf : (2 : Int) ^ w / 2 = 2 ^ (w - 1) := by
    obtain ⟨b, rfl⟩ := Nat.exists_eq_succ_of_ne_zero h.ne'
    rw [pow_succ, Int.mul_ediv_cancel _ two_ne_zero]
    rfl
  have hmin : intMin w true = -(2 ^ w / 2) := rfl
  have hmax : intMax w true = 2 ^ w / 2 - 1 := rfl
  rw [hmin, hmax, hhalf]
  cases operation <;>
    simp only [Operation.signedOverflow, Operation.apply, BitVec.saddOverflow, BitVec.ssubOverflow,
      BitVec.smulOverflow, Bool.or_eq_false_iff, decide_eq_false_iff_not] <;> omega

theorem unsignedOverflow_eq_false {w : Nat} (operation : Operation) (x y : BitVec w) :
    operation.unsignedOverflow x y = false ↔
      intMin w false ≤ operation.apply x.toNat y.toNat ∧ operation.apply x.toNat y.toNat ≤ intMax w false := by
  have hmin : intMin w false = 0 := rfl
  have hmax : intMax w false = ((2 ^ w : Nat) : Int) - 1 := by push_cast; rfl
  have hx := x.isLt
  have hy := y.isLt
  rw [hmin, hmax]
  cases operation with
  | add | subtract =>
    simp only [Operation.unsignedOverflow, Operation.apply, BitVec.uaddOverflow, BitVec.usubOverflow,
      decide_eq_false_iff_not]
    omega
  | multiply =>
    simp only [Operation.unsignedOverflow, Operation.apply, BitVec.umulOverflow, decide_eq_false_iff_not]
    rw [← Nat.cast_mul]
    omega

end Bits

/-! ## The arithmetic of the source -/

namespace Interval

def Inside (ty : IntType) (i : Interval) : Prop := i.low ≤ i.high ∧ ty.min ≤ i.low ∧ i.high ≤ ty.max

def Crosses (ty : IntType) (i : Interval) : Prop :=
  let edge := if ty.signed then 0 else ty.modulus / 2
  i.low < edge ∧ edge ≤ i.high

instance decidableInside (ty : IntType) (i : Interval) : Decidable (i.Inside ty) :=
  inferInstanceAs (Decidable (_ ∧ _ ∧ _))

def checked (n : Int) : Option Int := if -2 ^ 127 ≤ n ∧ n ≤ 2 ^ 127 - 1 then some n else none

/-- `Interval::new` with its assertion. -/
def newChecked (low high : Int) : Option Interval := if low ≤ high then some ⟨low, high⟩ else none

def modulusChecked (ty : IntType) : Option Int := checked (2 ^ ty.bits)

def minChecked (ty : IntType) : Option Int := do
  if ty.signed then checked (-((← modulusChecked ty) / 2)) else some 0

def maxChecked (ty : IntType) : Option Int := do
  if ty.signed then checked ((← modulusChecked ty) / 2 - 1) else checked ((← modulusChecked ty) - 1)

def fullChecked (ty : IntType) : Option Interval := do
  some ⟨← minChecked ty, ← maxChecked ty⟩

def readingChecked (ty : IntType) (i : Interval) (signed : Bool) : Option Interval := do
  if ty.signed = signed then some i
  else
    let modulus ← modulusChecked ty
    if signed then
      if i.high < modulus / 2 then some i
      else if i.low ≥ modulus / 2 then newChecked (← checked (i.low - modulus)) (← checked (i.high - modulus))
      else fullChecked (ty.withSign true)
    else if i.low ≥ 0 then some i
    else if i.high < 0 then newChecked (← checked (i.low + modulus)) (← checked (i.high + modulus))
    else fullChecked (ty.withSign false)

def exactChecked (operation : Operation) (left right : Interval) : Option Interval :=
  let i := exact operation left right
  newChecked i.low i.high

def wrapChecked (ty : IntType) (i : Interval) : Option Interval := do
  let full ← fullChecked ty
  if i.within full then some i
  else if i.low < -limit ∨ i.high > limit then some full
  else
    let modulus ← modulusChecked ty
    let period := fun value => do checked ((← checked (value - (← minChecked ty))) / modulus)
    if (← period i.low) ≠ (← period i.high) then some full
    else
      let shift ← checked ((← period i.low) * modulus)
      newChecked (← checked (i.low - shift)) (← checked (i.high - shift))

def meetChecked (i j : Interval) : Option (Option Interval) :=
  let low := max i.low j.low
  let high := min i.high j.high
  if low ≤ high then (newChecked low high).map some else some none

def arithmeticChecked (operation : Operation) (ty : IntType) (left right : Interval) : Option Outcome := do
  let signed := ty.withSign true
  let unsigned := ty.withSign false
  let asSigned ← exactChecked operation (← readingChecked ty left true) (← readingChecked ty right true)
  let asUnsigned ← exactChecked operation (← readingChecked ty left false) (← readingChecked ty right false)
  let common ← meetChecked (← wrapChecked ty asSigned) (← wrapChecked ty asUnsigned)
  let result ← match common with
    | some result => some result
    | none => fullChecked ty
  some
    { flags := { nsw := asSigned.within (← fullChecked signed), nuw := asUnsigned.within (← fullChecked unsigned) }
      result := result }

section Checked

variable {ty : IntType} {i j left right : Interval} {n l r : Int} {signed : Bool}

theorem checked_eq (hlow : -2 ^ 127 ≤ n) (hhigh : n ≤ 2 ^ 127 - 1) : checked n = some n := if_pos ⟨hlow, hhigh⟩

theorem newChecked_eq {low high : Int} (h : low ≤ high) : newChecked low high = some ⟨low, high⟩ := if_pos h

theorem modulus_bounds (ty : IntType) : ty.modulus = 2 * (ty.modulus / 2) ∧ 2 ≤ ty.modulus ∧ ty.modulus ≤ 2 ^ 64 := by
  have hhalf : ty.modulus = 2 * (ty.modulus / 2) := two_pow_half ty.pos
  have hpos : 0 < ty.modulus := by
    unfold IntType.modulus
    positivity
  exact ⟨hhalf, by omega, two_pow_le ty⟩

theorem min_max_signed (h : ty.signed = true) : ty.min = -(ty.modulus / 2) ∧ ty.max = ty.modulus / 2 - 1 := by
  unfold IntType.min IntType.max IntType.modulus
  rw [h]
  exact ⟨rfl, rfl⟩

theorem min_max_unsigned (h : ty.signed = false) : ty.min = 0 ∧ ty.max = ty.modulus - 1 := by
  unfold IntType.min IntType.max IntType.modulus
  rw [h]
  exact ⟨rfl, rfl⟩

section

variable (ty : IntType)

theorem min_max : (ty.signed = true ∧ ty.min = -(ty.modulus / 2) ∧ ty.max = ty.modulus / 2 - 1) ∨
    (ty.signed = false ∧ ty.min = 0 ∧ ty.max = ty.modulus - 1) := by
  cases h : ty.signed with
  | true => exact .inl ⟨rfl, min_max_signed h⟩
  | false => exact .inr ⟨rfl, min_max_unsigned h⟩

theorem modulusChecked_eq : modulusChecked ty = some ty.modulus := by
  obtain ⟨hhalf, hpos, hle⟩ := modulus_bounds ty
  exact checked_eq (n := ty.modulus) (by omega) (by omega)

theorem minChecked_eq : minChecked ty = some ty.min := by
  obtain ⟨hhalf, hpos, hle⟩ := modulus_bounds ty
  unfold minChecked
  rcases min_max ty with ⟨hs, hmin, -⟩ | ⟨hs, hmin, -⟩
  · rw [hs, if_pos rfl, modulusChecked_eq, hmin]
    exact checked_eq (by omega) (by omega)
  · rw [hs, if_neg Bool.false_ne_true, hmin]

theorem maxChecked_eq : maxChecked ty = some ty.max := by
  obtain ⟨hhalf, hpos, hle⟩ := modulus_bounds ty
  unfold maxChecked
  rw [modulusChecked_eq]
  rcases min_max ty with ⟨hs, -, hmax⟩ | ⟨hs, -, hmax⟩
  · rw [hs, if_pos rfl, hmax]
    exact checked_eq (by omega) (by omega)
  · rw [hs, if_neg Bool.false_ne_true, hmax]
    exact checked_eq (by omega) (by omega)

theorem fullChecked_eq : fullChecked ty = some ty.full := by
  rw [fullChecked, minChecked_eq, maxChecked_eq]
  rfl

theorem inside_full : ty.full.Inside ty := by
  obtain ⟨hhalf, hpos, hle⟩ := modulus_bounds ty
  refine ⟨?_, le_refl _, le_refl _⟩
  change ty.min ≤ ty.max
  rcases min_max ty with ⟨-, hmin, hmax⟩ | ⟨-, hmin, hmax⟩ <;> omega

end

theorem Inside.full (h : i.Inside ty) (hn : n ∈ i) : n ∈ ty.full :=
  ⟨h.2.1.trans hn.1, hn.2.trans h.2.2⟩

theorem Inside.low_mem (h : i.Inside ty) : i.low ∈ i := ⟨le_refl _, h.1⟩

theorem Inside.high_mem (h : i.Inside ty) : i.high ∈ i := ⟨h.1, le_refl _⟩

theorem reading_checked (signed : Bool) (h : i.Inside ty) :
    readingChecked ty i signed = some (reading ty i signed) ∧ (reading ty i signed).Inside (ty.withSign signed) := by
  obtain ⟨hhalf, hpos, hle⟩ := modulus_bounds ty
  obtain ⟨hle', hlow, hhigh⟩ := h
  unfold readingChecked reading
  by_cases hsame : ty.signed = signed
  · rw [if_pos hsame, if_pos hsame]
    refine ⟨rfl, hle', ?_⟩
    subst hsame
    exact ⟨hlow, hhigh⟩
  · rw [if_neg hsame, if_neg hsame, modulusChecked_eq]
    simp only [bind_eq_bind, bind_some]
    cases signed with
    | true =>
      rw [if_pos rfl, if_pos rfl]
      have hs : ty.signed = false := by simpa using hsame
      have hrange := min_max_unsigned hs
      have hrange' : (ty.withSign true).min = -(ty.modulus / 2) ∧ (ty.withSign true).max = ty.modulus / 2 - 1 :=
        min_max_signed rfl
      split
      · exact ⟨rfl, hle', by omega, by omega⟩
      · split
        · rw [checked_eq (by omega) (by omega), checked_eq (by omega) (by omega)]
          refine ⟨newChecked_eq (by omega), ?_, ?_, ?_⟩ <;> simp only <;> omega
        · exact ⟨fullChecked_eq _, inside_full _⟩
    | false =>
      rw [if_neg Bool.false_ne_true, if_neg Bool.false_ne_true]
      have hs : ty.signed = true := by simpa using hsame
      have hrange := min_max_signed hs
      have hrange' : (ty.withSign false).min = 0 ∧ (ty.withSign false).max = ty.modulus - 1 :=
        min_max_unsigned rfl
      split
      · exact ⟨rfl, hle', by omega, by omega⟩
      · split
        · rw [checked_eq (by omega) (by omega), checked_eq (by omega) (by omega)]
          refine ⟨newChecked_eq (by omega), ?_, ?_, ?_⟩ <;> simp only <;> omega
        · exact ⟨fullChecked_eq _, inside_full _⟩

theorem exact_checked (operation : Operation) (hl : left.low ≤ left.high) (hr : right.low ≤ right.high) :
    exactChecked operation left right = some (exact operation left right) ∧
      (exact operation left right).low ≤ (exact operation left right).high := by
  have hle : (exact operation left right).low ≤ (exact operation left right).high := by
    have hmem := mem_exact operation (l := left.low) (r := right.low) ⟨le_refl _, hl⟩ ⟨le_refl _, hr⟩
    exact hmem.1.trans hmem.2
  exact ⟨newChecked_eq hle, hle⟩

theorem wrap_checked (ty : IntType) (h : i.low ≤ i.high) :
    wrapChecked ty i = some (wrap ty i) ∧ (wrap ty i).Inside ty := by
  obtain ⟨hhalf, hpos, hle⟩ := modulus_bounds ty
  have hrange : ty.max = ty.min + ty.modulus - 1 ∧ -2 ^ 64 ≤ ty.min ∧ ty.min ≤ 0 := by
    rcases min_max ty with ⟨-, hmin, hmax⟩ | ⟨-, hmin, hmax⟩ <;> omega
  unfold wrapChecked wrap
  rw [fullChecked_eq, modulusChecked_eq, minChecked_eq]
  simp only [bind_eq_bind, bind_some]
  split
  · rename_i hwithin
    simp only [within, Bool.and_eq_true, decide_eq_true_eq] at hwithin
    exact ⟨rfl, h, hwithin⟩
  · split
    · exact ⟨rfl, inside_full ty⟩
    · rename_i hlimit
      rw [not_or, not_lt, not_lt, limit] at hlimit
      have hperiod : ∀ value, -2 ^ 100 ≤ value → value ≤ 2 ^ 100 →
          ((checked (value - ty.min)).bind fun a => checked (a / ty.modulus)) =
            some ((value - ty.min) / ty.modulus) := by
        intro value hlow hhigh
        rw [checked_eq (by omega) (by omega)]
        have hdown := Int.ediv_mul_le (value - ty.min) (b := ty.modulus) (by omega)
        have hup := Int.lt_ediv_add_one_mul_self (value - ty.min) (b := ty.modulus) (by omega)
        refine checked_eq ?_ ?_ <;> by_contra hout <;> nlinarith
      rw [hperiod _ (by omega) (by omega), hperiod _ (by omega) (by omega)]
      simp only [bind_some]
      have hlow := Int.ediv_mul_le (i.low - ty.min) (b := ty.modulus) (by omega)
      have hlow' := Int.lt_ediv_add_one_mul_self (i.low - ty.min) (b := ty.modulus) (by omega)
      have hhigh := Int.ediv_mul_le (i.high - ty.min) (b := ty.modulus) (by omega)
      have hhigh' := Int.lt_ediv_add_one_mul_self (i.high - ty.min) (b := ty.modulus) (by omega)
      rw [add_mul, one_mul] at hlow' hhigh'
      split
      · exact ⟨rfl, inside_full ty⟩
      · rename_i hsame
        rw [not_not] at hsame
        rw [← hsame] at hhigh hhigh'
        generalize (i.low - ty.min) / ty.modulus * ty.modulus = shift at hlow hlow' hhigh hhigh'
        rw [checked_eq (n := shift) (by omega) (by omega)]
        simp only [bind_some]
        rw [checked_eq (by omega) (by omega), checked_eq (by omega) (by omega)]
        refine ⟨newChecked_eq (by omega), ?_, ?_, ?_⟩ <;> simp only <;> omega

theorem meet_checked (i j : Interval) : meetChecked i j = some (i.meet j) := by
  unfold meetChecked meet
  simp only
  split
  · rename_i hle
    rw [newChecked_eq hle]
    rfl
  · rfl

theorem inside_meet (hi : i.Inside ty) {k : Interval} (h : i.meet j = some k) : k.Inside ty := by
  unfold meet at h
  simp only [ite_none_right_eq_some, Option.some.injEq] at h
  obtain ⟨hle, rfl⟩ := h
  exact ⟨hle, le_max_of_le_left hi.2.1, min_le_of_left_le hi.2.2⟩

theorem inside_getD (ty : IntType) {o : Option Interval} (h : ∀ k, o = some k → k.Inside ty) :
    (o.getD ty.full).Inside ty := by
  cases o with
  | none => exact inside_full ty
  | some k => exact h k rfl

theorem arithmetic_checked (operation : Operation) (hl : left.Inside ty) (hr : right.Inside ty) :
    arithmeticChecked operation ty left right = some (arithmetic operation ty left right) ∧
      (arithmetic operation ty left right).result.Inside ty := by
  obtain ⟨hls, hls'⟩ := reading_checked true hl
  obtain ⟨hrs, hrs'⟩ := reading_checked true hr
  obtain ⟨hlu, hlu'⟩ := reading_checked false hl
  obtain ⟨hru, hru'⟩ := reading_checked false hr
  obtain ⟨hsigned, hsigned'⟩ := exact_checked operation hls'.1 hrs'.1
  obtain ⟨hunsigned, hunsigned'⟩ := exact_checked operation hlu'.1 hru'.1
  obtain ⟨hws, hws'⟩ := wrap_checked ty hsigned'
  obtain ⟨hwu, hwu'⟩ := wrap_checked ty hunsigned'
  constructor
  · simp only [arithmeticChecked, arithmetic, hls, hrs, hlu, hru, hsigned, hunsigned, hws, hwu, meet_checked,
      fullChecked_eq, bind_eq_bind, bind_some]
    cases (wrap ty (exact operation (reading ty left true) (reading ty right true))).meet
      (wrap ty (exact operation (reading ty left false) (reading ty right false))) <;> rfl
  · exact inside_getD ty fun k hk => inside_meet hws' hk

end Checked

end Interval

end Tsuzuri
