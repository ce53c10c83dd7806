import Tsuzuri.Constants
import Mathlib.Data.Int.ModEq

/-!
# Operators on constants

`constants.rs` keeps an integer as the bits of a `u128`; an answer is `none` where the host would panic. The constants
of the floating types are a parameter.
-/

namespace Tsuzuri.Constants

abbrev U128 := BitVec 128

def U128.shl (x : U128) (n : Nat) : Option U128 := if n < 128 then some (x <<< n) else none

def U128.shr (x : U128) (n : Nat) : Option U128 := if n < 128 then some (x >>> n) else none

def U128.sar (x : U128) (n : Nat) : Option U128 :=
  if n < 128 then some (x.sshiftRight n) else none

def U128.div (x y : U128) : Option U128 := if y = 0 then none else some (x / y)

def U128.rem (x y : U128) : Option U128 := if y = 0 then none else some (x % y)

def U128.Divides (x y : U128) : Prop := y ≠ 0 ∧ ¬ (x = BitVec.intMin 128 ∧ y = -1)

instance (x y : U128) : Decidable (x.Divides y) := inferInstanceAs (Decidable (_ ∧ _))

def U128.sdiv (x y : U128) : Option U128 := if x.Divides y then some (BitVec.sdiv x y) else none

def U128.srem (x y : U128) : Option U128 := if x.Divides y then some (BitVec.srem x y) else none

def u16Sub (m n : Nat) : Option Nat := if n ≤ m then some (m - n) else none

/-! ## The operators -/

def mask (bits : Nat) : Option U128 := do
  U128.shr (BitVec.allOnes 128) (← u16Sub 128 bits)

def signed (value : U128) (bits : Nat) : Option U128 := do
  (← value.shl (← u16Sub 128 bits)).sar (← u16Sub 128 bits)

/-- The floating constants: `-` on a text, `float_binary`, an integer of a text, and `to_float`. -/
structure Floats where
  negate : Ty → String → Option String
  binary : Nat → BinaryOp → String → String → Span → Option (Except Diagnostic TypedExprKind)
  toInteger : String → Nat → Nat → Bool → Option U128
  toFloat : Nat → TypedExpr → Span → Option (Except Diagnostic TypedExprKind)

def unsupported (span : Span) (message : String) : Except Diagnostic TypedExprKind :=
  .error ⟨.constUnsupportedOperation, span, message⟩

def trapped (span : Span) (message : String) : Except Diagnostic TypedExprKind :=
  .error ⟨.constEvaluationTrapped, span, message⟩

def divisionTrap : String :=
  "const division trapped on zero or signed overflow; use a nonzero divisor without overflow"

def powerTrap : String := "const power trapped on a negative exponent; use a nonnegative exponent"

def unsupportedUnary : String := "this const unary operation is unsupported; use a runtime let"

def unsupportedInteger : String := "unsupported const integer operation; use a runtime let"

def int (x : U128) : TypedExprKind := .int x.toNat

def unary (floats : Floats) (operator : UnaryOp) (value : TypedExpr) (span : Span) :
    Option (Except Diagnostic TypedExprKind) :=
  match operator, value.kind, value.ty with
  | .not, .bool b, _ => some (.ok (.bool !b))
  | .plus, .int _, .integer .. | .plus, .int _, .binary _
  | .plus, .float _, .integer .. | .plus, .float _, .binary _ => some (.ok value.kind)
  | .negate, .int n, .integer bits _ => do
    return .ok (int (-BitVec.ofNat 128 n &&& (← mask bits)))
  | .bitNot, .int n, .integer bits _ => do
    return .ok (int (~~~BitVec.ofNat 128 n &&& (← mask bits)))
  | .negate, .float text, .binary bits => do
    return .ok (.float (← floats.negate (.binary bits) text))
  | .negate, .float text, .decimal bits => do
    return .ok (.float (← floats.negate (.decimal bits) text))
  | _, _, _ => some (unsupported span unsupportedUnary)

def comparison (operator : BinaryOp) (order : Option Ordering) : Bool :=
  match operator with
  | .equal => order == some .eq
  | .notEqual => order != some .eq
  | .less => order == some .lt
  | .lessEqual => order == some .lt || order == some .eq
  | .greater => order == some .gt
  | .greaterEqual => order == some .gt || order == some .eq
  | _ => false

def comparing (operator : BinaryOp) : Bool :=
  operator matches .equal | .notEqual | .less | .lessEqual | .greater | .greaterEqual

def power (base exponent product : U128) : U128 :=
  if exponent = 0 then product
  else power (base * base) (exponent >>> 1) (if exponent &&& 1 = 1 then product * base else product)
termination_by exponent.toNat
decreasing_by
  have hne : exponent.toNat ≠ 0 := fun h => ‹exponent ≠ 0› (BitVec.eq_of_toNat_eq h)
  rw [BitVec.toNat_ushiftRight, Nat.shiftRight_succ, Nat.shiftRight_zero]
  omega

/-- The operators of `binary` that have an integer as their result. -/
def arithmetic (operator : BinaryOp) (left right : U128) (bits : Nat) (isSigned : Bool) : Option (Option U128) := do
  let shift := (right &&& BitVec.ofNat 128 (← u16Sub bits 1)).toNat % 2 ^ 32
  match operator, isSigned with
  | .add, _ => return some (left + right)
  | .subtract, _ => return some (left - right)
  | .multiply, _ => return some (left * right)
  | .power, _ => return some (power left right 1)
  | .divide, true => return some (← (← signed left bits).sdiv (← signed right bits))
  | .divide, false => return some (← left.div right)
  | .remainder, true => return some (← (← signed left bits).srem (← signed right bits))
  | .remainder, false => return some (← left.rem right)
  | .bitAnd, _ => return some (left &&& right)
  | .bitOr, _ => return some (left ||| right)
  | .bitXor, _ => return some (left ^^^ right)
  | .shiftLeft, _ => return some (left <<< (shift % 128))
  | .shiftRight, true => return some (← (← signed left bits).sar shift)
  | .shiftRight, false | .shiftRightUnsigned, _ => return some (← left.shr shift)
  | _, _ => return none

def integers (operator : BinaryOp) (left right : U128) (bits : Nat) (isSigned : Bool) (span : Span) :
    Option (Except Diagnostic TypedExprKind) := do
  if comparing operator then
    let order ← if isSigned then do
        pure (compare (← signed left bits).toInt (← signed right bits).toInt)
      else some (compare left.toNat right.toNat)
    return .ok (.bool (comparison operator (some order)))
  -- What the source looks at only behind `&&` is found at once here, which may only add panics.
  if (operator = .divide ∨ operator = .remainder) ∧ (right = 0 ∨
      isSigned ∧ left = (← U128.shl 1 (← u16Sub bits 1)) ∧ right = (← mask bits)) then
    return trapped span divisionTrap
  if operator = .power ∧ isSigned ∧ (← signed right bits).toInt < 0 then
    return trapped span powerTrap
  match ← arithmetic operator left right bits isSigned with
  | some result => return .ok (int (result &&& (← mask bits)))
  | none => return unsupported span unsupportedInteger

def stringOrder : StringLiteral → StringLiteral → Ordering
  | .utf16 xs, .utf16 ys => compare xs ys
  | .utf16 _, .utf8 _ => .lt
  | .utf8 _, .utf16 _ => .gt
  | .utf8 x, .utf8 y => compare x y

def binary (floats : Floats) (operator : BinaryOp) (left right : TypedExpr) (span : Span) :
    Option (Except Diagnostic TypedExprKind) :=
  let other := some (unsupported span
    "this const arithmetic is unsupported; keep decimal arithmetic and overloaded operations in runtime code")
  match left.kind, right.kind, left.ty with
  | .bool x, .bool y, _ => some <| .ok <| .bool <| match operator with
    | .and => x && y
    | .or => x || y
    | _ => comparison operator (some (compare x y))
  | .unit, .unit, _ => if comparing operator then some (.ok (.bool (operator = .equal))) else other
  | .string x, .string y, _ =>
    if comparing operator then some (.ok (.bool (comparison operator (some (stringOrder x y))))) else other
  | .int x, .int y, .char | .int x, .int y, .utf8Char =>
    if comparing operator then some (.ok (.bool (comparison operator (some (compare x y))))) else other
  | .int x, .int y, .integer bits isSigned =>
    integers operator (BitVec.ofNat 128 x) (BitVec.ofNat 128 y) bits isSigned span
  | .float x, .float y, .binary bits =>
    if bits = 16 ∨ bits = 32 ∨ bits = 64 ∨ bits = 128 then floats.binary bits operator x y span
    else some (unsupported span "unsupported binary float width")
  | _, _, _ => other

def cast (floats : Floats) (value : TypedExpr) (target : Ty) (span : Span) : Option (Except Diagnostic TypedExprKind) :=
  let other := some (unsupported span "this const cast is unsupported; keep the conversion in runtime code")
  if value.ty = target then some (.ok value.kind)
  else match value.kind, value.ty, target with
  | .int n, .integer bits isSigned, .integer width _ => do
    let wide ← if isSigned then signed (BitVec.ofNat 128 n) bits else some (BitVec.ofNat 128 n)
    return .ok (int (wide &&& (← mask width)))
  | .float text, .binary bits, .integer width isSigned => do
    return .ok (int ((← floats.toInteger text bits width isSigned) &&& (← mask width)))
  | _, _, .binary bits =>
    if bits = 16 ∨ bits = 32 ∨ bits = 64 ∨ bits = 128 then floats.toFloat bits value span
    else other
  | _, _, _ => other

variable {w : Nat}

/-! ## What the operators mean -/

def integerWidths : List Nat := [8, 16, 32, 64, 128]

/-- The number that the bits of an integer stand for. -/
def number (isSigned : Bool) (x : BitVec w) : Int := if isSigned then x.toInt else x.toNat

def compared (operator : BinaryOp) (x y : Int) : Option Bool :=
  match operator with
  | .equal => some (x = y)
  | .notEqual => some (x ≠ y)
  | .less => some (x < y)
  | .lessEqual => some (x ≤ y)
  | .greater => some (y < x)
  | .greaterEqual => some (y ≤ x)
  | _ => none

/-- The result of an operator on the numbers, modulo `2 ^ w`. -/
def operation (operator : BinaryOp) (isSigned : Bool) (l r : BitVec w) : Option (BitVec w) :=
  let x := number isSigned l
  let y := number isSigned r
  let places := r.toNat % w
  match operator with
  | .add => some (.ofInt w (x + y))
  | .subtract => some (.ofInt w (x - y))
  | .multiply => some (.ofInt w (x * y))
  | .power => some (.ofInt w (x ^ y.toNat))
  | .divide => some (.ofInt w (x.tdiv y))
  | .remainder => some (.ofInt w (x.tmod y))
  | .bitAnd => some (l &&& r)
  | .bitOr => some (l ||| r)
  | .bitXor => some (l ^^^ r)
  | .shiftLeft => some (.ofInt w (x * 2 ^ places))
  | .shiftRight => some (.ofInt w (x / 2 ^ places))
  | .shiftRightUnsigned => some (.ofInt w (l.toNat / 2 ^ places))
  | _ => none

def unaryOperation (operator : UnaryOp) (isSigned : Bool) (l : BitVec w) : Option (BitVec w) :=
  match operator with
  | .plus => some l
  | .negate => some (.ofInt w (-number isSigned l))
  | .bitNot => some (.ofInt w (-number isSigned l - 1))
  | .not => none

def constant (isSigned : Bool) (x : BitVec w) (span : Span) : TypedExpr :=
  ⟨.int x.toNat, .integer w isSigned, span⟩

def answer (span : Span) (message : String) : Option (BitVec w) → Except Diagnostic TypedExprKind
  | some x => .ok (.int x.toNat)
  | none => unsupported span message

def Traps (operator : BinaryOp) (x y lowest : Int) : Prop :=
  (operator = .divide ∨ operator = .remainder) ∧ (y = 0 ∨ x = lowest ∧ y = -1) ∨ operator = .power ∧ y < 0

instance (operator : BinaryOp) (x y lowest : Int) : Decidable (Traps operator x y lowest) :=
  inferInstanceAs (Decidable (_ ∧ _ ∨ _))

def binaryAnswer (operator : BinaryOp) (isSigned : Bool) (l r : BitVec w) (span : Span) :
    Except Diagnostic TypedExprKind :=
  match compared operator (number isSigned l) (number isSigned r) with
  | some b => .ok (.bool b)
  | none =>
    if Traps operator (number isSigned l) (number isSigned r) (-2 ^ (w - 1)) then
      trapped span (if operator = .power then powerTrap else divisionTrap)
    else answer span unsupportedInteger (operation operator isSigned l r)

theorem setWidth_ofInt {v : Nat} (h : w ≤ v) (z : Int) : (BitVec.ofInt v z).setWidth w = BitVec.ofInt w z := by
  apply BitVec.eq_of_toNat_eq
  rw [BitVec.toNat_setWidth, BitVec.toNat_ofInt, BitVec.toNat_ofInt]
  have hdvd : ((2 ^ w : Nat) : Int) ∣ ((2 ^ v : Nat) : Int) :=
    Int.natCast_dvd_natCast.2 (Nat.pow_dvd_pow 2 h)
  have hpos : (0 : Int) ≤ z % ((2 ^ v : Nat) : Int) :=
    Int.emod_nonneg _ (by have := Nat.two_pow_pos v; omega)
  have hpos' : (0 : Int) ≤ z % ((2 ^ w : Nat) : Int) :=
    Int.emod_nonneg _ (by have := Nat.two_pow_pos w; omega)
  apply Int.ofNat.inj
  simp only [Int.ofNat_eq_natCast]
  rw [Int.natCast_emod, Int.toNat_of_nonneg hpos, Int.emod_emod_of_dvd _ hdvd, Int.toNat_of_nonneg hpos']

theorem and_allOnes_shift {v : Nat} (hw : w ≤ v) (x : BitVec v) :
    x &&& (BitVec.allOnes v >>> (v - w)) = (x.setWidth w).setWidth v := by
  ext i hi
  simp only [BitVec.getElem_and, BitVec.getElem_ushiftRight, BitVec.getLsbD_allOnes,
    BitVec.getElem_setWidth, BitVec.getLsbD_setWidth]
  grind

theorem sshiftRight_shiftLeft {v : Nat} (hpos : 0 < w) (hw : w ≤ v) (x : BitVec w) :
    ((x.setWidth v) <<< (v - w)).sshiftRight (v - w) = x.signExtend v := by
  ext i hi
  simp only [BitVec.getElem_sshiftRight, BitVec.getElem_shiftLeft, Nat.add_sub_cancel_left,
    BitVec.getElem_setWidth, BitVec.msb_eq_getLsbD_last, BitVec.getLsbD_shiftLeft,
    BitVec.getLsbD_setWidth, dite_eq_ite, BitVec.getElem_signExtend]
  grind

theorem ofInt_number (isSigned : Bool) (l : BitVec w) : BitVec.ofInt w (number isSigned l) = l := by
  cases isSigned
  · exact (BitVec.ofInt_natCast w _).trans (BitVec.ofNat_toNat .. |>.trans (BitVec.setWidth_eq l))
  · exact BitVec.ofInt_toInt

theorem low_toNat (x : U128) : x.setWidth w = .ofInt w x.toNat := by
  rw [BitVec.ofInt_natCast, ← BitVec.ofNat_toNat]

theorem mem_integerWidths : w ∈ integerWidths ↔ w = 8 ∨ w = 16 ∨ w = 32 ∨ w = 64 ∨ w = 128 := by
  simp only [integerWidths, List.mem_cons, List.not_mem_nil, or_false]

section Widths

variable (hw : w ∈ integerWidths)

include hw

theorem width_pos : 0 < w := by
  have := mem_integerWidths.1 hw
  omega

theorem width_le : w ≤ 128 := by
  have := mem_integerWidths.1 hw
  omega

theorem width_pow : ∃ k, w = 2 ^ k := by
  obtain rfl | rfl | rfl | rfl | rfl := mem_integerWidths.1 hw
  exacts [⟨3, rfl⟩, ⟨4, rfl⟩, ⟨5, rfl⟩, ⟨6, rfl⟩, ⟨7, rfl⟩]

theorem setWidth_wide (l : BitVec w) : (l.setWidth 128).setWidth w = l := by
  rw [BitVec.setWidth_setWidth_of_le _ (width_le hw), BitVec.setWidth_eq]

theorem u16Sub_width : u16Sub 128 w = some (128 - w) := if_pos (width_le hw)

theorem mask_eq : mask w = some (BitVec.allOnes 128 >>> (128 - w)) := by
  rw [mask, u16Sub_width hw]
  exact if_pos (by have := width_pos hw; omega)

theorem signed_eq (l : BitVec w) : signed (l.setWidth 128) w = some (l.signExtend 128) := by
  have hlt : 128 - w < 128 := by have := width_pos hw; omega
  rw [signed, u16Sub_width hw]
  refine .trans (congrArg (· >>= fun x => U128.sar x (128 - w)) (if_pos hlt)) ?_
  exact (if_pos hlt).trans (congrArg some (sshiftRight_shiftLeft (width_pos hw) (width_le hw) l))

theorem int_mask (x : U128) : int (x &&& (BitVec.allOnes 128 >>> (128 - w))) = .int (x.setWidth w).toNat := by
  rw [and_allOnes_shift (width_le hw), int, BitVec.toNat_setWidth_of_le (width_le hw)]

theorem low_toInt (x : U128) : x.setWidth w = .ofInt w x.toInt := by
  conv_lhs => rw [← BitVec.ofInt_toInt (x := x)]
  exact setWidth_ofInt (width_le hw) _

theorem toInt_wide (l : BitVec w) : (l.signExtend 128).toInt = l.toInt :=
  BitVec.toInt_signExtend_of_le (width_le hw)

theorem toNat_wide (l : BitVec w) : (l.setWidth 128).toNat = l.toNat :=
  BitVec.toNat_setWidth_of_le (width_le hw)

theorem places_eq (r : BitVec w) : (r.setWidth 128 &&& BitVec.ofNat 128 (w - 1)).toNat % 2 ^ 32 = r.toNat % w := by
  have hle := width_le hw
  have hpos := width_pos hw
  obtain ⟨k, hk⟩ := width_pow hw
  rw [BitVec.toNat_and, toNat_wide hw, BitVec.toNat_ofNat, Nat.mod_eq_of_lt (by omega : w - 1 < 2 ^ 128)]
  have hmod (n : Nat) : n &&& (w - 1) = n % w := by
    rw [hk]
    exact Nat.and_two_pow_sub_one_eq_mod n k
  rw [hmod]
  have := Nat.mod_lt r.toNat hpos
  exact Nat.mod_eq_of_lt (by omega)

/-! ## Arithmetic -/

theorem power_low {base exponent product : U128} {b p : Int} (hb : base.setWidth w = .ofInt w b)
    (hp : product.setWidth w = .ofInt w p) :
    (power base exponent product).setWidth w = .ofInt w (p * b ^ exponent.toNat) := by
  induction base, exponent, product using power.induct generalizing b p with
  | case1 base product =>
    have hzero : BitVec.toNat (0 : U128) = 0 := rfl
    rw [power, if_pos rfl, hp, hzero, pow_zero, mul_one]
  | case2 base exponent product hne ih =>
    have hmul {x y : U128} {m n : Int} (hx : x.setWidth w = .ofInt w m) (hy : y.setWidth w = .ofInt w n) :
        (x * y).setWidth w = .ofInt w (m * n) := by
      rw [BitVec.setWidth_mul _ _ (width_le hw), hx, hy, BitVec.ofInt_mul]
    have hhalf : (exponent >>> 1).toNat = exponent.toNat / 2 := by
      rw [BitVec.toNat_ushiftRight, Nat.shiftRight_succ, Nat.shiftRight_zero]
    have hodd : exponent &&& 1 = 1 ↔ exponent.toNat % 2 = 1 := by
      rw [← BitVec.toNat_inj, BitVec.toNat_and]
      exact Nat.and_one_is_mod exponent.toNat ▸ Iff.rfl
    have hsquare : (b * b) ^ (exponent.toNat / 2) = b ^ (2 * (exponent.toNat / 2)) := by
      rw [pow_mul, pow_two]
    rw [power, if_neg hne]
    by_cases hone : exponent &&& 1 = 1
    · simp only [dif_pos hone] at ih
      rw [if_pos hone, ih (hmul hb hb) (hmul hp hb), hhalf, hsquare, mul_assoc, ← pow_succ']
      have : 2 * (exponent.toNat / 2) + 1 = exponent.toNat := by have := hodd.1 hone; omega
      rw [this]
    · simp only [dif_neg hone] at ih
      rw [if_neg hone, ih (hmul hb hb) hp, hhalf, hsquare]
      have : 2 * (exponent.toNat / 2) = exponent.toNat := by have := mt hodd.2 hone; omega
      rw [this]

theorem divides_of_not_traps {operator : BinaryOp} (hop : operator = .divide ∨ operator = .remainder)
    {l r : BitVec w} (hnone : ¬ Traps operator l.toInt r.toInt (-2 ^ (w - 1))) :
    U128.Divides (l.signExtend 128) (r.signExtend 128) := by
  have hzero : r.toInt ≠ 0 := fun h => hnone (.inl ⟨hop, .inl h⟩)
  constructor
  · intro h
    apply hzero
    rw [← toInt_wide hw r, h]
    rfl
  · rintro ⟨hl, hr⟩
    have hl' := congrArg BitVec.toInt hl
    have hr' := congrArg BitVec.toInt hr
    rw [toInt_wide hw, BitVec.toInt_intMin_of_pos (by decide)] at hl'
    rw [toInt_wide hw] at hr'
    -- Only the host's own width has its lowest number.
    have hlast : w = 128 := by
      have hbound := BitVec.le_toInt l
      rw [hl'] at hbound
      obtain rfl | rfl | rfl | rfl | rfl := mem_integerWidths.1 hw
      all_goals first | rfl | exact absurd hbound (by decide)
    subst hlast
    exact hnone (.inl ⟨hop, .inr ⟨hl', hr'⟩⟩)

theorem arithmetic_eq (operator : BinaryOp) (isSigned : Bool) (l r : BitVec w)
    (hnone : ¬ Traps operator (number isSigned l) (number isSigned r) (-2 ^ (w - 1))) :
    ∃ x, arithmetic operator (l.setWidth 128) (r.setWidth 128) w isSigned = some x ∧
      x.map (BitVec.setWidth w) = operation operator isSigned l r := by
  have hshift : u16Sub w 1 = some (w - 1) := if_pos (width_pos hw)
  have hwide := setWidth_wide hw
  have hl := ofInt_number isSigned l
  have hr := ofInt_number isSigned r
  have hplaces : r.toNat % w < 128 := (Nat.mod_lt _ (width_pos hw)).trans_le (width_le hw)
  have hshr : U128.shr (l.setWidth 128) (r.toNat % w) = some _ := if_pos hplaces
  have hlogical : (l.setWidth 128 >>> (r.toNat % w)).setWidth w = .ofInt w (l.toNat / 2 ^ (r.toNat % w)) := by
    rw [low_toNat, BitVec.toNat_ushiftRight, toNat_wide hw, Nat.shiftRight_eq_div_pow]
    norm_cast
  have hne (hop : operator = .divide ∨ operator = .remainder)
      (hnone : ¬ Traps operator (number false l) (number false r) (-2 ^ (w - 1))) : r.setWidth 128 ≠ 0 := by
    intro h
    refine hnone (.inl ⟨hop, .inl ?_⟩)
    show ((r.toNat : Int)) = 0
    rw [← toNat_wide hw r, h]
    rfl
  unfold arithmetic
  simp only [hshift, Option.bind_eq_bind, Option.bind_some, places_eq hw, signed_eq hw]
  cases operator
  case add =>
    refine ⟨_, rfl, congrArg some ?_⟩
    rw [BitVec.setWidth_add _ _ (width_le hw), hwide, hwide, BitVec.ofInt_add, hl, hr]
  case multiply =>
    refine ⟨_, rfl, congrArg some ?_⟩
    rw [BitVec.setWidth_mul _ _ (width_le hw), hwide, hwide, BitVec.ofInt_mul, hl, hr]
  case subtract =>
    refine ⟨_, rfl, congrArg some ?_⟩
    rw [BitVec.sub_eq_add_neg, BitVec.setWidth_add _ _ (width_le hw), BitVec.setWidth_neg_of_le (width_le hw),
      hwide, hwide, Int.sub_eq_add_neg, BitVec.ofInt_add, BitVec.ofInt_neg, hl, hr]
  case bitAnd => exact ⟨_, rfl, congrArg some (by rw [BitVec.setWidth_and, hwide, hwide])⟩
  case bitOr => exact ⟨_, rfl, congrArg some (by rw [BitVec.setWidth_or, hwide, hwide])⟩
  case bitXor => exact ⟨_, rfl, congrArg some (by rw [BitVec.setWidth_xor, hwide, hwide])⟩
  case power =>
    refine ⟨_, rfl, congrArg some ?_⟩
    rw [power_low hw ((hwide l).trans hl.symm) (low_toInt hw 1), toNat_wide hw]
    have hexponent : (number isSigned r).toNat = r.toNat := by
      cases isSigned
      · exact Int.toNat_natCast _
      · have hnonneg : ¬ r.toInt < 0 := fun h => hnone (.inr ⟨rfl, h⟩)
        rw [BitVec.toInt_eq_toNat_cond] at hnonneg
        rw [number, if_pos rfl, BitVec.toInt_eq_toNat_cond]
        have := r.isLt
        split <;> omega
    have hone : BitVec.toInt (1 : U128) = 1 := by decide
    rw [hone, one_mul, hexponent]
  case divide =>
    cases isSigned
    · have hd : U128.div (l.setWidth 128) (r.setWidth 128) = some _ := if_neg (hne (.inl rfl) hnone)
      simp only [hd, Option.bind_some]
      refine ⟨_, rfl, congrArg some ?_⟩
      rw [low_toNat, BitVec.toNat_udiv, toNat_wide hw, toNat_wide hw]
      rfl
    · have hd := divides_of_not_traps hw (.inl rfl) hnone
      have hsome : U128.sdiv (l.signExtend 128) (r.signExtend 128) = some _ := if_pos hd
      simp only [hsome, Option.bind_some]
      refine ⟨_, rfl, congrArg some ?_⟩
      rw [low_toInt hw, BitVec.toInt_sdiv_of_ne_or_ne _ _ (not_and_or.1 hd.2), toInt_wide hw, toInt_wide hw]
      rfl
  case remainder =>
    cases isSigned
    · have hd : U128.rem (l.setWidth 128) (r.setWidth 128) = some _ := if_neg (hne (.inr rfl) hnone)
      simp only [hd, Option.bind_some]
      refine ⟨_, rfl, congrArg some ?_⟩
      rw [low_toNat, BitVec.toNat_umod, toNat_wide hw, toNat_wide hw]
      rfl
    · have hd := divides_of_not_traps hw (.inr rfl) hnone
      have hsome : U128.srem (l.signExtend 128) (r.signExtend 128) = some _ := if_pos hd
      simp only [hsome, Option.bind_some]
      refine ⟨_, rfl, congrArg some ?_⟩
      rw [low_toInt hw, BitVec.toInt_srem, toInt_wide hw, toInt_wide hw]
      rfl
  case shiftLeft =>
    refine ⟨_, rfl, congrArg some ?_⟩
    rw [Nat.mod_eq_of_lt hplaces, BitVec.shiftLeft_eq_mul_twoPow, BitVec.setWidth_mul _ _ (width_le hw), hwide,
      BitVec.ofInt_mul, hl, low_toNat, BitVec.toNat_twoPow_of_lt hplaces]
    norm_cast
  case shiftRight =>
    cases isSigned
    · simp only [hshr, Option.bind_some]
      exact ⟨_, rfl, congrArg some hlogical⟩
    · have hsome : U128.sar (l.signExtend 128) (r.toNat % w) = some _ := if_pos hplaces
      simp only [hsome, Option.bind_some]
      refine ⟨_, rfl, congrArg some ?_⟩
      rw [low_toInt hw, BitVec.toInt_sshiftRight, toInt_wide hw, Int.shiftRight_eq_div_pow]
      rfl
  case shiftRightUnsigned =>
    simp only [hshr, Option.bind_some]
    exact ⟨_, rfl, congrArg some hlogical⟩
  all_goals exact ⟨_, rfl, rfl⟩

/-! ## Comparisons and traps -/

omit hw in
theorem comparison_eq (operator : BinaryOp) (isSigned : Bool) (l r : BitVec w) (hop : comparing operator) :
    compared operator (number isSigned l) (number isSigned r) = some (comparison operator
      (some (if isSigned then compare l.toInt r.toInt else compare l.toNat r.toNat))) := by
  have hint : (if isSigned then compare l.toInt r.toInt else compare l.toNat r.toNat) =
      compare (number isSigned l) (number isSigned r) := by
    cases isSigned
    · simp only [number, compare, compareOfLessAndEq, Bool.false_eq_true, if_false]
      norm_cast
    · rfl
  rw [hint]
  generalize number isSigned l = x, number isSigned r = y
  rcases lt_trichotomy x y with h | h | h
  · rw [compare_lt_iff_lt.2 h]
    cases operator <;> first
      | simp [compared, comparison, h, h.le, h.ne, h.not_gt, h.not_ge]; done
      | exact absurd hop (by decide)
  · rw [compare_eq_iff_eq.2 h]
    cases operator <;> first
      | simp [compared, comparison, h]; done
      | exact absurd hop (by decide)
  · rw [compare_gt_iff_gt.2 h]
    cases operator <;> first
      | simp [compared, comparison, h, h.le, h.ne', h.not_gt, h.not_ge]; done
      | exact absurd hop (by decide)

theorem number_eq_zero (isSigned : Bool) (r : BitVec w) : number isSigned r = 0 ↔ r.setWidth 128 = 0 := by
  have hzero : r.setWidth 128 = 0 ↔ r = 0 := by
    rw [← BitVec.toNat_inj, toNat_wide hw, ← BitVec.toNat_inj]
    exact Iff.rfl
  have hunsigned : (r.toNat : Int) = 0 ↔ r = 0 := by
    rw [← BitVec.toNat_inj]
    exact Int.natCast_eq_zero
  have hsigned : r.toInt = 0 ↔ r = 0 := by
    rw [← BitVec.toInt_inj]
    exact Eq.congr_right BitVec.toInt_zero.symm
  rw [hzero]
  cases isSigned
  exacts [hunsigned, hsigned]

theorem lowest_iff (l r : BitVec w) :
    l.setWidth 128 = (1 : U128) <<< (w - 1) ∧ r.setWidth 128 = BitVec.allOnes 128 >>> (128 - w) ↔
      l.toInt = -2 ^ (w - 1) ∧ r.toInt = -1 := by
  have hpos := width_pos hw
  have hlowest : ((1 : U128) <<< (w - 1)).toNat = (BitVec.intMin w).toNat ∧
      (BitVec.allOnes 128 >>> (128 - w)).toNat = (BitVec.allOnes w).toNat := by
    obtain rfl | rfl | rfl | rfl | rfl := mem_integerWidths.1 hw
    all_goals decide
  have hminus : (BitVec.allOnes w).toInt = -1 := BitVec.toInt_allOnes.trans (if_pos hpos)
  rw [← BitVec.toNat_inj, ← BitVec.toNat_inj, toNat_wide hw, toNat_wide hw, hlowest.1, hlowest.2,
    BitVec.toNat_inj, BitVec.toNat_inj, ← BitVec.toInt_inj, ← BitVec.toInt_inj, hminus,
    BitVec.toInt_intMin_of_pos hpos]

theorem integers_eq (operator : BinaryOp) (isSigned : Bool) (l r : BitVec w) (span : Span) :
    integers operator (l.setWidth 128) (r.setWidth 128) w isSigned span =
      some (binaryAnswer operator isSigned l r span) := by
  have hsub : u16Sub w 1 = some (w - 1) := if_pos (width_pos hw)
  have hone : U128.shl 1 (w - 1) = some ((1 : U128) <<< (w - 1)) := if_pos (by have := width_le hw; omega)
  unfold integers binaryAnswer
  by_cases hop : comparing operator
  · rw [if_pos hop, comparison_eq operator isSigned l r hop]
    simp only [signed_eq hw, toInt_wide hw, toNat_wide hw, Option.bind_eq_bind, Option.bind_some]
    cases isSigned <;> rfl
  · have hcompared : compared operator (number isSigned l) (number isSigned r) = none := by
      cases operator <;> first | rfl | exact absurd rfl hop
    rw [if_neg hop, hcompared]
    simp only [hsub, hone, mask_eq hw, signed_eq hw, Option.bind_eq_bind, Option.bind_some]
    have hdivision : (operator = .divide ∨ operator = .remainder) ∧ (r.setWidth 128 = 0 ∨
        isSigned = true ∧ l.setWidth 128 = (1 : U128) <<< (w - 1) ∧ r.setWidth 128 = BitVec.allOnes 128 >>> (128 - w)) ↔
        (operator = .divide ∨ operator = .remainder) ∧ (number isSigned r = 0 ∨
          number isSigned l = -2 ^ (w - 1) ∧ number isSigned r = -1) := by
      rw [number_eq_zero hw]
      refine and_congr_right fun _ => or_congr_right ?_
      cases isSigned
      · refine ⟨fun h => absurd h.1 (by decide), fun h => ?_⟩
        have hr : (r.toNat : Int) = -1 := h.2
        omega
      · exact (and_iff_right rfl).trans (lowest_iff hw l r)
    have hpower : operator = .power ∧ isSigned = true ∧ (r.signExtend 128).toInt < 0 ↔
        operator = .power ∧ number isSigned r < 0 := by
      rw [toInt_wide hw]
      refine and_congr_right fun _ => ?_
      cases isSigned
      · refine ⟨fun h => absurd h.1 (by decide), fun h => ?_⟩
        have hr : (r.toNat : Int) < 0 := h
        omega
      · exact and_iff_right rfl
    by_cases hd : (operator = .divide ∨ operator = .remainder) ∧ (number isSigned r = 0 ∨
        number isSigned l = -2 ^ (w - 1) ∧ number isSigned r = -1)
    · rw [if_pos (hdivision.2 hd), if_pos (.inl hd), if_neg (by rcases hd.1 with h | h <;> simp [h])]
      rfl
    rw [if_neg (mt hdivision.1 hd)]
    by_cases hp : operator = .power ∧ number isSigned r < 0
    · rw [if_pos (hpower.2 hp), if_pos (.inr hp), if_pos hp.1]
      rfl
    have hnone : ¬ Traps operator (number isSigned l) (number isSigned r) (-2 ^ (w - 1)) := fun h => h.elim hd hp
    obtain ⟨x, hx, hmap⟩ := arithmetic_eq hw operator isSigned l r hnone
    rw [if_neg (mt hpower.1 hp), if_neg hnone, hx, ← hmap, Option.bind_some]
    cases x with
    | none => rfl
    | some x => exact congrArg (fun k => some (Except.ok k)) (int_mask hw x)

theorem unary_eq (floats : Floats) (operator : UnaryOp) (isSigned : Bool) (l : BitVec w) (span place : Span) :
    unary floats operator (constant isSigned l place) span =
      some (answer span unsupportedUnary (unaryOperation operator isSigned l)) := by
  have hl := ofInt_number isSigned l
  have hmask (x : U128) : (do return Except.ok (int (x &&& (← mask w)))) =
      some (Except.ok (ε := Diagnostic) (.int (x.setWidth w).toNat)) := by
    rw [mask_eq hw, ← int_mask hw]
    rfl
  have hone : BitVec.ofInt w (-1) = -1#w := BitVec.ofInt_neg
  cases operator
  case not => rfl
  case plus => rfl
  case negate =>
    refine (hmask (-BitVec.ofNat 128 l.toNat)).trans ?_
    rw [BitVec.ofNat_toNat, BitVec.setWidth_neg_of_le (width_le hw), setWidth_wide hw, unaryOperation,
      BitVec.ofInt_neg, hl]
    rfl
  case bitNot =>
    refine (hmask (~~~BitVec.ofNat 128 l.toNat)).trans ?_
    rw [BitVec.ofNat_toNat, BitVec.setWidth_not (width_le hw), setWidth_wide hw, unaryOperation,
      Int.sub_eq_add_neg, BitVec.ofInt_add, BitVec.ofInt_neg, hl, BitVec.not_eq_neg_add, BitVec.sub_eq_add_neg, hone]
    rfl

theorem cast_eq (floats : Floats) {t : Nat} (ht : t ∈ integerWidths) (isSigned toSigned : Bool) (l : BitVec w)
    (span place : Span) : cast floats (constant isSigned l place) (.integer t toSigned) span =
      some (.ok (.int (BitVec.ofInt t (number isSigned l)).toNat)) := by
  unfold cast
  split
  · rename_i hsame
    obtain ⟨rfl, rfl⟩ := Ty.integer.inj hsame
    rw [ofInt_number]
    rfl
  · simp only [constant, BitVec.ofNat_toNat, signed_eq hw, mask_eq ht, Option.bind_eq_bind, Option.bind_some,
      int_mask ht]
    cases isSigned
    · show some (Except.ok (TypedExprKind.int ((l.setWidth 128).setWidth t).toNat)) = _
      rw [low_toNat, toNat_wide hw]
      rfl
    · show some (Except.ok (TypedExprKind.int ((l.signExtend 128).setWidth t).toNat)) = _
      rw [low_toInt ht, toInt_wide hw]
      rfl

/-- Constants of the integer types are numbers in two's complement: the operators and the casts answer
the result on the numbers modulo the width, or the error of operands that trap, and the host does
not panic. -/
theorem constants_wrap (floats : Floats) {t : Nat} (ht : t ∈ integerWidths) (isSigned toSigned : Bool)
    (l r : BitVec w) (span place place' : Span) :
    (∀ operator, unary floats operator (constant isSigned l place) span =
      some (answer span unsupportedUnary (unaryOperation operator isSigned l))) ∧
    (∀ operator, binary floats operator (constant isSigned l place) (constant isSigned r place') span =
      some (binaryAnswer operator isSigned l r span)) ∧
    cast floats (constant isSigned l place) (.integer t toSigned) span =
      some (.ok (.int (BitVec.ofInt t (number isSigned l)).toNat)) := by
  refine ⟨fun operator => unary_eq hw floats operator isSigned l span place, fun operator => ?_,
    cast_eq hw floats ht isSigned toSigned l span place⟩
  rw [← integers_eq hw, ← BitVec.ofNat_toNat, ← BitVec.ofNat_toNat]
  rfl

end Widths

theorem constants_wrap_lowest :
    binary ⟨fun _ _ => none, fun _ _ _ _ _ => none, fun _ _ _ _ => none, fun _ _ _ => none⟩ .divide
      (constant true (BitVec.intMin 128) default) (constant true (-1 : BitVec 128) default) default =
      some (trapped default divisionTrap) := by
  have htraps : Traps .divide (number true (BitVec.intMin 128)) (number true (-1 : BitVec 128)) (-2 ^ 127) := by
    decide
  have htrapped : binaryAnswer .divide true (BitVec.intMin 128) (-1 : BitVec 128) default =
      trapped default divisionTrap := by
    unfold binaryAnswer
    exact if_pos htraps
  exact ((constants_wrap (w := 128) (by decide) _ (t := 8) (by decide) true false (BitVec.intMin 128) (-1)
    default default default).2.1 .divide).trans (congrArg some htrapped)

end Tsuzuri.Constants
