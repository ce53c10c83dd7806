import Tsuzuri.IntervalMachine

/-!
# The results of the machine in the intervals

For all operands in intervals of a type, the interval of an operation has the result of the machine.
-/

namespace Tsuzuri

namespace Interval

section Flags

variable {ty : IntType} {i left right : Interval} {n l r : Int} {signed : Bool}

theorem crosses_signed (h : ty.signed = true) : i.Crosses ty ↔ i.low < 0 ∧ 0 ≤ i.high := by
  unfold Crosses
  rw [h]
  rfl

theorem crosses_unsigned (h : ty.signed = false) : i.Crosses ty ↔ i.low < ty.modulus / 2 ∧ ty.modulus / 2 ≤ i.high := by
  unfold Crosses
  rw [h]
  rfl

theorem reading_ends (h : i.Inside ty) (hcross : ty.signed ≠ signed → ¬ i.Crosses ty) :
    (reading ty i signed).low = wrapTo ty.bits signed i.low ∧
      (reading ty i signed).high = wrapTo ty.bits signed i.high := by
  have hlow := h.full h.low_mem
  have hhigh := h.full h.high_mem
  unfold reading
  by_cases hsame : ty.signed = signed
  · subst hsame
    rw [if_pos rfl]
    exact ⟨(value_eq_self hlow).symm, (value_eq_self hhigh).symm⟩
  · have hone := hcross hsame
    have hpos := ty.pos
    obtain ⟨hhalf, hpos', hle⟩ := modulus_bounds ty
    obtain ⟨hle', hmin, hmax⟩ := h
    rw [if_neg hsame]
    cases signed with
    | true =>
      have hs : ty.signed = false := by simpa using hsame
      have hrange := min_max_unsigned hs
      have hmin' : intMin ty.bits true = -(ty.modulus / 2) := rfl
      have hmax' : intMax ty.bits true = ty.modulus / 2 - 1 := rfl
      rw [crosses_unsigned hs] at hone
      rw [if_pos rfl]
      split
      · exact ⟨(wrapTo_eq_self hpos (by omega) (by omega)).symm, (wrapTo_eq_self hpos (by omega) (by omega)).symm⟩
      · rename_i hup
        have hlow' : ty.modulus / 2 ≤ i.low := by omega
        have hdown : ∀ v, ty.modulus / 2 ≤ v → v ≤ ty.max → wrapTo ty.bits true v = v - ty.modulus := by
          intro v hv hv'
          have := @wrapTo_eq ty.bits true v hpos 1
          rw [one_mul] at this
          exact this (by change _ ≤ v - ty.modulus; omega) (by change v - ty.modulus ≤ _; omega)
        rw [if_pos hlow']
        exact ⟨(hdown _ hlow' (by omega)).symm, (hdown _ (by omega) hmax).symm⟩
    | false =>
      have hs : ty.signed = true := by simpa using hsame
      have hrange := min_max_signed hs
      have hmin' : intMin ty.bits false = 0 := rfl
      have hmax' : intMax ty.bits false = ty.modulus - 1 := rfl
      rw [crosses_signed hs] at hone
      rw [if_neg Bool.false_ne_true]
      split
      · exact ⟨(wrapTo_eq_self hpos (by omega) (by omega)).symm, (wrapTo_eq_self hpos (by omega) (by omega)).symm⟩
      · rename_i hdown
        have hup : ∀ v, v < 0 → ty.min ≤ v → wrapTo ty.bits false v = v + ty.modulus := by
          intro v hv hv'
          have := @wrapTo_eq ty.bits false v hpos (-1)
          rw [neg_mul, one_mul, sub_neg_eq_add] at this
          exact this (by change _ ≤ v + ty.modulus; omega) (by change v + ty.modulus ≤ _; omega)
        rw [if_pos (by omega : i.high < 0)]
        exact ⟨(hup _ (by omega) hmin).symm, (hup _ (by omega) (by omega)).symm⟩

section

variable (operation : Operation)

theorem within_of_corners (ty : IntType) (hll : operation.apply left.low right.low ∈ ty.full)
    (hlh : operation.apply left.low right.high ∈ ty.full) (hhl : operation.apply left.high right.low ∈ ty.full)
    (hhh : operation.apply left.high right.high ∈ ty.full) : (exact operation left right).within ty.full = true := by
  have hsll := saturate_of_full hll
  have hslh := saturate_of_full hlh
  have hshl := saturate_of_full hhl
  have hshh := saturate_of_full hhh
  simp only [within, Bool.and_eq_true, decide_eq_true_eq]
  cases operation with
  | add =>
    simp only [Operation.apply] at hsll hshh hll hhh
    simp only [exact, hsll, hshh]
    exact ⟨hll.1, hhh.2⟩
  | subtract =>
    simp only [Operation.apply] at hslh hshl hlh hhl
    simp only [exact, hslh, hshl]
    exact ⟨hlh.1, hhl.2⟩
  | multiply =>
    simp only [Operation.apply] at hsll hslh hshl hshh hll hlh hhl hhh
    simp only [exact, hsll, hslh, hshl, hshh]
    exact ⟨le_min (le_min (le_min hll.1 hlh.1) hhl.1) hhh.1, max_le (max_le (max_le hll.2 hlh.2) hhl.2) hhh.2⟩

theorem within_iff (signed : Bool) (hl : left.Inside ty) (hr : right.Inside ty)
    (hlc : ty.signed ≠ signed → ¬ left.Crosses ty) (hrc : ty.signed ≠ signed → ¬ right.Crosses ty) :
    (exact operation (reading ty left signed) (reading ty right signed)).within (ty.withSign signed).full = true ↔
      ∀ x ∈ left, ∀ y ∈ right,
        operation.apply (wrapTo ty.bits signed x) (wrapTo ty.bits signed y) ∈ (ty.withSign signed).full := by
  constructor
  · intro hwithin x hx y hy
    have hmem := mem_of_within hwithin (mem_exact_reading operation signed hx hy (hl.full hx) (hr.full hy))
    rwa [saturate_eq_of_full hmem] at hmem
  · intro hall
    obtain ⟨hll, hlh⟩ := reading_ends hl hlc
    obtain ⟨hrl, hrh⟩ := reading_ends hr hrc
    apply within_of_corners
    · rw [hll, hrl]
      exact hall _ hl.low_mem _ hr.low_mem
    · rw [hll, hrh]
      exact hall _ hl.low_mem _ hr.high_mem
    · rw [hlh, hrl]
      exact hall _ hl.high_mem _ hr.low_mem
    · rw [hlh, hrh]
      exact hall _ hl.high_mem _ hr.high_mem

theorem no_signedOverflow (ty : IntType) (x y : Int) : operation.signedOverflow (ty.toBits x) (ty.toBits y) = false ↔
      operation.apply (wrapTo ty.bits true x) (wrapTo ty.bits true y) ∈ (ty.withSign true).full := by
  rw [signedOverflow_eq_false operation ty.pos, toInt_toBits, toInt_toBits]
  rfl

theorem no_unsignedOverflow (ty : IntType) (x y : Int) :
    operation.unsignedOverflow (ty.toBits x) (ty.toBits y) = false ↔
      operation.apply (wrapTo ty.bits false x) (wrapTo ty.bits false y) ∈ (ty.withSign false).full := by
  rw [unsignedOverflow_eq_false operation, toNat_toBits, toNat_toBits]
  rfl

end

/-- The interval and the flags of an addition, a subtraction or a multiplication. -/
theorem arithmetic_sound_and_precise (operation : Operation) (ty : IntType) (left right : Interval)
    (hl : left.Inside ty) (hr : right.Inside ty) :
    arithmeticChecked operation ty left right = some (arithmetic operation ty left right) ∧
    (arithmetic operation ty left right).result.Inside ty ∧
    (∀ x ∈ left, ∀ y ∈ right,
      ty.ofBits (operation.onBits (ty.toBits x) (ty.toBits y)) ∈ (arithmetic operation ty left right).result) ∧
    ((arithmetic operation ty left right).flags.nsw = true →
      ∀ x ∈ left, ∀ y ∈ right, operation.signedOverflow (ty.toBits x) (ty.toBits y) = false) ∧
    ((arithmetic operation ty left right).flags.nuw = true →
      ∀ x ∈ left, ∀ y ∈ right, operation.unsignedOverflow (ty.toBits x) (ty.toBits y) = false) ∧
    (¬ left.Crosses ty → ¬ right.Crosses ty → ((arithmetic operation ty left right).flags.nsw = true ↔
        ∀ x ∈ left, ∀ y ∈ right, operation.signedOverflow (ty.toBits x) (ty.toBits y) = false) ∧
      ((arithmetic operation ty left right).flags.nuw = true ↔
        ∀ x ∈ left, ∀ y ∈ right, operation.unsignedOverflow (ty.toBits x) (ty.toBits y) = false)) := by
  obtain ⟨hchecked, hinside⟩ := arithmetic_checked operation hl hr
  refine ⟨hchecked, hinside, ?_, ?_, ?_, ?_⟩
  · intro x hx y hy
    rw [onBits_toBits, ofBits_toBits]
    exact mem_arithmetic operation hx hy (hl.full hx) (hr.full hy)
  · intro hflag x hx y hy
    rw [no_signedOverflow]
    exact (arithmetic_flags operation hx hy (hl.full hx) (hr.full hy)).1 hflag
  · intro hflag x hx y hy
    rw [no_unsignedOverflow]
    exact (arithmetic_flags operation hx hy (hl.full hx) (hr.full hy)).2 hflag
  · intro hlc hrc
    simp only [no_signedOverflow, no_unsignedOverflow]
    exact ⟨within_iff operation true hl hr (fun _ => hlc) fun _ => hrc,
      within_iff operation false hl hr (fun _ => hlc) fun _ => hrc⟩

/-- The last six of the bytes and the next four, which wrap together. -/
theorem arithmetic_sound_and_precise_bytes :
    arithmeticChecked .add ⟨8, false, by decide, by decide⟩ ⟨250, 255⟩ ⟨10, 10⟩ =
      some (arithmetic .add ⟨8, false, by decide, by decide⟩ ⟨250, 255⟩ ⟨10, 10⟩) ∧
    (arithmetic .add ⟨8, false, by decide, by decide⟩ ⟨250, 255⟩ ⟨10, 10⟩).result = ⟨4, 9⟩ :=
  ⟨(arithmetic_sound_and_precise .add ⟨8, false, by decide, by decide⟩ ⟨250, 255⟩ ⟨10, 10⟩ (by decide)
    (by decide)).1, by decide⟩

end Flags

section Transfer

variable {ty : IntType} {i left right : Interval} {n l r : Int} {count : Nat}

theorem toInt_of_signed (h : ty.signed = true) (hn : n ∈ ty.full) : (ty.toBits n).toInt = n := by
  have := value_eq_self hn
  rwa [IntType.value, h, ← toInt_toBits] at this

theorem toNat_of_unsigned (h : ty.signed = false) (hn : n ∈ ty.full) : ((ty.toBits n).toNat : Int) = n := by
  have := value_eq_self hn
  rwa [IntType.value, h, ← toNat_toBits] at this

theorem ofBits_signed (h : ty.signed = true) (b : BitVec ty.bits) : ty.ofBits b = b.toInt := if_pos h

theorem ofBits_unsigned (h : ty.signed = false) (b : BitVec ty.bits) : ty.ofBits b = b.toNat := by
  rw [IntType.ofBits, h]
  rfl

theorem ofBits_ofNat (ty : IntType) (m : Nat) : ty.ofBits (BitVec.ofNat ty.bits m) = ty.value m := by
  rw [← ofBits_toBits, IntType.toBits, BitVec.ofInt_natCast]

theorem toNat_bitPattern (ty : IntType) (n : Int) : (ty.toBits n).toNat = bitPattern ty.bits n := by
  have := toNat_toBits ty n
  rw [← bitPattern_eq] at this
  exact_mod_cast this

theorem ofBits_castBits (target : IntType) (hn : n ∈ ty.full) :
    target.ofBits (ty.castBits target (ty.toBits n)) = target.value n := by
  unfold IntType.castBits
  cases h : ty.signed with
  | true =>
    rw [if_pos rfl, BitVec.signExtend, toInt_of_signed h hn]
    exact ofBits_toBits target n
  | false =>
    rw [if_neg Bool.false_ne_true, ← BitVec.ofNat_toNat, ofBits_ofNat, toNat_of_unsigned h hn]

theorem ofBits_and (ty : IntType) (l r : Int) :
    ty.ofBits (ty.toBits l &&& ty.toBits r) = ty.value (bitPattern ty.bits l &&& bitPattern ty.bits r : Nat) := by
  rw [← toNat_bitPattern, ← toNat_bitPattern, ← BitVec.toNat_and, ← ofBits_ofNat, BitVec.ofNat_toNat,
    BitVec.setWidth_eq]

theorem ofBits_ushiftRight (ty : IntType) (l : Int) (count : Nat) :
    ty.ofBits (ty.toBits l >>> count) = ty.value (bitPattern ty.bits l >>> count : Nat) := by
  rw [← toNat_bitPattern, ← BitVec.toNat_ushiftRight, ← ofBits_ofNat, BitVec.ofNat_toNat, BitVec.setWidth_eq]

theorem ofBits_not (ty : IntType) (l : Int) : ty.ofBits (~~~ty.toBits l) = ty.value (-l - 1) := by
  have hbits : ~~~ty.toBits l = ty.toBits (-l - 1) := by
    have hone : ty.toBits (-l - 1) = ty.toBits (-l) - ty.toBits 1 := (onBits_toBits .subtract ty (-l) 1).symm
    rw [BitVec.not_eq_neg_add, hone]
    congr 1
    simp [IntType.toBits, BitVec.ofInt_neg]
  rw [hbits, ofBits_toBits]

theorem ofBits_shiftLeft (ty : IntType) (l : Int) (count : Nat) :
    ty.ofBits (ty.toBits l <<< count) = ty.value (l * 2 ^ count) := by
  have hpow : ty.toBits (2 ^ count) = BitVec.twoPow ty.bits count := by
    have hcast : (2 : Int) ^ count = ((2 ^ count : Nat) : Int) := by push_cast; rfl
    apply BitVec.eq_of_toNat_eq
    rw [IntType.toBits, hcast, BitVec.ofInt_natCast, BitVec.toNat_ofNat, BitVec.toNat_twoPow]
  rw [BitVec.shiftLeft_eq_mul_twoPow, ← hpow]
  have hmul := onBits_toBits .multiply ty l (2 ^ count)
  rw [Operation.onBits] at hmul
  rw [hmul, ofBits_toBits]
  rfl

theorem ofBits_shiftRight (count : Nat) (hl : l ∈ ty.full) :
    ty.ofBits (ty.shiftRightBits (ty.toBits l) count) = l >>> count := by
  unfold IntType.shiftRightBits
  cases h : ty.signed with
  | true => rw [if_pos rfl, ofBits_signed h, BitVec.toInt_sshiftRight, toInt_of_signed h hl]
  | false =>
    rw [if_neg Bool.false_ne_true, ofBits_unsigned h, BitVec.toNat_ushiftRight, Int.natCast_shiftRight,
      toNat_of_unsigned h hl]

theorem tdiv_mem_full (hl : l ∈ ty.full) (hr : r ∈ ty.full) (hzero : r ≠ 0)
    (hmin : ¬ (ty.signed = true ∧ l = ty.min ∧ r = -1)) : l.tdiv r ∈ ty.full := by
  obtain ⟨hhalf, hpos, hle⟩ := modulus_bounds ty
  have hl : ty.min ≤ l ∧ l ≤ ty.max := hl
  have hr : ty.min ≤ r ∧ r ≤ ty.max := hr
  change ty.min ≤ l.tdiv r ∧ l.tdiv r ≤ ty.max
  have hquotient : (l.tdiv r).natAbs = l.natAbs / r.natAbs := Int.natAbs_tdiv l r
  have hsmall : l.natAbs / r.natAbs ≤ l.natAbs := Nat.div_le_self _ _
  rcases min_max ty with ⟨hs, hlow, hhigh⟩ | ⟨hs, hlow, hhigh⟩
  · by_cases htwo : 2 ≤ r.natAbs
    · have hhalved : l.natAbs / r.natAbs ≤ l.natAbs / 2 := Nat.div_le_div_left htwo (by decide)
      omega
    · have hone : r = 1 ∨ r = -1 := by omega
      rcases hone with rfl | rfl
      · rw [Int.tdiv_one]
        exact hl
      · have hne : l ≠ ty.min := fun he => hmin ⟨hs, he, rfl⟩
        rw [Int.tdiv_neg, Int.tdiv_one]
        omega
  · have hsign : 0 ≤ l.tdiv r := Int.tdiv_nonneg (by omega) (by omega)
    omega

theorem ofBits_divide (hl : l ∈ ty.full) (hr : r ∈ ty.full) (hzero : r ≠ 0)
    (hmin : ¬ (ty.signed = true ∧ l = ty.min ∧ r = -1)) :
    ty.ofBits (ty.divideBits (ty.toBits l) (ty.toBits r)) = l.tdiv r := by
  have hmem := tdiv_mem_full hl hr hzero hmin
  unfold IntType.divideBits
  cases h : ty.signed with
  | true =>
    rw [if_pos rfl, ofBits_signed h, BitVec.toInt_sdiv, toInt_of_signed h hl, toInt_of_signed h hr,
      ← BitVec.toInt_ofInt]
    exact toInt_of_signed h hmem
  | false =>
    have hr' := toNat_of_unsigned h hr
    have hl' := toNat_of_unsigned h hl
    rw [if_neg Bool.false_ne_true, ofBits_unsigned h, BitVec.toNat_udiv]
    rw [Int.natCast_ediv, hl', hr', Int.tdiv_eq_ediv_of_nonneg (hl' ▸ Int.natCast_nonneg _)]

theorem ofBits_remainder (hl : l ∈ ty.full) (hr : r ∈ ty.full) :
    ty.ofBits (ty.remainderBits (ty.toBits l) (ty.toBits r)) = l.tmod r := by
  unfold IntType.remainderBits
  cases h : ty.signed with
  | true => rw [if_pos rfl, ofBits_signed h, BitVec.toInt_srem, toInt_of_signed h hl, toInt_of_signed h hr]
  | false =>
    have hl' := toNat_of_unsigned h hl
    rw [if_neg Bool.false_ne_true, ofBits_unsigned h, BitVec.toNat_umod, Int.natCast_emod, hl',
      toNat_of_unsigned h hr, Int.tmod_eq_emod_of_nonneg (hl' ▸ Int.natCast_nonneg _)]

/-! ## Well-formed results -/

theorem inside_bitAnd (hl : left.Inside ty) (hr : right.Inside ty) : (bitAnd ty left right).Inside ty := by
  obtain ⟨-, hl, hlow, -⟩ := reading_checked false hl
  obtain ⟨-, hr, hlow', -⟩ := reading_checked false hr
  have hmin : (ty.withSign false).min = 0 := rfl
  have hbound : 0 ≤ min (reading ty left false).high (reading ty right false).high := le_min (by omega) (by omega)
  exact (wrap_checked ty hbound).2

theorem inside_remainder (right : Interval) (hl : left.Inside ty) : (remainder ty left right).Inside ty := by
  unfold remainder
  simp only
  split
  · exact inside_full ty
  · obtain ⟨hle, hmin, hmax⟩ := hl
    obtain ⟨hhalf, hpos, hsmall⟩ := modulus_bounds ty
    have hzero : ty.min ≤ 0 ∧ 0 ≤ ty.max := by
      rcases min_max ty with ⟨-, hlow, hhigh⟩ | ⟨-, hlow, hhigh⟩ <;> omega
    unfold Inside
    simp only
    refine ⟨?_, ?_, ?_⟩ <;> split <;> (try split) <;> omega

theorem inside_divide (ty : IntType) (left right : Interval) : (divide ty left right).Inside ty := by
  refine inside_getD ty fun k hk => ?_
  obtain ⟨quotient, -, hmeet⟩ := Option.bind_eq_some_iff.1 hk
  unfold meet at hmeet
  simp only [Option.ite_none_right_eq_some, Option.some.injEq] at hmeet
  obtain ⟨hle, rfl⟩ := hmeet
  exact ⟨hle, le_max_right _ _, min_le_right _ _⟩

theorem inside_shiftRight (count : Nat) (hl : left.Inside ty) : (shiftRight left count).Inside ty := by
  obtain ⟨hle, hmin, hmax⟩ := hl
  have hmono := (@mem_shiftRight left left.low count ⟨le_refl _, hle⟩).2
  have hpos : (0 : Int) < 2 ^ count := by positivity
  have hone : (1 : Int) ≤ 2 ^ count := by omega
  obtain ⟨hhalf, hpos', hsmall⟩ := modulus_bounds ty
  have hzero : ty.min ≤ 0 ∧ 0 ≤ ty.max := by
    rcases min_max ty with ⟨-, hlow, hhigh⟩ | ⟨-, hlow, hhigh⟩ <;> omega
  refine ⟨hmono, ?_, ?_⟩ <;> simp only [shiftRight, Int.shiftRight_eq_div_pow]
  · push_cast
    refine (Int.le_ediv_iff_mul_le hpos).2 ?_
    nlinarith
  · push_cast
    refine Int.le_of_lt_add_one ((Int.ediv_lt_iff_lt_mul hpos).2 ?_)
    nlinarith

theorem inside_shiftRightLogical (count : Nat) (hl : left.Inside ty) : (shiftRightLogical ty left count).Inside ty := by
  obtain ⟨-, hreading⟩ := reading_checked false hl
  exact (wrap_checked ty (inside_shiftRight count hreading).1).2

theorem inside_complement (hl : left.Inside ty) : (complement ty left).Inside ty := by
  obtain ⟨hle, hmin, hmax⟩ := hl
  unfold complement
  rcases min_max ty with ⟨hs, hlow, hhigh⟩ | ⟨hs, hlow, hhigh⟩ <;> rw [hs]
  · rw [if_pos rfl]
    refine ⟨?_, ?_, ?_⟩ <;> simp only <;> omega
  · rw [if_neg Bool.false_ne_true]
    refine ⟨?_, ?_, ?_⟩ <;> simp only <;> omega

theorem inside_shiftLeft (ty : IntType) (count : Nat) (hl : left.low ≤ left.high) :
    (shiftLeft ty left count).Inside ty :=
  (wrap_checked ty (exact_checked .multiply hl (le_refl _)).2).2

/-- The intervals of the other operations have the results of the machine, where the machine does not
trap, and are intervals of the type of the result. -/
theorem transfer_sound (ty : IntType) (left right : Interval) (hl : left.Inside ty) (hr : right.Inside ty) :
    (∀ target : IntType, (cast target left).Inside target ∧
      ∀ x ∈ left, target.ofBits (ty.castBits target (ty.toBits x)) ∈ cast target left) ∧
    ((bitAnd ty left right).Inside ty ∧
      ∀ x ∈ left, ∀ y ∈ right, ty.ofBits (ty.toBits x &&& ty.toBits y) ∈ bitAnd ty left right) ∧
    ((remainder ty left right).Inside ty ∧ ∀ x ∈ left, ∀ y ∈ right, y ≠ 0 →
      ty.ofBits (ty.remainderBits (ty.toBits x) (ty.toBits y)) ∈ remainder ty left right) ∧
    ((divide ty left right).Inside ty ∧ ∀ x ∈ left, ∀ y ∈ right, y ≠ 0 → ¬ (ty.signed = true ∧ x = ty.min ∧ y = -1) →
      ty.ofBits (ty.divideBits (ty.toBits x) (ty.toBits y)) ∈ divide ty left right) ∧
    (∀ count < ty.bits, (shiftRight left count).Inside ty ∧
      ∀ x ∈ left, ty.ofBits (ty.shiftRightBits (ty.toBits x) count) ∈ shiftRight left count) ∧
    (∀ count < ty.bits, (shiftRightLogical ty left count).Inside ty ∧
      ∀ x ∈ left, ty.ofBits (ty.toBits x >>> count) ∈ shiftRightLogical ty left count) ∧
    (∀ count < ty.bits, (shiftLeft ty left count).Inside ty ∧
      ∀ x ∈ left, ty.ofBits (ty.toBits x <<< count) ∈ shiftLeft ty left count) ∧
    ((complement ty left).Inside ty ∧ ∀ x ∈ left, ty.ofBits (~~~ty.toBits x) ∈ complement ty left) := by
  refine ⟨fun target => ⟨(wrap_checked target hl.1).2, fun x hx => ?_⟩, ⟨inside_bitAnd hl hr, fun x hx y hy => ?_⟩,
    ⟨inside_remainder right hl, fun x hx y hy hzero => ?_⟩,
    ⟨inside_divide ty left right, fun x hx y hy hzero hmin => ?_⟩,
    fun count _ => ⟨inside_shiftRight count hl, fun x hx => ?_⟩,
    fun count _ => ⟨inside_shiftRightLogical count hl, fun x hx => ?_⟩,
    fun count _ => ⟨inside_shiftLeft ty count hl.1, fun x hx => ?_⟩, ⟨inside_complement hl, fun x hx => ?_⟩⟩
  · rw [ofBits_castBits target (hl.full hx)]
    exact mem_cast hx (hl.full hx)
  · rw [ofBits_and]
    exact mem_bitAnd hx hy (hl.full hx) (hr.full hy)
  · rw [ofBits_remainder (hl.full hx) (hr.full hy)]
    exact mem_remainder hx hy hzero (hr.full hy)
  · rw [ofBits_divide (hl.full hx) (hr.full hy) hzero hmin]
    exact mem_divide hx hy hzero (hr.full hy) (tdiv_mem_full (hl.full hx) (hr.full hy) hzero hmin)
  · rw [ofBits_shiftRight count (hl.full hx)]
    exact mem_shiftRight count hx
  · rw [ofBits_ushiftRight]
    exact mem_shiftRightLogical count hx (hl.full hx)
  · rw [ofBits_shiftLeft]
    exact mem_shiftLeft count hx
  · rw [ofBits_not]
    exact mem_complement hx (hl.full hx)

/-- The least byte by a divisor on both sides of zero. -/
theorem transfer_sound_bytes : (divide ⟨8, true, by decide, by decide⟩ ⟨-128, 127⟩ ⟨-1, 1⟩).Inside
      ⟨8, true, by decide, by decide⟩ ∧
    divide ⟨8, true, by decide, by decide⟩ ⟨-128, 127⟩ ⟨-1, 1⟩ = ⟨-128, 127⟩ :=
  ⟨(transfer_sound ⟨8, true, by decide, by decide⟩ ⟨-128, 127⟩ ⟨-1, 1⟩ (by decide) (by decide)).2.2.2.1.1, by decide⟩

end Transfer

end Interval

end Tsuzuri
