import Tsuzuri.SoftFloatSound

/-!
# The order of soft numbers

`tz_soft_cmp` orders the data by what they stand for.
-/

namespace Tsuzuri.Soft

open Rounding

def Special.number : Special → Nat
  | .finite => 0
  | .infinity => 1
  | .nan => 2

/-- The sign of the difference, or `2` for a NaN. -/
def tzSoftCmp (left right : List UInt8) (kind : Nat) : Option Int := do
  let f := format kind
  let a ← decode left f
  let b ← decode right f
  if a.special = .nan ∨ b.special = .nan then some 2
  else if a.special = .finite ∧ b.special = .finite ∧ a.coefficient = [] ∧ b.coefficient = [] then some 0
  else if a.negative ≠ b.negative then some (if a.negative then -1 else 1)
  else do
    let order ← if a.special ≠ .finite ∨ b.special ≠ .finite then
        some ((decide (b.special.number < a.special.number)).toInt -
          (decide (a.special.number < b.special.number)).toInt)
      else do
        let exponent := if a.exponent < b.exponent then a.exponent else b.exponent
        let left ← power a.coefficient f.base (a.exponent - exponent).toNat
        let right ← power b.coefficient f.base (b.exponent - exponent).toNat
        some (compare left right)
    some (if a.negative then -order else order)

def stripZeros (maximum : Int) (exponent : Int) (coefficient : Nat) : Int × Nat :=
  if exponent < maximum ∧ coefficient % 10 = 0 then stripZeros maximum (exponent + 1) (coefficient / 10)
  else (exponent, coefficient)
termination_by (maximum - exponent).toNat

def canonicalBits (value : Number) (coefficient : Nat) (f : Format) : Nat :=
  let (exponent, coefficient) := stripZeros f.maximum value.exponent coefficient
  let encoded := value.negative.toNat <<< (f.width - 1)
  let exponent := exponent + f.bias
  if f.width ≠ 128 ∧ coefficient >>> f.fraction ≠ 0 then
    encoded ||| (3 <<< (f.width - 3) ||| u128 exponent <<< (f.fraction - 2) % 2 ^ 128 |||
      (coefficient &&& mask (f.fraction - 2)))
  else encoded ||| (u128 exponent <<< f.fraction % 2 ^ 128 ||| coefficient)

def tzSoftHashCanonical (input : List UInt8) (kind : Nat) : Option (List UInt8) := do
  let descriptor := format kind
  let value ← decode input descriptor
  if value.special ≠ .finite then
    some (store (special descriptor value.special (if value.special = .nan then false else value.negative))
      descriptor.width)
  else do
    let coefficient ← narrow value.coefficient
    if coefficient = 0 then some (store (descriptor.bias <<< descriptor.fraction % 2 ^ 128) descriptor.width)
    else some (store (canonicalBits value coefficient descriptor) descriptor.width)

/-! ## Values -/

def Datum.key (f : Format) : Datum → WithBot (WithTop ℚ)
  | .infinity true => ⊥
  | .infinity false | .nan _ => ⊤
  | .finite s c q => ((exact f s c q : WithTop ℚ) : WithBot (WithTop ℚ))

def Orders {α : Type} [LT α] (order : Int) (x y : α) : Prop :=
  order = -1 ∧ x < y ∨ order = 0 ∧ x = y ∨ order = 1 ∧ y < x

theorem key_lt_top (f : Format) (s : Bool) (c : Nat) (q : Int) : (Datum.finite s c q).key f < ⊤ :=
  WithBot.coe_lt_coe.mpr (WithTop.coe_lt_top _)

variable {x : ℚ} {c c' kind : Nat} {q q' : Int}

theorem orders_coe {order : Int} {y : ℚ} (h : Orders order x y) :
    Orders order ((x : WithTop ℚ) : WithBot (WithTop ℚ)) ((y : WithTop ℚ) : WithBot (WithTop ℚ)) := by
  simpa [Orders] using h

theorem orders_scaled {A B : Nat} (hx : 0 < x) (s : Bool) :
    Orders (if s then -order A B else order A B) ((if s then -1 else 1) * (A : ℚ) * x)
      ((if s then -1 else 1) * (B : ℚ) * x) := by
  have hmul : ∀ {m n : Nat}, m < n → (m : ℚ) * x < n * x := fun h =>
    mul_lt_mul_of_pos_right (by exact_mod_cast h) hx
  unfold order Orders
  rcases Nat.lt_trichotomy A B with h | rfl | h
  · have := hmul h
    rw [if_pos h]
    cases s <;> simp [this]
  · simp
  · have := hmul h
    rw [if_neg h.asymm, if_pos h]
    cases s <;> simp [this]

section Compare

variable {f : Format} (hf : f.Floating)

include hf

theorem exact_sign (s : Bool) (c : Nat) (q : Int) : if s then exact f s c q ≤ 0 else 0 ≤ exact f s c q := by
  have hpos := zpow_pos_of_base (K := ℚ) (base_gt hf.base_cases) q
  have := mul_nonneg (c.cast_nonneg (α := ℚ)) hpos.le
  cases s <;> simp [exact, this]

theorem exact_lt (h : ¬(c = 0 ∧ c' = 0)) : exact f true c q < exact f false c' q' := by
  have hneg : exact f true c q ≤ 0 := exact_sign hf true c q
  have hpos : 0 ≤ exact f false c' q' := exact_sign hf false c' q'
  refine (hneg.trans hpos).lt_of_ne fun heq => h ⟨?_, ?_⟩
  · exact (exact_zero hf true q).mp (le_antisymm hneg (heq ▸ hpos))
  · exact (exact_zero hf false q').mp (le_antisymm (heq ▸ hneg) hpos)

theorem tzSoftCmp_eq (hkind : format kind = f) {left right : List UInt8}
    (hleft : ¬IsNan (read f (load left f.width))) (hright : ¬IsNan (read f (load right f.width))) :
    ∃ order, tzSoftCmp left right kind = some order ∧
      Orders order ((read f (load left f.width)).key f) ((read f (load right f.width)).key f) := by
  have ha := read_ok hf (load left f.width)
  have hb := read_ok hf (load right f.width)
  unfold tzSoftCmp
  simp only [hkind, decode_eq hf, Option.bind_eq_bind, Option.bind_some]
  generalize read f (load left f.width) = a at *
  generalize read f (load right f.width) = b at *
  rcases a with s | s | ⟨s, c, q⟩
  · exact absurd ⟨s, rfl⟩ hleft
  · rcases b with t | t | ⟨t, c', q'⟩
    · exact absurd ⟨t, rfl⟩ hright
    · cases s <;> cases t <;> simp [Datum.number, Datum.key, Orders]
    · have := key_lt_top f t c' q'
      cases s <;> cases t <;> simp_all [Datum.number, Datum.key, Orders, Special.number]
  · rcases b with t | t | ⟨t, c', q'⟩
    · exact absurd ⟨t, rfl⟩ hright
    · have := key_lt_top f s c q
      cases s <;> cases t <;> simp_all [Datum.number, Datum.key, Orders, Special.number]
    · unfold Datum.number
      simp only [small_eq_nil, reduceCtorEq, true_and, or_self, if_false, ne_eq, not_true_eq_false]
      by_cases hzero : c = 0 ∧ c' = 0
      · rw [if_pos hzero]
        refine ⟨0, rfl, orders_coe (.inr (.inl ⟨rfl, ?_⟩))⟩
        rw [(exact_zero hf s q).mpr hzero.1, (exact_zero hf t q').mpr hzero.2]
      · rw [if_neg hzero]
        by_cases hst : s = t
        · subst hst
          have hlow := ha.2.1
          have hlow' := hb.2.1
          obtain ⟨e, he⟩ : ∃ e, e = if q < q' then q else q' := ⟨_, rfl⟩
          obtain ⟨hle, hle'⟩ : e ≤ q ∧ e ≤ q' := by
            rw [he]
            split <;> omega
          have hmin : f.minimum ≤ e := by
            rw [he]
            split <;> omega
          simp only [not_true_eq_false, if_false]
          rw [← he, (power_aligned hf ha hmin).2, (power_aligned hf hb hmin).2]
          simp only [Option.bind_some, compare_small]
          refine ⟨_, rfl, orders_coe ?_⟩
          rw [exact_aligned hf s c hle, exact_aligned hf s c' hle']
          exact orders_scaled (zpow_pos_of_base (base_gt hf.base_cases) e) s
        · rw [if_pos hst]
          refine ⟨_, rfl, orders_coe ?_⟩
          cases s <;> cases t
          · exact absurd rfl hst
          · exact .inr (.inr ⟨rfl, exact_lt hf fun h => hzero ⟨h.2, h.1⟩⟩)
          · exact .inl ⟨rfl, exact_lt hf hzero⟩
          · exact absurd rfl hst

end Compare

/-! ## The canonical datum -/

theorem stripZeros_spec (maximum q : Int) (c : Nat) : ∀ q' c', stripZeros maximum q c = (q', c') → q ≤ maximum →
    q ≤ q' ∧ q' ≤ maximum ∧ c = c' * 10 ^ (q' - q).toNat ∧ (q' < maximum → c' % 10 ≠ 0) := by
  induction q, c using stripZeros.induct maximum with
  | case1 q c h ih =>
    intro q' c' hrun hq
    rw [stripZeros, if_pos h] at hrun
    obtain ⟨hle, hmax, hc, hlast⟩ := ih q' c' hrun (by omega)
    refine ⟨by omega, hmax, ?_, hlast⟩
    rw [show (q' - q).toNat = (q' - (q + 1)).toNat + 1 by omega, Nat.pow_succ, ← Nat.mul_assoc, ← hc]
    omega
  | case2 q c h =>
    intro q' c' hrun hq
    rw [stripZeros, if_neg h] at hrun
    cases hrun
    exact ⟨le_rfl, hq, by simp, fun hlt hzero => h ⟨hlt, hzero⟩⟩

def Datum.canonical (f : Format) : Datum → Datum
  | .nan _ => .nan false
  | .infinity s => .infinity s
  | .finite s c q =>
    if c = 0 then .finite false 0 0
    else .finite s (stripZeros f.maximum q c).2 (stripZeros f.maximum q c).1

section Canonical

variable {f : Format} (hf : f.Floating) (hb : f.base = 10)

include hf hb

variable {s : Bool} {d : Datum}

theorem canonical_finite (h : (Datum.finite s c q).Read f) (hc : c ≠ 0) :
    ∃ c' q', (Datum.finite s c q).canonical f = .finite s c' q' ∧ stripZeros f.maximum q c = (q', c') ∧
      Fits f c' q' ∧ exact f s c' q' = exact f s c q ∧ c' ≠ 0 ∧ (q' < f.maximum → c' % 10 ≠ 0) := by
  obtain ⟨hlt, hlow, hhigh⟩ := h
  obtain ⟨hle, hmax, heq, hlast⟩ := stripZeros_spec f.maximum q c _ _ rfl (hhigh hc)
  refine ⟨_, _, if_neg hc, rfl, ⟨?_, by omega, hmax⟩, ?_, ?_, hlast⟩
  · refine lt_of_le_of_lt ?_ hlt
    exact (Nat.le_mul_of_pos_right _ (by positivity)).trans heq.ge
  · rw [exact_aligned hf s _ hle, hb, ← heq, exact, hb]
    push_cast
    ring
  · intro hzero
    rw [hzero, Nat.zero_mul] at heq
    exact hc heq

theorem canonical_valid (h : d.Read f) : (d.canonical f).Valid f := by
  rcases d with s | s | ⟨s, c, q⟩
  · trivial
  · trivial
  · by_cases hc : c = 0
    · rw [Datum.canonical, if_pos hc]
      have hmin := hf.minimum_le
      have hmax := hf.maximum_ge
      exact ⟨⟨by rw [hb]; positivity, hmin, hmax⟩, fun h2 => absurd (h2.symm.trans hb) (by decide)⟩
    · obtain ⟨c', q', heq, -, hfits, -⟩ := canonical_finite hf hb h hc
      rw [heq]
      exact ⟨hfits, fun h2 => absurd (h2.symm.trans hb) (by decide)⟩

theorem exact_inj {t : Bool} (hc : c ≠ 0) (hc' : c' ≠ 0) (hq : q ≤ f.maximum) (hq' : q' ≤ f.maximum)
    (hlast : q < f.maximum → c % 10 ≠ 0) (hlast' : q' < f.maximum → c' % 10 ≠ 0) (h : exact f s c q = exact f t c' q') :
    s = t ∧ c = c' ∧ q = q' := by
  obtain rfl : s = t := by
    cases s <;> cases t
    · rfl
    · exact absurd h (exact_lt hf fun hzero => hc' hzero.1).ne'
    · exact absurd h (exact_lt hf fun hzero => hc hzero.1).ne
    · rfl
  have hsolve : ∀ {c c' : Nat} {q q' : Int}, q ≤ q' → q' ≤ f.maximum → (q < f.maximum → c % 10 ≠ 0) →
      exact f s c q = exact f s c' q' → c = c' ∧ q = q' := by
    intro c c' q q' hle hmax hlast h
    have hpos := zpow_pos_of_base (K := ℚ) (base_gt hf.base_cases) q
    rw [exact_aligned hf s c' hle, exact, ← mul_assoc] at h
    have hcoeff : c = c' * f.base ^ (q' - q).toNat := by
      have := mul_right_cancel₀ hpos.ne' h
      cases s <;> simp at this <;> exact_mod_cast this
    rcases hle.eq_or_lt with rfl | hlt
    · simpa using hcoeff
    · refine absurd ?_ (hlast (by omega))
      rw [hcoeff, hb, show (q' - q).toNat = (q' - q).toNat - 1 + 1 by omega, Nat.pow_succ, ← Nat.mul_assoc]
      exact Nat.mul_mod_left _ _
  rcases le_total q q' with hle | hle
  · exact ⟨rfl, hsolve hle hq' hlast h⟩
  · obtain ⟨h₁, h₂⟩ := hsolve hle hq hlast' h.symm
    exact ⟨rfl, h₁.symm, h₂.symm⟩

theorem canonicalBits_eq (hstrip : stripZeros f.maximum q c = (q', c')) (hfits : Fits f c' q') :
    canonicalBits (Datum.finite s c q).number c f = encode f (.finite s c' q') := by
  rw [← assembleBits_eq hf hfits]
  unfold canonicalBits assembleBits Datum.number
  simp only [hstrip]
  rw [if_neg (show ¬f.base = 2 by omega)]
  split <;> simp only [Nat.or_assoc]

theorem zero_bits : f.bias <<< f.fraction % 2 ^ 128 = encode f (.finite false 0 0) := by
  have hmin := hf.minimum_le
  have hmax := hf.maximum_ge
  have hwidth := hf.width_le
  have hfits : Fits f 0 0 := ⟨by rw [hb]; positivity, hmin, hmax⟩
  obtain ⟨-, -, hroom, -⟩ := decimalField_lt hf (hf.decimal hb) hfits
  have hwide := (two_pow_width hf).2
  have hle : 2 ^ f.width ≤ 2 ^ 128 := Nat.pow_le_pow_right (by decide) hwidth
  have hpos := Nat.two_pow_pos f.fraction
  rw [encode_finite, if_neg (by omega), decimalField, if_neg (by omega), Nat.shiftLeft_eq,
    show ((0 : Int) + f.bias).toNat = f.bias by omega] at *
  rw [Nat.mod_eq_of_lt (by omega)]
  simp [signField]

theorem tzSoftHashCanonical_eq (hkind : format kind = f) (input : List UInt8) : tzSoftHashCanonical input kind =
      some (store (encode f ((read f (load input f.width)).canonical f)) f.width) := by
  have hread := read_ok hf (load input f.width)
  unfold tzSoftHashCanonical
  simp only [hkind, decode_eq hf, Option.bind_eq_bind, Option.bind_some]
  generalize read f (load input f.width) = d at *
  rcases d with s | s | ⟨s, c, q⟩
  · simp [Datum.number, Datum.canonical, special_nan hf]
  · simp [Datum.number, Datum.canonical, special_infinity hf]
  · have hnarrow : narrow (Datum.finite s c q).number.coefficient = some c :=
      narrow_eq (hread.1.trans_le hf.digits_le)
    rw [if_neg (show ¬(Datum.finite s c q).number.special ≠ .finite from fun h => h rfl), hnarrow, Option.bind_some]
    by_cases hc : c = 0
    · rw [if_pos hc, Datum.canonical, if_pos hc, zero_bits hf hb]
    · obtain ⟨c', q', heq, hstrip, hfits, -⟩ := canonical_finite hf hb hread hc
      rw [if_neg hc, heq, canonicalBits_eq hf hb hstrip hfits]

omit hb in
theorem store_inj {d' : Datum} (h : d.Valid f) (h' : d'.Valid f)
    (heq : store (encode f d) f.width = store (encode f d') f.width) : d = d' := by
  have hload := congrArg (fun p => read f (load p f.width)) heq
  simpa only [load_store hf.width_le hf.width_bytes, Nat.mod_eq_of_lt (encode_lt hf h),
    Nat.mod_eq_of_lt (encode_lt hf h'), read_encode hf h, read_encode hf h'] using hload

theorem canonical_eq {a b : Datum} (ha : a.Read f) (hb' : b.Read f) (hna : ¬IsNan a) (hnb : ¬IsNan b) :
    a.canonical f = b.canonical f ↔ a.key f = b.key f := by
  have hkey : ∀ {d : Datum}, d.Read f → (d.canonical f).key f = d.key f := by
    intro d hd
    rcases d with s | s | ⟨s, c, q⟩
    · rfl
    · rfl
    · by_cases hc : c = 0
      · rw [Datum.canonical, if_pos hc, Datum.key, Datum.key, (exact_zero hf false 0).mpr rfl,
          (exact_zero hf s q).mpr hc]
      · obtain ⟨c', q', heq, -, -, hexact, -⟩ := canonical_finite hf hb hd hc
        rw [heq, Datum.key, Datum.key, hexact]
  refine ⟨fun h => by rw [← hkey ha, ← hkey hb', h], fun h => ?_⟩
  rcases a with s | s | ⟨s, c, q⟩
  · exact absurd ⟨s, rfl⟩ hna
  · rcases b with t | t | ⟨t, c', q'⟩
    · exact absurd ⟨t, rfl⟩ hnb
    · cases s <;> cases t <;> simp_all [Datum.key]
    · have := key_lt_top f t c' q'
      cases s <;> simp_all [Datum.key]
  · rcases b with t | t | ⟨t, c', q'⟩
    · exact absurd ⟨t, rfl⟩ hnb
    · have := key_lt_top f s c q
      cases t <;> simp_all [Datum.key]
    · replace h : exact f s c q = exact f t c' q' := WithTop.coe_injective (WithBot.coe_injective h)
      have hzero : c = 0 ↔ c' = 0 := by rw [← exact_zero hf s q, h, exact_zero hf t q']
      by_cases hc : c = 0
      · rw [Datum.canonical, Datum.canonical, if_pos hc, if_pos (hzero.mp hc)]
      · obtain ⟨d, r, heq, -, hfits, hexact, hd, hlast⟩ := canonical_finite hf hb ha hc
        obtain ⟨d', r', heq', -, hfits', hexact', hd', hlast'⟩ := canonical_finite hf hb hb' (mt hzero.mpr hc)
        obtain ⟨rfl, rfl, rfl⟩ := exact_inj hf hb hd hd' hfits.le_maximum hfits'.le_maximum hlast hlast'
          (by rw [hexact, h, hexact'])
        rw [heq, heq']

end Canonical

def datum (kind : Nat) (p : List UInt8) : Datum := read (format kind) (load p (format kind).width)

def AtMost (kind : Nat) (left right : List UInt8) : Prop :=
  ∃ order, tzSoftCmp left right kind = some order ∧ order ≤ 0

/-- For the decimal formats and the patterns that are not NaN: the comparison is that of the values, two
patterns that it finds equal are those that are hashed as the same bytes, and it is a total preorder. -/
theorem order_agrees_hash {kind : Nat} (h4 : 4 ≤ kind) (h7 : kind < 7) :
    (∀ left right, ¬IsNan (datum kind left) → ¬IsNan (datum kind right) →
      ∃ order l r, tzSoftCmp left right kind = some order ∧
        Orders order ((datum kind left).key (format kind)) ((datum kind right).key (format kind)) ∧
        tzSoftHashCanonical left kind = some l ∧ tzSoftHashCanonical right kind = some r ∧ (order = 0 ↔ l = r)) ∧
    (∀ p q, ¬IsNan (datum kind p) → ¬IsNan (datum kind q) → AtMost kind p q ∨ AtMost kind q p) ∧
    ∀ p q r, ¬IsNan (datum kind p) → ¬IsNan (datum kind q) → ¬IsNan (datum kind r) →
      AtMost kind p q → AtMost kind q r → AtMost kind p r := by
  have hf := format_floating h7
  have hb : (format kind).base = 10 := by interval_cases kind <;> rfl
  have hcmp : ∀ p q, ¬IsNan (datum kind p) → ¬IsNan (datum kind q) → ∃ order, tzSoftCmp p q kind = some order ∧
      Orders order ((datum kind p).key (format kind)) ((datum kind q).key (format kind)) :=
    fun p q hp hq => tzSoftCmp_eq hf rfl hp hq
  have hmost : ∀ p q, ¬IsNan (datum kind p) → ¬IsNan (datum kind q) → (AtMost kind p q ↔
      (datum kind p).key (format kind) ≤ (datum kind q).key (format kind)) := by
    intro p q hp hq
    obtain ⟨order, hrun, horder⟩ := hcmp p q hp hq
    unfold AtMost
    rw [hrun]
    rcases horder with ⟨rfl, h⟩ | ⟨rfl, h⟩ | ⟨rfl, h⟩
    · simp [h.le]
    · simp [h]
    · simp [h]
  refine ⟨fun left right hl hr => ?_, fun p q hp hq => ?_, fun p q r hp hq hr hpq hqr => ?_⟩
  · obtain ⟨order, hrun, horder⟩ := hcmp left right hl hr
    refine ⟨order, _, _, hrun, horder, tzSoftHashCanonical_eq hf hb rfl left,
      tzSoftHashCanonical_eq hf hb rfl right, ?_⟩
    have ha : (datum kind left).Read (format kind) := read_ok hf _
    have hb' : (datum kind right).Read (format kind) := read_ok hf _
    have heq : order = 0 ↔ (datum kind left).key (format kind) = (datum kind right).key (format kind) := by
      rcases horder with ⟨rfl, h⟩ | ⟨rfl, h⟩ | ⟨rfl, h⟩
      · simp [h.ne]
      · simp [h]
      · simp [h.ne']
    rw [heq, ← canonical_eq hf hb ha hb' hl hr]
    exact ⟨fun h => congrArg (fun d => store (encode (format kind) d) (format kind).width) h,
      store_inj hf (canonical_valid hf hb ha) (canonical_valid hf hb hb')⟩
  · rw [hmost p q hp hq, hmost q p hq hp]
    exact le_total _ _
  · rw [hmost p q hp hq] at hpq
    rw [hmost q r hq hr] at hqr
    exact (hmost p r hp hr).mpr (hpq.trans hqr)

/-- Ten in two encodings. -/
theorem order_agrees_hash_ten : ∃ order l r, tzSoftCmp [10, 0, 128, 50] [1, 0, 0, 51] 4 = some order ∧
    Orders order ((datum 4 [10, 0, 128, 50]).key (format 4)) ((datum 4 [1, 0, 0, 51]).key (format 4)) ∧
    tzSoftHashCanonical [10, 0, 128, 50] 4 = some l ∧ tzSoftHashCanonical [1, 0, 0, 51] 4 = some r ∧
    (order = 0 ↔ l = r) :=
  (order_agrees_hash (show 4 ≤ 4 by decide) (by decide)).1 _ _ (fun ⟨s, h⟩ => by cases s <;> exact absurd h (by decide))
    fun ⟨s, h⟩ => by cases s <;> exact absurd h (by decide)

section Difference

variable {f : Format} (hf : f.Floating) {a b d : Datum} {x : ℚ} {order : Int} {s t zero : Bool} {c c' : Nat}
  {q q' preferred : Int}

include hf

/-- What is not less than the least number of a format is not rounded to zero. -/
theorem ne_zero_of_nearest {l : Int} (hx : (f.base : ℚ) ^ l ≤ x)
    (h : Nearest f.base f.precision l x (c * (f.base : ℚ) ^ q)) : c ≠ 0 := by
  rintro rfl
  have hpos := zpow_pos_of_base (K := ℚ) (base_gt hf.base_cases) l
  have hnear := h.nearest 1 l (Nat.one_lt_pow hf.precision_pos.ne' (base_gt hf.base_cases)) le_rfl
  rw [Nat.cast_zero, zero_mul, sub_zero, Nat.cast_one, one_mul, abs_of_pos (hpos.trans_le hx),
    abs_of_nonneg (sub_nonneg.mpr hx)] at hnear
  linarith

theorem least_le_sum (ha : (Datum.finite s c q).Read f) (hb : (Datum.finite t c' q').Read f)
    (hne : exact f s c q + exact f t c' q' ≠ 0) :
    (f.base : ℚ) ^ f.minimum ≤ |exact f s c q + exact f t c' q'| := by
  have hpos := zpow_pos_of_base (K := ℚ) (base_gt hf.base_cases) f.minimum
  obtain ⟨m, hm⟩ : ∃ m : ℤ, exact f s c q + exact f t c' q' = m * (f.base : ℚ) ^ f.minimum := by
    rw [exact_aligned hf s c ha.2.1, exact_aligned hf t c' hb.2.1]
    refine ⟨(if s then -1 else 1) * (c * f.base ^ (q - f.minimum).toNat : Nat) +
      (if t then -1 else 1) * (c' * f.base ^ (q' - f.minimum).toNat : Nat), ?_⟩
    cases s <;> cases t <;> push_cast <;> ring
  have hone : (1 : ℚ) ≤ |(m : ℚ)| := by
    rw [hm] at hne
    exact_mod_cast Int.one_le_abs fun h => hne (by rw [h, Int.cast_zero, zero_mul])
  rw [hm, abs_mul, abs_of_pos hpos]
  exact le_mul_of_one_le_left hpos.le hone

theorem rounds_orders (hleast : x ≠ 0 → (f.base : ℚ) ^ f.minimum ≤ |x|) (h : Rounds f x zero preferred d)
    (horder : Orders order x 0) : Orders order (d.key f) 0 := by
  have hfinite : ∀ (negative : Bool) (c : Nat) (q : Int), c ≠ 0 →
      if negative then exact f negative c q < 0 else 0 < exact f negative c q := fun negative c q hc => by
    have hsign := exact_sign hf negative c q
    have hne := (exact_zero hf negative q).not.mpr hc
    cases negative with
    | false => exact lt_of_le_of_ne hsign (Ne.symm hne)
    | true => exact lt_of_le_of_ne hsign hne
  unfold Rounds at h
  split_ifs at h with hx
  · subst h
    have hzero : exact f zero 0 (zeroExponent f preferred) = 0 := (exact_zero hf _ _).mpr rfl
    exact orders_coe (hzero.symm ▸ hx ▸ horder)
  rcases horder with ⟨rfl, hneg⟩ | ⟨-, heq⟩ | ⟨rfl, hpos⟩
  · rw [decide_eq_true hneg] at h
    cases h with
    | infinity => exact .inl ⟨rfl, WithBot.bot_lt_coe _⟩
    | finite nearest => exact orders_coe (.inl ⟨rfl, hfinite true _ _ (ne_zero_of_nearest hf (hleast hx) nearest)⟩)
  · exact absurd heq hx
  · rw [decide_eq_false hpos.not_gt] at h
    cases h with
    | infinity => exact .inr (.inr ⟨rfl, WithBot.coe_lt_coe.mpr (WithTop.coe_lt_top _)⟩)
    | finite nearest =>
      exact orders_coe (.inr (.inr ⟨rfl, hfinite false _ _ (ne_zero_of_nearest hf (hleast hx) nearest)⟩))

theorem sub_orders (ha : a.Read f) (hb : b.Read f) (hna : ¬IsNan a) (hnb : ¬IsNan b)
    (hinf : ∀ s, ¬(a = .infinity s ∧ b = .infinity s)) (h : AddResult f a b.opposite d)
    (horder : Orders order (a.key f) (b.key f)) : Orders order (d.key f) 0 := by
  have htop : (0 : WithBot (WithTop ℚ)) < ⊤ := WithBot.coe_lt_coe.mpr (WithTop.coe_lt_top _)
  rcases a with s | s | ⟨s, c, q⟩
  · exact absurd ⟨s, rfl⟩ hna
  · rcases b with t | t | ⟨t, c', q'⟩
    · exact absurd ⟨t, rfl⟩ hnb
    · cases s <;> cases t <;> simp_all [Orders, Datum.key, AddResult, Datum.opposite]
    · cases s <;> simp_all [Orders, Datum.key, AddResult, Datum.opposite]
  · rcases b with t | t | ⟨t, c', q'⟩
    · exact absurd ⟨t, rfl⟩ hnb
    · cases t <;> simp_all [Orders, Datum.key, AddResult, Datum.opposite]
    · have hopposite : exact f (!t) c' q' = -exact f t c' q' := by
        cases t <;> simp [exact]
      refine rounds_orders hf (least_le_sum hf ha (opposite_read hb)) h ?_
      rw [hopposite, ← sub_eq_add_neg]
      simpa [Orders, Datum.key, sub_neg, sub_eq_zero] using horder

omit hf in
/-- The difference of two numbers has the sign of their order, however close they are. -/
theorem sub_agrees_order {kind : Nat} (h7 : kind < 7) (left right : List UInt8) (hl : ¬IsNan (datum kind left))
    (hr : ¬IsNan (datum kind right))
    (hinf : ∀ s, ¬(datum kind left = .infinity s ∧ datum kind right = .infinity s)) :
    ∃ out order, tzSoftOp left right kind .sub = some out ∧ tzSoftCmp left right kind = some order ∧
      Orders order ((datum kind out).key (format kind)) 0 := by
  have hf := format_floating h7
  obtain ⟨d, hrun, hvalid, hresult⟩ := tzSoftOp_eq h7 .sub left right
  obtain ⟨order, hcmp, horder⟩ := tzSoftCmp_eq hf rfl hl hr
  refine ⟨_, order, hrun, hcmp, ?_⟩
  rw [datum, load_store hf.width_le hf.width_bytes, Nat.mod_eq_of_lt (encode_lt hf hvalid), read_encode hf hvalid]
  exact sub_orders hf (read_ok hf _) (read_ok hf _) hl hr hinf hresult horder

omit hf in
/-- The least two numbers of binary16. -/
theorem sub_agrees_order_least : ∃ out order, tzSoftOp [1, 0] [2, 0] 0 .sub = some out ∧
    tzSoftCmp [1, 0] [2, 0] 0 = some order ∧ Orders order ((datum 0 out).key (format 0)) 0 :=
  sub_agrees_order (show 0 < 7 by decide) _ _ (fun ⟨s, h⟩ => by cases s <;> exact absurd h (by decide))
    (fun ⟨s, h⟩ => by cases s <;> exact absurd h (by decide)) fun s h => by cases s <;> exact absurd h.1 (by decide)

end Difference

end Tsuzuri.Soft
