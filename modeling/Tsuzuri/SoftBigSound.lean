import Mathlib.Tactic.Ring
import Mathlib.Tactic.Linarith
import Tsuzuri.SoftBig

/-!
# Big integers as numbers

Every big integer is kept without leading zeros, so it is `small` of its value.
-/

namespace Tsuzuri.Soft

open List Nat

theorem LIMBS_eq : LIMBS = 1400 := by rw [LIMBS]

theorem limbs_pred : LIMBS - 1 < LIMBS := by
  have := LIMBS_eq
  omega

abbrev Words (ws : List Nat) : Prop := ∀ w ∈ ws, w < 2 ^ 32

abbrev value (ws : List Nat) : Nat := Nat.ofDigits (2 ^ 32) ws

theorem small_eq (x : Nat) : small x = Nat.digits (2 ^ 32) x := by
  induction x using small.induct with
  | case1 => rw [small, if_pos rfl, digits_zero]
  | case2 x hx ih => rw [small, if_neg hx, ih, ← digits_eq_cons_digits_div (by decide) hx]

theorem words_small (x : Nat) : Words (small x) := by
  intro w hw
  rw [small_eq] at hw
  exact digits_lt_base (by decide) hw

@[simp] theorem value_small (x : Nat) : value (small x) = x := by
  rw [small_eq]
  exact ofDigits_digits _ _

@[simp] theorem small_zero : small 0 = [] := by rw [small, if_pos rfl]

variable {x k y bound length total v rest b divisor n d : Nat} {ws : List Nat} {words : List Nat × Nat}

theorem small_eq_nil : small x = [] ↔ x = 0 := by
  rw [small_eq, digits_eq_nil_iff_eq_zero]

theorem length_small_le : (small x).length ≤ k ↔ x < (2 ^ 32) ^ k := by
  rw [small_eq, digits_length_le_iff (by decide)]

theorem le_of_length_small (h : k < (small x).length) : (2 ^ 32) ^ k ≤ x := by
  by_contra hlt
  exact absurd ((length_small_le (x := x) (k := k)).mpr (by omega)) (by omega)

theorem value_nil : value [] = 0 := rfl

theorem value_cons (w : Nat) (ws : List Nat) : value (w :: ws) = w + 2 ^ 32 * value ws :=
  ofDigits_cons

theorem value_append (xs ys : List Nat) : value (xs ++ ys) = value xs + (2 ^ 32) ^ xs.length * value ys :=
  ofDigits_append

theorem value_lt {w : List Nat} (h : Words w) : value w < (2 ^ 32) ^ w.length :=
  ofDigits_lt_base_pow_length (by decide) h

theorem words_nil : Words [] := by
  intro w hw
  cases hw

theorem words_cons {w : Nat} : Words (w :: ws) ↔ w < 2 ^ 32 ∧ Words ws :=
  forall_mem_cons

theorem eq_small_of_last (h : Words ws) (hlast : ∀ hne : ws ≠ [], ws.getLast hne ≠ 0) : ws = small (value ws) := by
  rw [small_eq]
  exact (digits_ofDigits _ (by decide) ws h hlast).symm

theorem eq_small_of_le (h : Words ws) (hle : ws ≠ [] → (2 ^ 32) ^ (ws.length - 1) ≤ value ws) :
    ws = small (value ws) := by
  refine eq_small_of_last h fun hne hzero => ?_
  have hsplit := dropLast_append_getLast hne
  have hlt : value ws < (2 ^ 32) ^ (ws.length - 1) := by
    rw [← hsplit, value_append, hzero, length_append, length_singleton, Nat.add_sub_cancel]
    have := value_lt (w := ws.dropLast) fun w hw => h w (mem_of_mem_dropLast hw)
    simpa using this
  exact absurd (hle hne) (by omega)

theorem normalize_eq (h : Words ws) : normalize ws = small (value ws) := by
  induction ws using List.reverseRecOn with
  | nil => simp [normalize]
  | append_singleton ws w ih =>
    have hws : Words ws := fun x hx => h x (mem_append_left _ hx)
    by_cases hw : w = 0
    · subst hw
      rw [normalize, rdropWhile_concat_pos _ _ _ (by simp)]
      rw [show value (ws ++ [0]) = value ws from ofDigits_append_zero ws]
      exact ih hws
    · rw [normalize, rdropWhile_concat_neg _ _ _ (by simpa using hw)]
      refine eq_small_of_last h fun _ => ?_
      rwa [getLast_append_singleton]

/-! ## Comparison -/

def order (x y : Nat) : Int := if x < y then -1 else if y < x then 1 else 0

theorem order_nonneg : 0 ≤ order x y ↔ y ≤ x := by
  unfold order
  split
  · constructor <;> intro <;> omega
  · split <;> constructor <;> intro <;> omega

theorem order_neg : order x y < 0 ↔ x < y := by
  have := @order_nonneg x y
  omega

theorem order_eq_zero : order x y = 0 ↔ x = y := by
  unfold order
  split
  · constructor <;> intro <;> omega
  · split <;> constructor <;> intro <;> omega

theorem order_pos : 0 < order x y ↔ y < x := by
  have h1 := @order_nonneg x y
  have h2 := @order_eq_zero x y
  omega

theorem compareFrom_eq (us : List Nat) : ∀ vs : List Nat, us.length = vs.length → Words us → Words vs →
    compareFrom us vs = order (value us.reverse) (value vs.reverse) := by
  induction us with
  | nil =>
    intro vs hlen _ _
    obtain rfl := length_eq_zero_iff.mp hlen.symm
    rfl
  | cons u us ih =>
    intro vs hlen hus hvs
    cases vs with
    | nil => cases hlen
    | cons v vs =>
      simp only [length_cons, add_right_cancel_iff] at hlen
      have hu := (words_cons.mp hus).2
      have hv := (words_cons.mp hvs).2
      have hlow := value_lt (w := us.reverse) fun w hw => hu w (mem_reverse.mp hw)
      have hlow' := value_lt (w := vs.reverse) fun w hw => hv w (mem_reverse.mp hw)
      rw [length_reverse] at hlow hlow'
      rw [hlen] at hlow
      rw [reverse_cons, reverse_cons, value_append, value_append, length_reverse, length_reverse, hlen]
      simp only [value, ofDigits_singleton] at hlow hlow' ⊢
      rw [compareFrom]
      generalize hbase : (2 ^ 32) ^ vs.length = base at *
      by_cases huv : u = v
      · subst huv
        rw [if_neg (by simp), ih vs hlen hu hv]
        simp only [order, add_lt_add_iff_right]
      · rw [if_pos huv, order]
        rcases lt_or_gt_of_ne huv with hlt | hgt
        · have : base * (u + 1) ≤ base * v := mul_le_mul_left _ hlt
          rw [if_pos hlt, if_pos (by rw [mul_add] at this; omega)]
        · have : base * (v + 1) ≤ base * u := mul_le_mul_left _ hgt
          rw [mul_add] at this
          rw [if_neg (by omega), if_neg (by omega), if_pos (by omega)]

theorem compare_small (x y : Nat) : compare (small x) (small y) = order x y := by
  unfold compare
  split
  · rename_i hne
    split
    · rename_i hlt
      have := le_of_length_small hlt
      have := (length_small_le (x := x)).mp (le_refl _)
      rw [order, if_pos (by omega)]
    · rename_i hge
      have := le_of_length_small (x := x) (k := (small y).length) (by omega)
      have := (length_small_le (x := y)).mp (le_refl _)
      rw [order, if_neg (by omega), if_pos (by omega)]
  · rename_i heq
    rw [compareFrom_eq _ _ (by simpa using heq) (fun w hw => words_small x w (mem_reverse.mp hw))
      (fun w hw => words_small y w (mem_reverse.mp hw))]
    simp

theorem bits_small (hx : x ≠ 0) : bits (small x) = x.log2 + 1 := by
  have hne : small x ≠ [] := fun h => hx (small_eq_nil.mp h)
  have hsplit := dropLast_append_getLast hne
  have hlow := value_lt (w := (small x).dropLast) fun w hw => words_small x w (mem_of_mem_dropLast hw)
  have htop : (small x).getLast hne < 2 ^ 32 := words_small x _ (getLast_mem hne)
  have hvalue : value (small x).dropLast + (2 ^ 32) ^ ((small x).length - 1) * (small x).getLast hne = x := by
    have := value_append (small x).dropLast [(small x).getLast hne]
    rw [hsplit, value_small, length_dropLast] at this
    simpa [value] using this.symm
  have hzero : (small x).getLast hne ≠ 0 := by
    have := getLast_digit_ne_zero (2 ^ 32) hx
    simpa only [small_eq] using this
  rw [bits, getLast?_eq_getLast_of_ne_nil hne]
  simp only
  rw [length_dropLast] at hlow
  generalize (small x).getLast hne = top at *
  generalize (small x).length - 1 = n at *
  generalize value (small x).dropLast = low at *
  have hlog : x.log2 = 32 * n + top.log2 := by
    have h1 := log2_self_le hzero
    have h2 := (Nat.log2_lt hzero).mp (Nat.lt_succ_self top.log2)
    rw [log2_eq_iff hx, ← hvalue, Nat.pow_add, Nat.pow_mul, add_assoc, Nat.pow_add, Nat.pow_mul]
    constructor
    · exact (mul_le_mul_left _ h1).trans (le_add_left _ _)
    · have : (2 ^ 32) ^ n * (top + 1) ≤ (2 ^ 32) ^ n * 2 ^ (top.log2 + 1) := mul_le_mul_left _ h2
      rw [mul_add] at this
      omega
  have hlog32 : top.log2 < 32 := (Nat.log2_lt hzero).mpr htop
  rw [hlog, clz]
  omega

@[simp] theorem bits_zero : bits (small 0) = 0 := by rw [small_zero]; rfl

/-- Words and the carry behind them, that together are a number. -/
structure Carries (words : List Nat × Nat) (length bound total : Nat) : Prop where
  below : Words words.1
  length_eq : words.1.length = length
  carry_lt : words.2 < bound
  total_eq : value words.1 + (2 ^ 32) ^ length * words.2 = total

theorem Carries.nil {carry : Nat} (h : carry < bound) : Carries ([], carry) 0 bound carry :=
  ⟨words_nil, rfl, h, by simp [value]⟩

theorem Carries.cons (h : Carries words length bound total) :
    Carries (v % 2 ^ 32 :: words.1, words.2) (length + 1) bound (v % 2 ^ 32 + 2 ^ 32 * total) := by
  refine ⟨words_cons.mpr ⟨mod_lt _ (by decide), h.below⟩, by simp [h.length_eq], h.carry_lt, ?_⟩
  rw [value_cons, ← h.total_eq, Nat.pow_succ]
  ring

theorem Carries.step (h : Carries words length bound (rest + v / 2 ^ 32)) :
    Carries (v % 2 ^ 32 :: words.1, words.2) (length + 1) bound (2 ^ 32 * rest + v) := by
  have hsum : v % 2 ^ 32 + 2 ^ 32 * (rest + v / 2 ^ 32) = 2 ^ 32 * rest + v := by
    have := mod_add_div v (2 ^ 32)
    rw [mul_add]
    omega
  rw [← hsum]
  exact h.cons

theorem withCarry_eq (h : Carries words length (2 ^ 32) total)
    (hlow : length ≠ 0 → (2 ^ 32) ^ (length - 1) ≤ total) (hhigh : total < (2 ^ 32) ^ LIMBS) :
    withCarry words = some (small total) := by
  have htotal := h.total_eq
  rw [← h.length_eq] at htotal hlow
  unfold withCarry
  by_cases hcarry : words.2 = 0
  · rw [if_pos hcarry]
    rw [hcarry, mul_zero, add_zero] at htotal
    rw [← htotal] at hlow ⊢
    exact congrArg some (eq_small_of_le h.below fun hne => hlow (by simpa using hne))
  · have hle : (2 ^ 32) ^ words.1.length ≤ total := by
      rw [← htotal]
      exact Nat.le_add_left_of_le (Nat.le_mul_of_pos_right _ (Nat.pos_of_ne_zero hcarry))
    have hfits : words.1.length < LIMBS :=
      (Nat.pow_lt_pow_iff_right (by decide)).mp (Nat.lt_of_le_of_lt hle hhigh)
    rw [if_neg hcarry, if_neg (by omega), mod_eq_of_lt h.carry_lt]
    have hvalue : value (words.1 ++ [words.2]) = total := by
      rw [value_append, ← htotal]
      simp [value]
    rw [← hvalue]
    refine congrArg some (eq_small_of_le ?_ fun _ => ?_)
    · intro w hw
      rcases mem_append.mp hw with hw | hw
      · exact h.below w hw
      · obtain rfl := mem_singleton.mp hw
        exact h.carry_lt
    · rw [hvalue]
      simpa using hle

theorem multiplyFrom_carries (hb : b < 2 ^ 32) (ws : List Nat) : ∀ carry, carry < 2 ^ 32 →
    Words ws → Carries (multiplyFrom b carry ws) ws.length (2 ^ 32) (value ws * b + carry) := by
  induction ws with
  | nil =>
    intro carry hcarry _
    simpa [multiplyFrom, value] using Carries.nil hcarry
  | cons w ws ih =>
    intro carry hcarry hws
    obtain ⟨hw, hws⟩ := words_cons.mp hws
    have hproduct : w * b ≤ (2 ^ 32 - 1) * (2 ^ 32 - 1) := Nat.mul_le_mul (by omega) (by omega)
    have hv : (w * b + carry) % 2 ^ 64 = w * b + carry := mod_eq_of_lt (by omega)
    have hnext := ih ((w * b + carry) / 2 ^ 32) (by omega) hws
    rw [multiplyFrom]
    simp only [hv, Nat.shiftRight_eq_div_pow]
    have := hnext.step
    rwa [show 2 ^ 32 * (value ws * b) + (w * b + carry) = value (w :: ws) * b + carry by
      rw [value_cons]; ring] at this

theorem multiplySmall_eq (hb : b < 2 ^ 32) (hpos : 0 < b) (h : x * b < (2 ^ 32) ^ LIMBS) :
    multiplySmall (small x) b = some (small (x * b)) := by
  have hcarries := multiplyFrom_carries hb (small x) 0 (by decide) (words_small x)
  rw [value_small, add_zero] at hcarries
  refine withCarry_eq hcarries (fun hne => ?_) h
  exact (le_of_length_small (by omega)).trans (Nat.le_mul_of_pos_right _ hpos)

/-! ## Shifts -/

theorem shiftFrom_carries (hrest : rest < 32) (ws : List Nat) : ∀ carry, carry < 2 ^ rest →
    Words ws → Carries (shiftFrom rest carry ws) ws.length (2 ^ 32) (value ws * 2 ^ rest + carry) := by
  have hpow : 2 ^ rest ≤ 2 ^ 31 := Nat.pow_le_pow_right (by decide) (by omega)
  induction ws with
  | nil =>
    intro carry hcarry _
    simpa [shiftFrom, value] using Carries.nil (show carry < 2 ^ 32 by omega)
  | cons w ws ih =>
    intro carry hcarry hws
    obtain ⟨hw, hws⟩ := words_cons.mp hws
    have hlt : w * 2 ^ rest + carry < 2 ^ 32 * 2 ^ rest := by
      have : (w + 1) * 2 ^ rest ≤ 2 ^ 32 * 2 ^ rest := mul_le_mul_right _ hw
      rw [Nat.add_mul] at this
      omega
    have hbound : 2 ^ 32 * 2 ^ rest ≤ 2 ^ 63 := by
      have := mul_le_mul_left (2 ^ 32) hpow
      omega
    have hv : (w <<< rest) % 2 ^ 64 ||| carry = w * 2 ^ rest + carry := by
      rw [mod_eq_of_lt (by rw [Nat.shiftLeft_eq]; omega), ← Nat.shiftLeft_add_eq_or_of_lt hcarry, Nat.shiftLeft_eq]
    have hnext := ih ((w * 2 ^ rest + carry) / 2 ^ 32) (Nat.div_lt_of_lt_mul hlt) hws
    rw [shiftFrom]
    simp only [hv, Nat.shiftRight_eq_div_pow]
    have := hnext.step
    rwa [show 2 ^ 32 * (value ws * 2 ^ rest) + (w * 2 ^ rest + carry) =
      value (w :: ws) * 2 ^ rest + carry by rw [value_cons]; ring] at this

theorem value_replicate_append (n : Nat) (ws : List Nat) :
    value (List.replicate n 0 ++ ws) = (2 ^ 32) ^ n * value ws := by
  rw [value_append, length_replicate, show value (List.replicate n 0) = 0 from
    ofDigits_replicate_zero, zero_add]

theorem shift_eq {count : Nat} (h : x * 2 ^ count < (2 ^ 32) ^ (LIMBS - 1)) :
    shift (small x) count = some (small (x * 2 ^ count)) := by
  unfold shift
  by_cases htrivial : small x = [] ∨ count = 0
  · rw [if_pos htrivial]
    rcases htrivial with hnil | rfl
    · rw [small_eq_nil.mp hnil, zero_mul]
    · rw [pow_zero, mul_one]
  rw [not_or, small_eq_nil] at htrivial
  obtain ⟨hx, _⟩ := htrivial
  have hsplit : 2 ^ count = (2 ^ 32) ^ (count / 32) * 2 ^ (count % 32) := by
    rw [← Nat.pow_mul, ← Nat.pow_add, div_add_mod]
  have hlength : 0 < (small x).length := by
    rw [length_pos_iff_ne_nil]
    exact fun hnil => hx (small_eq_nil.mp hnil)
  have hle := le_of_length_small (x := x) (k := (small x).length - 1) (by omega)
  have hone : 1 ≤ 2 ^ (count % 32) := Nat.one_le_two_pow
  have hlow : (2 ^ 32) ^ (count / 32 + (small x).length - 1) ≤ x * 2 ^ count := by
    rw [hsplit, Nat.add_sub_assoc hlength, Nat.pow_add, Nat.mul_comm]
    calc (2 ^ 32) ^ ((small x).length - 1) * (2 ^ 32) ^ (count / 32)
        ≤ x * (2 ^ 32) ^ (count / 32) := mul_le_mul_right _ hle
      _ ≤ x * ((2 ^ 32) ^ (count / 32) * 2 ^ (count % 32)) :=
          mul_le_mul_left _ (Nat.le_mul_of_pos_right _ hone)
  have hfits : count / 32 + (small x).length - 1 < LIMBS - 1 :=
    (Nat.pow_lt_pow_iff_right (by decide)).mp (Nat.lt_of_le_of_lt hlow h)
  have hcarries := shiftFrom_carries (mod_lt count (by decide : 0 < 32)) (small x) 0 (Nat.two_pow_pos _) (words_small x)
  rw [value_small, add_zero] at hcarries
  rw [if_neg (by rw [not_or]; exact ⟨fun hnil => hx (small_eq_nil.mp hnil), by assumption⟩)]
  simp only
  rw [if_neg (by omega)]
  generalize shiftFrom (count % 32) 0 (small x) = shifted at hcarries
  have hpadded : Carries (List.replicate (count / 32) 0 ++ shifted.1, shifted.2)
      (count / 32 + (small x).length) (2 ^ 32) (x * 2 ^ count) := by
    refine ⟨?_, by simp [hcarries.length_eq], hcarries.carry_lt, ?_⟩
    · intro w hw
      rcases mem_append.mp hw with hw | hw
      · rw [(mem_replicate.mp hw).2]
        decide
      · exact hcarries.below w hw
    · rw [value_replicate_append, Nat.pow_add, Nat.mul_assoc, ← mul_add, hcarries.total_eq, hsplit]
      ring
  have := withCarry_eq hpadded (fun _ => hlow) (h.trans (Nat.pow_lt_pow_right (by decide) limbs_pred))
  rw [← this, withCarry]
  have hroom : ¬(List.replicate (count / 32) 0 ++ shifted.1).length = LIMBS := by
    rw [hpadded.length_eq]
    omega
  rw [if_neg hroom]
  split <;> rfl

theorem shiftDownFrom_spec (us : List Nat) : ∀ carry, carry < 2 → Words us →
    Words (shiftDownFrom (carry * 2 ^ 31) us) ∧ (shiftDownFrom (carry * 2 ^ 31) us).length = us.length ∧
      value (shiftDownFrom (carry * 2 ^ 31) us).reverse = (value us.reverse + (2 ^ 32) ^ us.length * carry) / 2 := by
  induction us with
  | nil =>
    intro carry hcarry _
    refine ⟨words_nil, rfl, ?_⟩
    simp only [shiftDownFrom, reverse_nil, value, ofDigits_nil, length_nil, pow_zero]
    omega
  | cons u us ih =>
    intro carry hcarry hus
    obtain ⟨hu, hus⟩ := words_cons.mp hus
    have hcarry' : u <<< 31 % 2 ^ 32 = u % 2 * 2 ^ 31 := by
      rw [Nat.shiftLeft_eq]
      omega
    have hword : u >>> 1 ||| carry * 2 ^ 31 = carry * 2 ^ 31 + u / 2 := by
      rw [Nat.or_comm, ← Nat.shiftLeft_eq, ← Nat.shiftLeft_add_eq_or_of_lt
        (by rw [Nat.shiftRight_eq_div_pow]; omega), Nat.shiftRight_eq_div_pow]
    obtain ⟨hwords, hlength, hvalue⟩ := ih (u % 2) (mod_lt _ (by decide)) hus
    rw [shiftDownFrom, hcarry', hword]
    refine ⟨words_cons.mpr ⟨by omega, hwords⟩, congrArg (· + 1) hlength, ?_⟩
    rw [reverse_cons, reverse_cons, value_append, value_append, hvalue, length_reverse,
      length_reverse, hlength, length_cons, Nat.pow_succ (n := 2 ^ 32)]
    simp only [value, ofDigits_singleton]
    generalize (2 ^ 32) ^ us.length = base
    generalize Nat.ofDigits (2 ^ 32) us.reverse = low
    have hsplit : low + base * u + base * 2 ^ 32 * carry =
        low + base * (u % 2) + base * (carry * 2 ^ 31 + u / 2) * 2 := by
      conv_lhs => rw [← mod_add_div u 2]
      ring
    rw [hsplit, add_mul_div_right _ _ (by decide)]

theorem shiftDown_eq (x : Nat) : shiftDown (small x) = small (x / 2) := by
  have hwords : Words (small x).reverse := fun w hw => words_small x w (mem_reverse.mp hw)
  obtain ⟨hw, _, hvalue⟩ := shiftDownFrom_spec (small x).reverse 0 (by decide) hwords
  rw [zero_mul] at hw hvalue
  rw [shiftDown, normalize_eq fun w h => hw w (mem_reverse.mp h), hvalue]
  simp

theorem repeated_eq {f : Big → Option Big} (hpos : 0 < b)
    (hf : ∀ x, x * b < (2 ^ 32) ^ LIMBS → f (small x) = some (small (x * b))) (count : Nat) :
    ∀ x, x * b ^ count < (2 ^ 32) ^ LIMBS → repeated f count (small x) = some (small (x * b ^ count)) := by
  induction count with
  | zero =>
    intro x _
    rw [repeated, pow_zero, mul_one]
  | succ count ih =>
    intro x h
    rw [Nat.pow_succ, Nat.mul_comm (b ^ count), ← Nat.mul_assoc] at h ⊢
    have hone : x * b ≤ x * b * b ^ count := Nat.le_mul_of_pos_right _ (Nat.pow_pos hpos)
    rw [repeated, hf x (by omega)]
    exact ih (x * b) h

theorem power_eq {base exponent : Nat} (hbase : base = 2 ∨ base = 10)
    (h : x * base ^ exponent < (2 ^ 32) ^ (LIMBS - 1)) :
    power (small x) base exponent = some (small (x * base ^ exponent)) := by
  unfold power
  rcases hbase with rfl | rfl
  · exact shift_eq h
  have hlt : x * 10 ^ exponent < (2 ^ 32) ^ LIMBS :=
    h.trans (Nat.pow_lt_pow_right (by decide) limbs_pred)
  have hsplit : 10 ^ exponent = 1000000000 ^ (exponent / 9) * 10 ^ (exponent % 9) := by
    rw [show (1000000000 : Nat) = 10 ^ 9 by norm_num, ← Nat.pow_mul, ← Nat.pow_add, div_add_mod]
  rw [hsplit, ← Nat.mul_assoc] at hlt ⊢
  have hone : x * 1000000000 ^ (exponent / 9) ≤ x * 1000000000 ^ (exponent / 9) * 10 ^ (exponent % 9) :=
    Nat.le_mul_of_pos_right _ (Nat.pow_pos (by decide))
  rw [if_neg (by decide), repeated_eq (by decide) (fun y => multiplySmall_eq (by decide) (by decide)) _ _ (by omega)]
  exact repeated_eq (by decide) (fun y => multiplySmall_eq (by decide) (by decide)) _ _ hlt

theorem addFrom_carries (xs : List Nat) : ∀ (ys : List Nat) (carry : Nat), carry < 2 → Words xs →
    Words ys → Carries (addFrom carry xs ys) (max xs.length ys.length) 2 (value xs + value ys + carry) := by
  have hcell : ∀ {x y c rest : Nat} {words : List Nat × Nat} {length : Nat},
      Carries words length 2 (rest + (x + y + c) / 2 ^ 32) →
        Carries ((x + y + c) % 2 ^ 32 :: words.1, words.2) (length + 1) 2
          (2 ^ 32 * rest + (x + y + c)) := fun h => h.step
  induction xs with
  | nil =>
    intro ys
    induction ys with
    | nil =>
      intro carry hcarry _ _
      simpa [addFrom, value] using Carries.nil hcarry
    | cons y ys ih =>
      intro carry hcarry hxs hys
      obtain ⟨hy, hys⟩ := words_cons.mp hys
      have := hcell (x := 0) (y := y) (c := carry) (ih _ (by omega) hxs hys)
      rw [addFrom, Nat.shiftRight_eq_div_pow]
      simp only [length_nil, zero_max, length_cons, value_nil] at this ⊢
      rw [value_cons]
      convert this using 1
      ring
  | cons x xs ih =>
    intro ys carry hcarry hxs hys
    obtain ⟨hx, hxs⟩ := words_cons.mp hxs
    cases ys with
    | nil =>
      have := hcell (x := x) (y := 0) (c := carry) (ih [] _ (by omega) hxs words_nil)
      rw [addFrom, Nat.shiftRight_eq_div_pow]
      simp only [length_nil, max_zero, length_cons, value_nil] at this ⊢
      rw [value_cons]
      convert this using 1
      ring
    | cons y ys =>
      obtain ⟨hy, hys⟩ := words_cons.mp hys
      have := hcell (x := x) (y := y) (c := carry) (ih ys _ (by omega) hxs hys)
      rw [addFrom, Nat.shiftRight_eq_div_pow]
      simp only [length_cons, Nat.add_max_add_right] at this ⊢
      rw [value_cons, value_cons]
      convert this using 1
      ring

theorem add_eq (h : x + y < (2 ^ 32) ^ LIMBS) : add (small x) (small y) = some (small (x + y)) := by
  have hcarries := addFrom_carries (small x) (small y) 0 (by decide) (words_small x) (words_small y)
  rw [value_small, value_small, add_zero] at hcarries
  refine withCarry_eq { hcarries with carry_lt := hcarries.carry_lt.trans (by decide) } (fun hne => ?_) h
  rcases le_total (small x).length (small y).length with hle | hle
  · rw [max_eq_right hle] at hne ⊢
    exact (le_of_length_small (by omega)).trans (le_add_left _ _)
  · rw [max_eq_left hle] at hne ⊢
    exact (le_of_length_small (by omega)).trans (le_add_right _ _)

theorem subtractFrom_spec (xs : List Nat) : ∀ (ys : List Nat) (borrow : Nat), borrow < 2 → Words xs →
    Words ys → value ys + borrow ≤ value xs → Words (subtractFrom borrow xs ys) ∧
        value (subtractFrom borrow xs ys) = value xs - (value ys + borrow) := by
  induction xs with
  | nil =>
    intro ys borrow _ _ _ _
    exact ⟨words_nil, (Nat.zero_sub _).symm⟩
  | cons x xs ih =>
    intro ys borrow hborrow hxs hys hle
    obtain ⟨hx, hxs⟩ := words_cons.mp hxs
    obtain ⟨y, zs, hy, hzs, hvalue, hhead, htail⟩ : ∃ y zs, y < 2 ^ 32 ∧ Words zs ∧
        value ys = y + 2 ^ 32 * value zs ∧ ys.headD 0 = y ∧ ys.tail = zs := by
      cases ys with
      | nil => exact ⟨0, [], by decide, words_nil, by simp [value], rfl, rfl⟩
      | cons y ys => exact ⟨y, ys, (words_cons.mp hys).1, (words_cons.mp hys).2, value_cons y ys, rfl, rfl⟩
    rw [subtractFrom, hhead, htail]
    rw [hvalue, value_cons] at hle
    rw [hvalue, value_cons]
    by_cases hlt : x < y + borrow
    · obtain ⟨hwords, hnext⟩ := ih zs 1 (by decide) hxs hzs (by omega)
      simp only [if_pos hlt]
      refine ⟨words_cons.mpr ⟨mod_lt _ (by decide), hwords⟩, ?_⟩
      rw [value_cons, hnext]
      omega
    · obtain ⟨hwords, hnext⟩ := ih zs 0 (by decide) hxs hzs (by omega)
      simp only [if_neg hlt]
      refine ⟨words_cons.mpr ⟨mod_lt _ (by decide), hwords⟩, ?_⟩
      rw [value_cons, hnext]
      omega

theorem subtract_eq (h : y ≤ x) : subtract (small x) (small y) = small (x - y) := by
  obtain ⟨hwords, hvalue⟩ := subtractFrom_spec (small x) (small y) 0 (by decide) (words_small x)
    (words_small y) (by simpa using h)
  rw [subtract, normalize_eq hwords, hvalue]
  simp

theorem words_uncons (h : Words ws) : ∃ w rest, w < 2 ^ 32 ∧ Words rest ∧
    value ws = w + 2 ^ 32 * value rest ∧ ws.headD 0 = w ∧ ws.tail = rest := by
  cases ws with
  | nil => exact ⟨0, [], by decide, words_nil, by simp [value], rfl, rfl⟩
  | cons w ws => exact ⟨w, ws, (words_cons.mp h).1, (words_cons.mp h).2, value_cons w ws, rfl, rfl⟩

theorem multiplyRow_spec {word : Nat} (hword : word < 2 ^ 32) (ys : List Nat) :
    ∀ (carry : Nat) (result : List Nat), carry < 2 ^ 32 → Words ys → Words result →
      ys.length < result.length → value result < (2 ^ 32) ^ ys.length → Words (multiplyRow word carry ys result) ∧
          (multiplyRow word carry ys result).length = result.length ∧
            value (multiplyRow word carry ys result) = word * value ys + value result + carry := by
  induction ys with
  | nil =>
    intro carry result hcarry _ hresult hlen hvalue
    obtain ⟨r, rs, hr, hrs, hsplit, hhead, htail⟩ := words_uncons hresult
    rw [length_nil, pow_zero] at hvalue
    rw [multiplyRow, mod_eq_of_lt hcarry, htail]
    refine ⟨words_cons.mpr ⟨hcarry, hrs⟩, ?_, ?_⟩
    · rw [length_cons, ← htail, length_tail]
      rw [length_nil] at hlen
      omega
    · rw [value_cons, value_nil]
      omega
  | cons y ys ih =>
    intro carry result hcarry hys hresult hlen hvalue
    obtain ⟨hy, hys⟩ := words_cons.mp hys
    obtain ⟨r, rs, hr, hrs, hsplit, hhead, htail⟩ := words_uncons hresult
    have hproduct : word * y ≤ (2 ^ 32 - 1) * (2 ^ 32 - 1) := Nat.mul_le_mul (by omega) (by omega)
    rw [length_cons] at hlen
    have hrest : rs.length = result.length - 1 := by rw [← htail, length_tail]
    have hlow : value rs < (2 ^ 32) ^ ys.length := by
      rw [hsplit, length_cons, Nat.pow_succ (n := 2 ^ 32)] at hvalue
      omega
    rw [multiplyRow, hhead, htail, mod_eq_of_lt (by omega : word * y + r + carry < 2 ^ 64), Nat.shiftRight_eq_div_pow]
    obtain ⟨hwords, hlength, hnext⟩ := ih ((word * y + r + carry) / 2 ^ 32) rs (by omega) hys hrs (by omega) hlow
    refine ⟨words_cons.mpr ⟨mod_lt _ (by decide), hwords⟩, ?_, ?_⟩
    · rw [length_cons, hlength]
      omega
    rw [value_cons, hnext, hsplit, value_cons]
    have hdiv := mod_add_div (word * y + r + carry) (2 ^ 32)
    calc (word * y + r + carry) % 2 ^ 32 + 2 ^ 32 * (word * value ys + value rs + (word * y + r + carry) / 2 ^ 32)
        = (word * y + r + carry) % 2 ^ 32 + 2 ^ 32 * ((word * y + r + carry) / 2 ^ 32) +
            2 ^ 32 * (word * value ys + value rs) := by ring
      _ = word * (y + 2 ^ 32 * value ys) + (r + 2 ^ 32 * value rs) + carry := by rw [hdiv]; ring

theorem multiplyRows_spec {b : List Nat} (hb : Words b) (a : List Nat) : ∀ result : List Nat, Words a →
    Words result → result.length = a.length + b.length → value result < (2 ^ 32) ^ b.length →
      Words (multiplyRows b a result) ∧ value (multiplyRows b a result) = value a * value b + value result := by
  induction a with
  | nil =>
    intro result _ hresult _ _
    exact ⟨hresult, by simp [multiplyRows]⟩
  | cons word a ih =>
    intro result ha hresult hlen hvalue
    obtain ⟨hword, ha⟩ := words_cons.mp ha
    rw [length_cons] at hlen
    obtain ⟨hrow, hrowlen, hrowvalue⟩ := multiplyRow_spec hword b 0 result (by decide) hb hresult (by omega) hvalue
    obtain ⟨r, rest, hr, hrest, hsplit, hhead, htail⟩ := words_uncons hrow
    have hrestlen : rest.length = a.length + b.length := by
      rw [← htail, length_tail, hrowlen]
      omega
    have hlow : value rest < (2 ^ 32) ^ b.length := by
      have hfactor : (word + 1) * ((2 ^ 32) ^ b.length) ≤ 2 ^ 32 * (2 ^ 32) ^ b.length :=
        mul_le_mul_right _ hword
      have hbvalue : word * value b ≤ word * (2 ^ 32) ^ b.length :=
        mul_le_mul_left _ (le_of_lt (value_lt hb))
      rw [Nat.add_mul, one_mul] at hfactor
      omega
    obtain ⟨hwords, hnext⟩ := ih rest ha hrest hrestlen hlow
    rw [multiplyRows]
    simp only [hhead, htail]
    refine ⟨words_cons.mpr ⟨hr, hwords⟩, ?_⟩
    rw [value_cons, hnext, value_cons]
    calc r + 2 ^ 32 * (value a * value b + value rest)
        = 2 ^ 32 * (value a * value b) + (r + 2 ^ 32 * value rest) := by ring
      _ = (word + 2 ^ 32 * value a) * value b + value result := by rw [← hsplit, hrowvalue]; ring

theorem multiply_eq (h : (small x).length + (small y).length ≤ LIMBS) :
    multiply (small x) (small y) = some (small (x * y)) := by
  have hzero : value (List.replicate ((small x).length + (small y).length) 0) = 0 :=
    ofDigits_replicate_zero
  obtain ⟨hwords, hvalue⟩ := multiplyRows_spec (words_small y) (small x)
    (List.replicate ((small x).length + (small y).length) 0) (words_small x)
    (fun w hw => by rw [(mem_replicate.mp hw).2]; decide) length_replicate
    (by rw [hzero]; exact Nat.pow_pos (by decide))
  rw [multiply, if_neg (by omega), normalize_eq hwords, hvalue, hzero]
  simp

/-! ## Division -/

theorem divideSmallFrom_spec (hpos : 0 < divisor) (us : List Nat) : ∀ remainder, remainder < divisor → Words us →
      Words (divideSmallFrom divisor remainder us).1 ∧ (divideSmallFrom divisor remainder us).1.length = us.length ∧
          (divideSmallFrom divisor remainder us).2 < divisor ∧
            value (divideSmallFrom divisor remainder us).1.reverse * divisor +
                (divideSmallFrom divisor remainder us).2 = remainder * (2 ^ 32) ^ us.length + value us.reverse := by
  induction us with
  | nil =>
    intro remainder hrem _
    exact ⟨words_nil, rfl, hrem, by simp [divideSmallFrom]⟩
  | cons u us ih =>
    intro remainder hrem hus
    obtain ⟨hu, hus⟩ := words_cons.mp hus
    have hv : remainder <<< 32 ||| u = remainder * 2 ^ 32 + u := by
      rw [← Nat.shiftLeft_add_eq_or_of_lt hu, Nat.shiftLeft_eq]
    have hquotient : (remainder * 2 ^ 32 + u) / divisor < 2 ^ 32 := by
      rw [div_lt_iff_lt_mul hpos]
      have : (remainder + 1) * 2 ^ 32 ≤ divisor * 2 ^ 32 := mul_le_mul_right _ hrem
      rw [Nat.mul_comm (2 ^ 32)]
      omega
    obtain ⟨hwords, hlength, hrem', hnext⟩ := ih ((remainder * 2 ^ 32 + u) % divisor) (mod_lt _ hpos) hus
    rw [divideSmallFrom, hv]
    simp only [mod_eq_of_lt hquotient]
    refine ⟨words_cons.mpr ⟨hquotient, hwords⟩, congrArg (· + 1) hlength, hrem', ?_⟩
    rw [reverse_cons, reverse_cons, value_append, value_append, length_reverse,
      length_reverse, hlength, length_cons, Nat.pow_succ (n := 2 ^ 32), Nat.add_mul]
    simp only [value, ofDigits_singleton] at hnext ⊢
    have hdiv := mod_add_div (remainder * 2 ^ 32 + u) divisor
    generalize (remainder * 2 ^ 32 + u) / divisor = q at *
    generalize (remainder * 2 ^ 32 + u) % divisor = r at *
    calc _ = (2 ^ 32) ^ us.length * (divisor * q) +
          (Nat.ofDigits (2 ^ 32) (divideSmallFrom divisor r us).1.reverse * divisor +
            (divideSmallFrom divisor r us).2) := by ring
      _ = (2 ^ 32) ^ us.length * (r + divisor * q) + Nat.ofDigits (2 ^ 32) us.reverse := by rw [hnext]; ring
      _ = _ := by rw [hdiv]; ring

theorem divideSmall_eq (hpos : 0 < divisor) : divideSmall (small x) divisor = (small (x / divisor), x % divisor) := by
  have hus : Words (small x).reverse := fun w hw => words_small x w (mem_reverse.mp hw)
  obtain ⟨hwords, _, hrem, hvalue⟩ := divideSmallFrom_spec hpos (small x).reverse 0 hpos hus
  rw [zero_mul, zero_add, reverse_reverse, value_small] at hvalue
  rw [divideSmall]
  generalize divideSmallFrom divisor 0 (small x).reverse = words at *
  rw [normalize_eq fun w hw => hwords w (mem_reverse.mp hw), ← hvalue, add_comm,
    add_mul_div_right _ _ hpos, Nat.div_eq_of_lt hrem, zero_add, add_mul_mod_self_right,
    mod_eq_of_lt hrem]

def wordsOf (n x : Nat) : List Nat := (List.range n).map fun k => x / (2 ^ 32) ^ k % 2 ^ 32

theorem words_wordsOf (n x : Nat) : Words (wordsOf n x) := by
  intro w hw
  obtain ⟨k, _, rfl⟩ := mem_map.mp hw
  exact mod_lt _ (by decide)

theorem value_wordsOf (n x : Nat) : value (wordsOf n x) = x % (2 ^ 32) ^ n := by
  induction n with
  | zero => simp [wordsOf, value, mod_one]
  | succ n ih =>
    have hsucc : wordsOf (n + 1) x = wordsOf n x ++ [x / (2 ^ 32) ^ n % 2 ^ 32] := by
      simp [wordsOf, range_succ]
    rw [hsucc, value_append, ih, Nat.pow_succ (n := 2 ^ 32), Nat.mod_mul]
    simp [wordsOf, value]

theorem wordsOf_zero (n : Nat) : wordsOf n 0 = List.replicate n 0 := by
  simp [wordsOf, map_const']

theorem wordsOf_setBit {i : Nat} (hdvd : 2 ^ (i + 1) ∣ x) :
    (wordsOf n x).modify (i / 32) (· ||| 1 <<< (i % 32)) = wordsOf n (x + 2 ^ i) := by
  have hor : x + 2 ^ i = x ||| 2 ^ i := by
    obtain ⟨y, rfl⟩ := hdvd
    rw [Nat.mul_comm, ← Nat.shiftLeft_eq, Nat.shiftLeft_add_eq_or_of_lt
      (Nat.pow_lt_pow_right (by decide) (Nat.lt_succ_self i))]
  refine ext_getElem (by simp [wordsOf]) fun k h1 h2 => ?_
  rw [getElem_modify]
  simp only [wordsOf, getElem_map, getElem_range, hor]
  rw [← Nat.pow_mul, ← Nat.shiftRight_eq_div_pow, ← Nat.shiftRight_eq_div_pow, shiftRight_or_distrib, or_mod_two_pow]
  rcases lt_trichotomy k (i / 32) with hlt | rfl | hgt
  · rw [if_neg (by omega)]
    have : 2 ^ i >>> (32 * k) % 2 ^ 32 = 0 := by
      rw [Nat.shiftRight_eq_div_pow, Nat.pow_div (by omega) (by decide),
        show i - 32 * k = (i - 32 * k - 32) + 32 by omega, Nat.pow_add]
      exact mul_mod_left _ _
    rw [this, or_zero]
  · rw [if_pos rfl]
    have : 2 ^ i >>> (32 * (i / 32)) % 2 ^ 32 = 1 <<< (i % 32) := by
      rw [Nat.shiftRight_eq_div_pow, Nat.pow_div (by omega) (by decide),
        show i - 32 * (i / 32) = i % 32 by omega, Nat.shiftLeft_eq, one_mul]
      exact mod_eq_of_lt (Nat.pow_lt_pow_right (by decide) (mod_lt _ (by decide)))
    rw [this]
  · rw [if_neg (by omega)]
    have : 2 ^ i >>> (32 * k) % 2 ^ 32 = 0 := by
      rw [Nat.shiftRight_eq_div_pow, Nat.div_eq_of_lt (Nat.pow_lt_pow_right (by decide) (by omega)), Nat.zero_mod]
    rw [this, or_zero]

theorem divideFrom_eq (hd : 0 < d) : ∀ (i r q : Nat), 2 ^ i ∣ q → r < d * 2 ^ i → q + 2 ^ i ≤ (2 ^ 32) ^ n →
      divideFrom i (small r) (small (d * 2 ^ i / 2)) (wordsOf n q) = (small (q + r / d), small (r % d)) := by
  intro i
  induction i with
  | zero =>
    intro r q _ hr hq
    rw [pow_zero, mul_one] at hr
    rw [divideFrom, normalize_eq (words_wordsOf n q), value_wordsOf, mod_eq_of_lt (by omega),
      Nat.div_eq_of_lt hr, mod_eq_of_lt hr, add_zero]
  | succ i ih =>
    intro r q hdvd hr hq
    have hhalf : d * 2 ^ (i + 1) / 2 = d * 2 ^ i := by
      rw [Nat.pow_succ, ← Nat.mul_assoc, Nat.mul_div_cancel _ (by decide)]
    have hdvd' : 2 ^ i ∣ q := (pow_dvd_pow 2 (le_succ i)).trans hdvd
    have htwo : 2 ^ (i + 1) = 2 ^ i + 2 ^ i := by omega
    rw [htwo, mul_add] at hr
    rw [divideFrom, hhalf, compare_small, shiftDown_eq]
    by_cases hle : d * 2 ^ i ≤ r
    · rw [if_pos (order_nonneg.mpr hle), subtract_eq hle, wordsOf_setBit hdvd,
        ih _ _ ((Nat.dvd_add_right hdvd').mpr (Nat.dvd_refl _)) (by omega) (by omega)]
      have hsplit : r = r - d * 2 ^ i + d * 2 ^ i := by omega
      have hdiv : r / d = (r - d * 2 ^ i) / d + 2 ^ i := by
        conv_lhs => rw [hsplit]
        rw [add_mul_div_left _ _ hd]
      have hmod : r % d = (r - d * 2 ^ i) % d := by
        conv_lhs => rw [hsplit]
        rw [add_mul_mod_self_left]
      rw [hdiv, hmod, add_assoc, add_comm (2 ^ i)]
    · rw [if_neg (by rw [order_nonneg]; exact hle), ih _ _ hdvd' (by omega) (by omega)]

theorem log2_lt (hx : x ≠ 0) (h : x < (2 ^ 32) ^ k) : x.log2 < 32 * k := by
  rw [Nat.log2_lt hx, Nat.pow_mul]
  exact h

theorem divide_eq {r : Nat} (hd : 0 < d) (hr : r < (2 ^ 32) ^ (LIMBS - 2)) :
    divide (small r) (small d) = some (small (r / d), small (r % d)) := by
  have hlimbs := LIMBS_eq
  have hd' : d ≠ 0 := by omega
  rw [divide, if_neg (by rw [small_eq_nil]; exact hd')]
  rcases Nat.eq_zero_or_pos r with rfl | hpos
  · rw [bits_zero, bits_small hd']
    simp only
    rw [if_pos (by omega), Nat.zero_div, Nat.zero_mod, small_zero]
  rw [bits_small hd', bits_small (by omega)]
  simp only
  have hdlow := log2_self_le hd'
  have hdhigh := (Nat.log2_lt hd').mp (Nat.lt_succ_self d.log2)
  have hrlow := log2_self_le (n := r) (by omega)
  have hrhigh := (Nat.log2_lt (n := r) (by omega)).mp (Nat.lt_succ_self r.log2)
  by_cases hlt : r.log2 < d.log2
  · rw [if_pos (by omega)]
    have : r < d := by
      refine lt_of_lt_of_le hrhigh (le_trans ?_ hdlow)
      exact Nat.pow_le_pow_right (by decide) hlt
    rw [Nat.div_eq_of_lt this, mod_eq_of_lt this, small_zero]
  rw [if_neg (by omega)]
  have hbits : r.log2 < 32 * (LIMBS - 2) := log2_lt (by omega) hr
  obtain ⟨distance, hdistance⟩ : ∃ distance, r.log2 = d.log2 + distance :=
    ⟨r.log2 - d.log2, by omega⟩
  have hnat : (((r.log2 + 1 : Nat) : Int) - ((d.log2 + 1 : Nat) : Int)).toNat = distance := by omega
  rw [hnat, if_neg (by omega)]
  have hshift : d * 2 ^ distance < (2 ^ 32) ^ (LIMBS - 1) := by
    have hle : d * 2 ^ distance < 2 ^ (d.log2 + 1) * 2 ^ distance :=
      Nat.mul_lt_mul_of_pos_right hdhigh (Nat.two_pow_pos _)
    rw [← Nat.pow_add] at hle
    refine lt_of_lt_of_le hle ?_
    rw [← Nat.pow_mul]
    exact Nat.pow_le_pow_right (by decide) (by omega)
  have hquotient : 0 + 2 ^ (distance + 1) ≤ (2 ^ 32) ^ (distance / 32 + 1) := by
    rw [← Nat.pow_mul, zero_add]
    exact Nat.pow_le_pow_right (by decide) (by omega)
  have hrem : r < d * 2 ^ (distance + 1) := by
    refine lt_of_lt_of_le hrhigh ?_
    rw [hdistance, succ_eq_add_one, add_assoc, Nat.pow_add]
    exact mul_le_mul_right _ hdlow
  have hhalf : d * 2 ^ (distance + 1) / 2 = d * 2 ^ distance := by
    rw [Nat.pow_succ, ← Nat.mul_assoc, Nat.mul_div_cancel _ (by decide)]
  have := divideFrom_eq hd (distance + 1) r 0 (dvd_zero _) hrem hquotient
  rw [hhalf, wordsOf_zero, zero_add] at this
  rw [shift_eq hshift]
  exact congrArg some this

theorem narrowFrom_eq (us : List Nat) : ∀ v, Words us → v * (2 ^ 32) ^ us.length + value us.reverse < 2 ^ 128 →
    narrowFrom v us = v * (2 ^ 32) ^ us.length + value us.reverse := by
  induction us with
  | nil =>
    intro v _ _
    simp [narrowFrom]
  | cons u us ih =>
    intro v hus hlt
    obtain ⟨hu, hus⟩ := words_cons.mp hus
    rw [reverse_cons, value_append, length_reverse, length_cons, Nat.pow_succ (n := 2 ^ 32)] at hlt ⊢
    simp only [value, ofDigits_singleton] at hlt ih ⊢
    have hregroup : v * ((2 ^ 32) ^ us.length * 2 ^ 32) +
        (Nat.ofDigits (2 ^ 32) us.reverse + (2 ^ 32) ^ us.length * u) =
        (v * 2 ^ 32 + u) * (2 ^ 32) ^ us.length + Nat.ofDigits (2 ^ 32) us.reverse := by ring
    rw [hregroup] at hlt ⊢
    have hone : v * 2 ^ 32 + u ≤ (v * 2 ^ 32 + u) * (2 ^ 32) ^ us.length :=
      Nat.le_mul_of_pos_right _ (Nat.pow_pos (by decide))
    have hv : v <<< 32 % 2 ^ 128 ||| u = v * 2 ^ 32 + u := by
      rw [mod_eq_of_lt (by rw [Nat.shiftLeft_eq]; omega), ← Nat.shiftLeft_add_eq_or_of_lt hu, Nat.shiftLeft_eq]
    rw [narrowFrom, hv]
    exact ih _ hus hlt

theorem narrow_eq (h : x < 2 ^ 128) : narrow (small x) = some x := by
  have hlen : (small x).length ≤ 4 := length_small_le.mpr (by simpa using h)
  have := narrowFrom_eq (small x).reverse 0 (fun w hw => words_small x w (mem_reverse.mp hw)) (by simpa using h)
  rw [narrow, if_neg (by omega), this]
  simp

end Tsuzuri.Soft
