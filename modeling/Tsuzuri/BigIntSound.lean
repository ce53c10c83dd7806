import Mathlib.Data.Int.Order.Basic
import Mathlib.Tactic.LinearCombination
import Mathlib.Tactic.Ring
import Tsuzuri.BigInt

/-!
# Bigint arithmetic is integer arithmetic

A list of digits denotes its `value`.
-/

namespace Tsuzuri.BigInt

open FaultVec List

def value : List Int → Int
  | [] => 0
  | d :: ds => d + base * value ds

def Digits (ds : List Int) : Prop := ∀ d ∈ ds, 0 ≤ d ∧ d < base

variable {ds left right : List Int} {d : Int}

theorem base_pos : 0 < base := by decide

theorem pow_pos (n : Nat) : 0 < base ^ n := Int.pow_pos base_pos

theorem digits_nil : Digits [] := fun _ h => absurd h not_mem_nil

theorem digits_cons : Digits (d :: ds) ↔ (0 ≤ d ∧ d < base) ∧ Digits ds := forall_mem_cons

theorem digits_append : Digits (left ++ right) ↔ Digits left ∧ Digits right := forall_mem_append

theorem Digits.tail (h : Digits ds) : Digits ds.tail := fun d hd => h d (mem_of_mem_tail hd)

theorem Digits.headD (h : Digits ds) : 0 ≤ ds.headD 0 ∧ ds.headD 0 < base := by
  cases ds with
  | nil => exact ⟨le_rfl, base_pos⟩
  | cons d ds => exact (digits_cons.1 h).1

theorem value_tail (ds : List Int) : value ds = ds.headD 0 + base * value ds.tail := by
  cases ds <;> rfl

theorem value_append (left right : List Int) :
    value (left ++ right) = value left + base ^ left.length * value right := by
  induction left with
  | nil => simp [value]
  | cons d left ih =>
    rw [cons_append, value, ih, value, length_cons, pow_succ]
    ring

theorem value_zeros (h : ∀ d ∈ ds, d = 0) : value ds = 0 := by
  induction ds with
  | nil => rfl
  | cons d ds ih =>
    obtain ⟨rfl, hds⟩ := forall_mem_cons.1 h
    rw [value, ih hds]
    rfl

theorem Digits.value_bounds (h : Digits ds) : 0 ≤ value ds ∧ value ds < base ^ ds.length := by
  induction ds with
  | nil => exact ⟨le_rfl, Int.one_pos⟩
  | cons d ds ih =>
    obtain ⟨⟨hd, hd'⟩, hds⟩ := digits_cons.1 h
    obtain ⟨hlo, hhi⟩ := ih hds
    have hmul := Int.mul_le_mul_of_nonneg_left (Int.add_one_le_of_lt hhi) (Int.le_of_lt base_pos)
    have hmul' := Int.mul_nonneg (Int.le_of_lt base_pos) hlo
    rw [Int.mul_add, Int.mul_one] at hmul
    rw [value, length_cons, pow_succ, Int.mul_comm _ base]
    exact ⟨by omega, by omega⟩

def Trimmed (ds : List Int) : Prop := trim ds = ds

theorem trimmed_trim (ds : List Int) : Trimmed (trim ds) := rdropWhile_idempotent _ _

theorem digits_trim (h : Digits ds) : Digits (trim ds) :=
  fun d hd => h d (( rdropWhile_prefix _ ds).subset hd)

theorem value_trim (ds : List Int) : value (trim ds) = value ds := by
  have hsplit : trim ds ++ ds.rtakeWhile (· = 0) = ds := rdropWhile_append_rtakeWhile
  have hzeros : value (ds.rtakeWhile (· = 0)) = 0 :=
    value_zeros fun d hd => by simpa using mem_rtakeWhile_imp hd
  calc value (trim ds) = value (trim ds ++ ds.rtakeWhile (· = 0)) := by
        rw [value_append, hzeros, Int.mul_zero, Int.add_zero]
    _ = value ds := by rw [hsplit]

theorem Trimmed.concat (h : Trimmed (ds ++ [d])) : d ≠ 0 := by
  rintro rfl
  have hlen := congrArg List.length h
  rw [trim, rdropWhile_concat_pos _ _ _ (by simp)] at hlen
  have hprefix := ( rdropWhile_prefix (· = (0 : Int)) ds).length_le
  rw [length_append, length_singleton] at hlen
  omega

theorem Trimmed.le_value (h : Trimmed ds) (hds : Digits ds) (hne : ds ≠ []) : base ^ (ds.length - 1) ≤ value ds := by
  obtain ⟨low, d, rfl⟩ := (eq_nil_or_concat ds).resolve_left hne
  rw [concat_eq_append] at h hds ⊢
  obtain ⟨hlow, hd⟩ := digits_append.1 hds
  have hd' := (hd d mem_cons_self).1
  have hpos : 1 ≤ d := by have := h.concat; omega
  have hmul := Int.mul_le_mul_of_nonneg_left hpos (Int.le_of_lt (pow_pos low.length))
  have := hlow.value_bounds.1
  rw [value_append, length_append, length_singleton, Nat.add_sub_cancel]
  simp only [value, Int.mul_zero, Int.add_zero, Int.mul_one] at hmul ⊢
  omega

theorem Trimmed.eq_nil_iff (h : Trimmed ds) (hds : Digits ds) : ds = [] ↔ value ds = 0 := by
  constructor
  · rintro rfl
    rfl
  · intro hzero
    by_contra hne
    have := h.le_value hds hne
    have := pow_pos (ds.length - 1)
    omega

theorem digit_lt {l r : Int} (hleft : Digits left) (hright : Digits right) (hlen : left.length = right.length)
    (h : l < r) : value (left ++ [l]) < value (right ++ [r]) := by
  have hmul := Int.mul_le_mul_of_nonneg_left (Int.add_one_le_of_lt h) (Int.le_of_lt (pow_pos right.length))
  have := hleft.value_bounds.2
  have := hright.value_bounds.1
  rw [Int.mul_add, Int.mul_one] at hmul
  rw [value_append, value_append]
  simp only [value, Int.mul_zero, Int.add_zero]
  rw [hlen] at *
  omega

def Order (order left right : Int) : Prop :=
  order = -1 ∧ left < right ∨ order = 0 ∧ left = right ∨ order = 1 ∧ right < left

theorem compareFrom_order : ∀ {left right : List Int}, left.length = right.length → Digits left → Digits right →
    Order (compareFrom left right) (value left.reverse) (value right.reverse)
  | [], [], _, _, _ => .inr (.inl ⟨rfl, rfl⟩)
  | l :: left, r :: right, hlen, hleft, hright => by
    obtain ⟨-, hleft'⟩ := digits_cons.1 hleft
    obtain ⟨-, hright'⟩ := digits_cons.1 hright
    have hlen' : left.length = right.length := by simpa using hlen
    have hrev : ∀ {ds : List Int}, Digits ds → Digits ds.reverse := fun h d hd => h d (mem_reverse.1 hd)
    have hlens : left.reverse.length = right.reverse.length := by simpa using hlen'
    rw [compareFrom, reverse_cons, reverse_cons]
    rcases Int.lt_trichotomy l r with hlt | rfl | hlt
    · rw [if_pos (Int.ne_of_lt hlt), if_pos hlt]
      exact .inl ⟨rfl, digit_lt (hrev hleft') (hrev hright') hlens hlt⟩
    · rw [if_neg (by simp), value_append, value_append, hlens]
      rcases compareFrom_order hlen' hleft' hright' with ⟨ho, h⟩ | ⟨ho, h⟩ | ⟨ho, h⟩
      · exact .inl ⟨ho, by omega⟩
      · exact .inr (.inl ⟨ho, by omega⟩)
      · exact .inr (.inr ⟨ho, by omega⟩)
    · rw [if_pos (Int.ne_of_gt hlt), if_neg (Int.not_lt.2 (Int.le_of_lt hlt))]
      exact .inr (.inr ⟨rfl, digit_lt (hrev hright') (hrev hleft') hlens.symm hlt⟩)

theorem value_lt_of_length (hright : Trimmed right) (hl : Digits left) (hr : Digits right)
    (h : left.length < right.length) : value left < value right := by
  have hne : right ≠ [] := by
    rintro rfl
    simp at h
  calc value left < base ^ left.length := hl.value_bounds.2
    _ ≤ base ^ (right.length - 1) := pow_le_pow_right₀ base_pos (by omega)
    _ ≤ value right := hright.le_value hr hne

theorem compareLimbs_order (hleft : Trimmed left) (hright : Trimmed right) (hl : Digits left) (hr : Digits right) :
    Order (compareLimbs left right) (value left) (value right) := by
  unfold compareLimbs
  split
  · split
    · rename_i hlt
      exact .inl ⟨rfl, value_lt_of_length hright hl hr hlt⟩
    · exact .inr (.inr ⟨rfl, value_lt_of_length hleft hr hl (by omega)⟩)
  · rename_i hlen
    have horder := @compareFrom_order left.reverse right.reverse (by simpa using hlen)
      (fun d hd => hl d (mem_reverse.1 hd)) (fun d hd => hr d (mem_reverse.1 hd))
    rwa [reverse_reverse, reverse_reverse] at horder

theorem checked_small {n : Int} (hlo : -1000000000000000000 ≤ n) (hhi : n ≤ 1000000000000000000) : checked n = .ok n :=
  checked_ok (by unfold i64Min; omega) (by unfold i64Max; omega)

theorem digit_mul {a b : Int} (ha : 0 ≤ a ∧ a < base) (hb : 0 ≤ b ∧ b < base) :
    0 ≤ a * b ∧ a * b ≤ 999999998000000001 := by
  unfold base at ha hb
  refine ⟨Int.mul_nonneg ha.1 hb.1, ?_⟩
  calc a * b ≤ 999999999 * 999999999 := Int.mul_le_mul (by omega) (by omega) hb.1 (by omega)
    _ = 999999998000000001 := by norm_num

theorem split_digits {n : Int} (h : 0 ≤ n ∧ n < base * base) :
    (0 ≤ n.tmod base ∧ n.tmod base < base) ∧ (0 ≤ n.tdiv base ∧ n.tdiv base < base) ∧
      n.tmod base + base * n.tdiv base = n := by
  rw [Int.tmod_eq_emod_of_nonneg h.1, Int.tdiv_eq_ediv_of_nonneg h.1]
  unfold base at *
  omega

theorem addFrom_ok : ∀ {n : Nat} {carry : Int} {left right : List Int}, 0 ≤ carry ∧ carry ≤ 1 → Digits left →
    Digits right → left.length ≤ n → right.length ≤ n →
    ∃ out, addFrom n carry left right = .ok out ∧ Digits out ∧ value out = value left + value right + carry
  | 0, carry, left, right, hc, hl, hr, hn, hn' => by
    obtain rfl : left = [] := eq_nil_of_length_eq_zero (by omega)
    obtain rfl : right = [] := eq_nil_of_length_eq_zero (by omega)
    refine ⟨[carry], rfl, digits_cons.2 ⟨?_, digits_nil⟩, by simp [value]⟩
    unfold base
    omega
  | n + 1, carry, left, right, hc, hl, hr, hn, hn' => by
    obtain ⟨a, ha⟩ : ∃ a, left.headD 0 = a := ⟨_, rfl⟩
    obtain ⟨b, hb⟩ : ∃ b, right.headD 0 = b := ⟨_, rfl⟩
    obtain ⟨carry', hc'⟩ : ∃ c : Int, (if base ≤ a + b + carry then 1 else 0) = c := ⟨_, rfl⟩
    have hsmall := hl.headD
    have hsmall' := hr.headD
    rw [ha] at hsmall
    rw [hb] at hsmall'
    have hnext : 0 ≤ carry' ∧ carry' ≤ 1 := by
      split at hc' <;> omega
    have hdigit : 0 ≤ a + b + carry - carry' * base ∧ a + b + carry - carry' * base < base := by
      unfold base at *
      split at hc' <;> omega
    obtain ⟨out, hout, hd, hv⟩ := @addFrom_ok n _ _ _ hnext hl.tail hr.tail (by simp; omega) (by simp; omega)
    refine ⟨(a + b + carry - carry' * base) :: out, ?_, digits_cons.2 ⟨hdigit, hd⟩, ?_⟩
    · unfold base at hsmall hsmall' hdigit
      rw [addFrom, ha, hb, checked_small (by omega) (by omega), ok_bind, checked_small (by omega) (by omega), ok_bind]
      simp only
      rw [hc', checked_small (by unfold base; omega) (by unfold base; omega), ok_bind,
        checked_small (by unfold base; omega) (by unfold base; omega), ok_bind, hout, ok_bind]
    · rw [value, hv, value_tail left, value_tail right, ha, hb]
      ring

theorem addLimbs_ok (hl : Digits left) (hr : Digits right) :
    ∃ out, addLimbs left right = .ok out ∧ Digits out ∧ value out = value left + value right := by
  obtain ⟨out, hout, hd, hv⟩ := addFrom_ok ⟨le_rfl, Int.zero_le_ofNat 1⟩ hl hr (le_max_left _ _) (le_max_right _ _)
  exact ⟨out, hout, hd, by rw [hv, Int.add_zero]⟩

theorem subFrom_ok : ∀ {borrow : Int} {left right : List Int}, 0 ≤ borrow ∧ borrow ≤ 1 → Digits left →
    Digits right → right.length ≤ left.length →
    ∃ out last, subFrom borrow left right = .ok out ∧ Digits out ∧ out.length = left.length ∧ 0 ≤ last ∧
      value out = value left - value right - borrow + base ^ left.length * last
  | borrow, [], right, hb, hl, hr, hlen => by
    obtain rfl : right = [] := eq_nil_of_length_eq_zero (by simpa using hlen)
    exact ⟨[], borrow, rfl, digits_nil, rfl, hb.1, by simp [value]⟩
  | borrow, l :: left, right, hb, hl, hr, hlen => by
    obtain ⟨hlow, hl⟩ := digits_cons.1 hl
    obtain ⟨r, hrd⟩ : ∃ r, right.headD 0 = r := ⟨_, rfl⟩
    obtain ⟨borrow', hb'⟩ : ∃ b : Int, (if l - r - borrow < 0 then 1 else 0) = b := ⟨_, rfl⟩
    have hsmall := hr.headD
    rw [hrd] at hsmall
    have hnext : 0 ≤ borrow' ∧ borrow' ≤ 1 := by
      split at hb' <;> omega
    have hdigit : 0 ≤ l - r - borrow + borrow' * base ∧ l - r - borrow + borrow' * base < base := by
      unfold base at *
      split at hb' <;> omega
    obtain ⟨out, last, hout, hd, hlen', hlast, hv⟩ := subFrom_ok hnext hl hr.tail (by simp at hlen ⊢; omega)
    refine ⟨(l - r - borrow + borrow' * base) :: out, last, ?_, digits_cons.2 ⟨hdigit, hd⟩, by simp [hlen'], hlast, ?_⟩
    · unfold base at hsmall hlow hdigit
      rw [subFrom, hrd, checked_small (by omega) (by omega), ok_bind, checked_small (by omega) (by omega), ok_bind]
      simp only
      rw [hb', checked_small (by unfold base; omega) (by unfold base; omega), ok_bind,
        checked_small (by unfold base; omega) (by unfold base; omega), ok_bind, hout, ok_bind]
    · rw [value, hv, value, value_tail right, hrd, length_cons, pow_succ]
      ring

theorem subLimbs_ok (hl : Digits left) (hr : Digits right) (hlen : right.length ≤ left.length)
    (hle : value right ≤ value left) :
    ∃ out, subLimbs left right = .ok out ∧ Digits out ∧ value out = value left - value right := by
  obtain ⟨out, last, hout, hd, hlen', hlast, hv⟩ := subFrom_ok ⟨le_rfl, Int.zero_le_ofNat 1⟩ hl hr hlen
  refine ⟨out, hout, hd, ?_⟩
  have hbound := hd.value_bounds.2
  rw [hlen'] at hbound
  have hzero : last = 0 := by
    by_contra hne
    have hmul := Int.mul_le_mul_of_nonneg_left (show 1 ≤ last by omega) (Int.le_of_lt (pow_pos left.length))
    rw [Int.mul_one] at hmul
    omega
  rw [hv, hzero]
  ring

theorem mulRow_ok {digit : Int} (hdigit : 0 ≤ digit ∧ digit < base) (hr : Digits right) (x : Int) (high : List Int) :
    ∀ {low : List Int} {carry : Int}, 0 ≤ carry ∧ carry < base → Digits low → low.length = right.length →
      ∃ out, mulRow digit carry right (low ++ x :: high) = .ok (out ++ high) ∧ Digits out ∧
        out.length = right.length + 1 ∧ value out = value low + digit * value right + carry := by
  induction right with
  | nil =>
    intro low carry hc _ hlen
    obtain rfl : low = [] := eq_nil_of_length_eq_zero hlen
    exact ⟨[carry], rfl, digits_cons.2 ⟨hc, digits_nil⟩, rfl, by simp [value]⟩
  | cons r right ih =>
    intro low carry hc hl hlen
    obtain ⟨o, low, rfl⟩ := exists_cons_of_length_eq_add_one hlen
    obtain ⟨hr0, hr⟩ := digits_cons.1 hr
    obtain ⟨ho, hl⟩ := digits_cons.1 hl
    have hmul := digit_mul hdigit hr0
    obtain ⟨hlow, hcarry, hsum⟩ := @split_digits (o + digit * r + carry) (by unfold base at *; omega)
    obtain ⟨out, hout, hd, hlen', hv⟩ := ih hr hcarry hl (by simpa using hlen)
    refine ⟨(o + digit * r + carry).tmod base :: out, ?_, digits_cons.2 ⟨hlow, hd⟩, by simp [hlen'], ?_⟩
    · unfold base at ho hc
      rw [cons_append, mulRow, checked_small (by omega) (by omega), ok_bind, checked_small (by omega) (by omega),
        ok_bind, checked_small (by omega) (by omega), ok_bind, hout, ok_bind]
      rfl
    · rw [value, hv, value, value]
      linear_combination hsum

theorem mulRows_ok (hr : Digits right) : ∀ {left low : List Int}, Digits left → Digits low → low.length = right.length →
    ∃ out, mulRows right left (low ++ List.replicate left.length 0) = .ok out ∧ Digits out ∧
      value out = value low + value left * value right
  | [], low, _, hl, _ => ⟨low, by simp [mulRows], hl, by simp [value]⟩
  | l :: left, low, hleft, hl, hlen => by
    obtain ⟨hl0, hleft⟩ := digits_cons.1 hleft
    obtain ⟨row, hrow, hd, hlen', hv⟩ := mulRow_ok hl0 hr 0 (List.replicate left.length 0) ⟨le_rfl, base_pos⟩ hl hlen
    obtain ⟨o, row, rfl⟩ := exists_cons_of_length_eq_add_one hlen'
    obtain ⟨ho, hd⟩ := digits_cons.1 hd
    obtain ⟨out, hout, hd', hv'⟩ := mulRows_ok hr hleft hd (by simpa using hlen')
    refine ⟨o :: out, ?_, digits_cons.2 ⟨ho, hd'⟩, ?_⟩
    · rw [length_cons, replicate_succ, mulRows, hrow, ok_bind]
      simp only [cons_append]
      rw [hout, ok_bind]
    · rw [value] at hv
      rw [value, hv', value]
      linear_combination hv

theorem mulLimbs_ok (hl : Digits left) (hr : Digits right) :
    ∃ out, mulLimbs left right = .ok out ∧ Digits out ∧ value out = value left * value right := by
  have hzeros : value (List.replicate right.length 0) = 0 := value_zeros fun _ hd => eq_of_mem_replicate hd
  have hdigits : Digits (List.replicate right.length 0) := fun d hd => by
    rw [eq_of_mem_replicate hd]
    exact ⟨le_rfl, base_pos⟩
  obtain ⟨out, hout, hd, hv⟩ := mulRows_ok hr hl hdigits length_replicate
  refine ⟨out, ?_, hd, by rw [hv, hzeros, Int.zero_add]⟩
  rw [mulLimbs, Nat.add_comm, replicate_add, hout]

theorem scaleFrom_ok {factor : Int} (hf : 0 ≤ factor ∧ factor < base) :
    ∀ {ds : List Int} {carry : Int}, 0 ≤ carry ∧ carry < base → Digits ds →
      ∃ out, scaleFrom factor carry ds = .ok out ∧ Digits out ∧ value out = value ds * factor + carry
  | [], carry, hc, _ => ⟨[carry], rfl, digits_cons.2 ⟨hc, digits_nil⟩, by simp [value]⟩
  | d :: ds, carry, hc, hds => by
    obtain ⟨hd0, hds⟩ := digits_cons.1 hds
    have hmul := digit_mul hd0 hf
    obtain ⟨hlow, hcarry, hsum⟩ := @split_digits (d * factor + carry) (by unfold base at *; omega)
    obtain ⟨out, hout, hd, hv⟩ := scaleFrom_ok hf hcarry hds
    refine ⟨(d * factor + carry).tmod base :: out, ?_, digits_cons.2 ⟨hlow, hd⟩, ?_⟩
    · unfold base at hc
      rw [scaleFrom, checked_small (by omega) (by omega), ok_bind, checked_small (by omega) (by omega), ok_bind, hout,
        ok_bind]
    · rw [value, hv, value]
      linear_combination hsum

theorem scaleLimbs_ok {factor : Int} (hf : 0 ≤ factor ∧ factor < base) (hds : Digits ds) :
    ∃ out, scaleLimbs ds factor = .ok out ∧ Digits out ∧ Trimmed out ∧ value out = value ds * factor := by
  obtain ⟨out, hout, hd, hv⟩ := scaleFrom_ok hf ⟨le_rfl, base_pos⟩ hds
  refine ⟨trim out, by rw [scaleLimbs, hout]; rfl, digits_trim hd, trimmed_trim out, ?_⟩
  rw [value_trim, hv, Int.add_zero]

/-! ## Quotient and remainder -/

theorem searchDigit_ok {remainder : List Int} (hr : Digits right) (hd : Digits remainder) (ht : Trimmed remainder) :
    ∀ {fuel : Nat} {low high : Int}, 0 ≤ low → high < base → low ≤ high → high - low < 2 ^ fuel →
      value right * low ≤ value remainder → value remainder < value right * (high + 1) →
      ∃ q, searchDigit right remainder (fuel + 1) low high = .ok q ∧ (0 ≤ q ∧ q < base) ∧
        value right * q ≤ value remainder ∧ value remainder < value right * (q + 1)
  | 0, low, high, hlow, hhigh, hle, hfuel, hlo, hhi => by
    obtain rfl : high = low := by omega
    exact ⟨high, by rw [searchDigit, if_neg (by omega)], ⟨hlow, hhigh⟩, hlo, hhi⟩
  | fuel + 1, low, high, hlow, hhigh, hle, hfuel, hlo, hhi => by
    rcases Int.lt_or_eq_of_le hle with hlt | rfl
    · obtain ⟨middle, hmiddle⟩ : ∃ m, (low + high + 1).tdiv 2 = m := ⟨_, rfl⟩
      have hhalf : low < middle ∧ middle ≤ high ∧ high - middle < 2 ^ fuel ∧ middle - 1 - low < 2 ^ fuel := by
        rw [pow_succ] at hfuel
        rw [Int.tdiv_eq_ediv_of_nonneg (by omega)] at hmiddle
        omega
      obtain ⟨product, hproduct, hpd, hpt, hpv⟩ := @scaleLimbs_ok right middle ⟨by omega, by omega⟩ hr
      have horder := compareLimbs_order hpt ht hpd hd
      rw [hpv] at horder
      unfold base at hhigh
      rw [searchDigit, if_pos hlt, checked_small (by omega) (by omega), ok_bind, checked_small (by omega) (by omega),
        ok_bind]
      simp only
      rw [hmiddle, hproduct, ok_bind]
      by_cases hfits : compareLimbs product remainder ≤ 0
      · rw [if_pos hfits]
        have hm : value right * middle ≤ value remainder := by
          rcases horder with ⟨-, h⟩ | ⟨-, h⟩ | ⟨h, -⟩ <;> omega
        exact searchDigit_ok hr hd ht (by omega) (by unfold base; omega) hhalf.2.1 hhalf.2.2.1 hm hhi
      · rw [if_neg hfits, checked_small (by omega) (by omega), ok_bind]
        have hm : value remainder < value right * (middle - 1 + 1) := by
          rw [Int.sub_add_cancel]
          rcases horder with ⟨h, -⟩ | ⟨h, -⟩ | ⟨-, h⟩ <;> omega
        exact searchDigit_ok hr hd ht hlow (by unfold base; omega) (by omega) hhalf.2.2.2 hlo hm
    · exact ⟨low, by rw [searchDigit, if_neg (Int.lt_irrefl _)], ⟨hlow, hhigh⟩, hlo, hhi⟩

theorem divideDigit_ok {remainder : List Int} (hr : Digits right) (hdigit : 0 ≤ d ∧ d < base)
    (hd : Digits remainder) (hlt : value remainder < value right) :
    ∃ low rest, divideDigit right d remainder = .ok (low, rest) ∧ (0 ≤ low ∧ low < base) ∧ Digits rest ∧
      Trimmed rest ∧ value rest = d + base * value remainder - value right * low ∧ value rest < value right := by
  have hshift : value (trim (d :: remainder)) = d + base * value remainder := value_trim _
  have hds : Digits (trim (d :: remainder)) := digits_trim (digits_cons.2 ⟨hdigit, hd⟩)
  have htrim := trimmed_trim (d :: remainder)
  have hnonneg := hds.value_bounds.1
  have hmul := Int.mul_le_mul_of_nonneg_left (Int.add_one_le_of_lt hlt) (Int.le_of_lt base_pos)
  have hroom : value (trim (d :: remainder)) < value right * (999999999 + 1) := by
    unfold base at *
    omega
  obtain ⟨low, hsearch, hlow, hlo, hhi⟩ := @searchDigit_ok right _ hr hds htrim 30 0 _ le_rfl (by decide) (by decide)
    (by decide) (by rwa [Int.mul_zero]) hroom
  rw [Int.mul_add, Int.mul_one] at hhi
  unfold divideDigit
  simp only
  rw [hsearch, ok_bind]
  by_cases hpos : 0 < low
  · obtain ⟨product, hproduct, hpd, hpt, hpv⟩ := scaleLimbs_ok hlow hr
    have hlen : product.length ≤ (trim (d :: remainder)).length := by
      by_contra hlong
      have := value_lt_of_length hpt hds hpd (by omega)
      omega
    obtain ⟨out, hout, hod, hov⟩ := subLimbs_ok hds hpd hlen (by omega)
    refine ⟨low, trim out, ?_, hlow, digits_trim hod, trimmed_trim out, ?_, ?_⟩
    · rw [if_pos hpos, hproduct, ok_bind, hout, ok_bind]
    · rw [value_trim, hov, hpv, hshift]
    · rw [value_trim, hov, hpv]
      omega
  · obtain rfl : low = 0 := by omega
    refine ⟨0, _, by rw [if_neg hpos], hlow, hds, htrim, by rw [hshift, Int.mul_zero, Int.sub_zero], ?_⟩
    omega

theorem divideFrom_ok (hr : Digits right) : ∀ {ds remainder quotient : List Int}, Digits ds → Digits remainder →
    Trimmed remainder → value remainder < value right → Digits quotient →
    ∃ q r, divideFrom right ds remainder quotient = .ok (q, r) ∧ Digits q ∧ Digits r ∧ Trimmed r ∧
      value r < value right ∧
      value q * value right + value r =
        value ds.reverse + base ^ ds.length * (value remainder + value quotient * value right)
  | [], remainder, quotient, _, hd, ht, hlt, hq =>
    ⟨trim quotient, remainder, rfl, digits_trim hq, hd, ht, hlt, by rw [value_trim]; simp [value]; ring⟩
  | d :: ds, remainder, quotient, hds, hd, ht, hlt, hq => by
    obtain ⟨hd0, hds⟩ := digits_cons.1 hds
    obtain ⟨low, rest, hstep, hlow, hrd, hrt, hrv, hrlt⟩ := divideDigit_ok hr hd0 hd hlt
    obtain ⟨q, r, hrun, hqd, hrd', hrt', hlt', hv⟩ := divideFrom_ok hr hds hrd hrt hrlt (digits_cons.2 ⟨hlow, hq⟩)
    refine ⟨q, r, ?_, hqd, hrd', hrt', hlt', ?_⟩
    · rw [divideFrom, hstep, ok_bind]
      exact hrun
    · rw [hv, hrv, reverse_cons, value_append, length_reverse, length_cons, pow_succ, value, value, value]
      ring

theorem divideLimbs_ok (hl : Digits left) (hr : Digits right) (hpos : 0 < value right) :
    ∃ q r, divideLimbs left right = .ok (q, r) ∧ Digits q ∧ Digits r ∧
      value q = value left / value right ∧ value r = value left % value right := by
  obtain ⟨q, r, hrun, hqd, hrd, -, hlt, hv⟩ := @divideFrom_ok right hr left.reverse [] []
    (fun d hd => hl d (mem_reverse.1 hd)) digits_nil rfl hpos digits_nil
  have heq : value left = value r + value right * value q := by
    simp only [reverse_reverse, value] at hv
    linear_combination -hv
  have hr0 := hrd.value_bounds.1
  refine ⟨q, r, hrun, hqd, hrd, ?_, ?_⟩
  · rw [heq, Int.add_mul_ediv_left _ _ (by omega), Int.ediv_eq_zero_of_lt hr0 hlt, Int.zero_add]
  · rw [heq, Int.add_mul_emod_self_left, Int.emod_eq_of_lt hr0 hlt]

structure Canonical (x : BigInt) : Prop where
  digits : Digits x.limbs
  trimmed : Trimmed x.limbs
  zero : x.limbs = [] → x.negative = false

def toInt (x : BigInt) : Int := if x.negative then -value x.limbs else value x.limbs

/-- An operation ends without a fault in the canonical bigint of `n`. -/
def Gives (run : Exec BigInt) (n : Int) : Prop := ∃ x, run = .ok x ∧ Canonical x ∧ x.toInt = n

variable {x y : BigInt}

theorem toInt_make (negative : Bool) (ds : List Int) :
    (make negative ds).toInt = if negative then -value ds else value ds := by
  have hnil : trim ds = [] → value ds = 0 := fun h => by rw [← value_trim, h]; rfl
  unfold toInt make
  simp only [value_trim]
  cases h : trim ds with
  | nil => cases negative <;> simp [hnil h]
  | cons d rest => cases negative <;> simp

theorem canonical_make (negative : Bool) (h : Digits ds) : Canonical (make negative ds) where
  digits := digits_trim h
  trimmed := trimmed_trim ds
  zero hnil := by
    have hnil : trim ds = [] := hnil
    simp [make, hnil]

theorem gives_make {negative : Bool} {n : Int} (h : Digits ds) (hn : (if negative then -value ds else value ds) = n) :
    Gives (.ok (make negative ds)) n :=
  ⟨_, rfl, canonical_make negative h, (toInt_make negative ds).trans hn⟩

theorem Canonical.toInt_eq_zero_iff (h : Canonical x) : x.toInt = 0 ↔ x.limbs = [] := by
  rw [h.trimmed.eq_nil_iff h.digits, toInt]
  split
  · exact Int.neg_eq_zero
  · exact Iff.rfl

theorem Canonical.negative_iff (h : Canonical x) : x.negative = true ↔ x.toInt < 0 := by
  have hpos := h.digits.value_bounds.1
  have hzero := h.trimmed.eq_nil_iff h.digits
  have hsign := h.zero
  unfold toInt
  cases hn : x.negative with
  | false => simpa using hpos
  | true =>
    have hne : x.limbs ≠ [] := fun hnil => by rw [hsign hnil] at hn; cases hn
    have hv : value x.limbs ≠ 0 := fun hv => hne (hzero.2 hv)
    simp only [if_true, true_iff]
    omega

/-! ## The operations -/

section

variable (hx : Canonical x)

include hx

theorem add_gives (hy : Canonical y) : Gives (add x y) (x.toInt + y.toInt) := by
  have horder := compareLimbs_order hx.trimmed hy.trimmed hx.digits hy.digits
  unfold add toInt
  split
  · rename_i hsign
    obtain ⟨out, hout, hd, hv⟩ := addLimbs_ok hx.digits hy.digits
    rw [hout, ok_bind]
    refine gives_make hd ?_
    rw [hv, ← hsign]
    split <;> ring
  · rename_i hsign
    have hlen : ∀ {l r : List Int}, Trimmed l → Trimmed r → Digits l → Digits r → value r ≤ value l →
        r.length ≤ l.length := by
      intro l r hl hr hdl hdr hle
      by_contra hlong
      have := value_lt_of_length hr hdl hdr (by omega)
      omega
    split
    · have hle : value y.limbs ≤ value x.limbs := by
        rcases horder with ⟨h, -⟩ | ⟨-, h⟩ | ⟨-, h⟩ <;> omega
      obtain ⟨out, hout, hd, hv⟩ := subLimbs_ok hx.digits hy.digits
        (hlen hx.trimmed hy.trimmed hx.digits hy.digits hle) hle
      rw [hout, ok_bind]
      refine gives_make hd ?_
      rw [hv]
      cases hn : x.negative <;> cases hn' : y.negative <;> simp_all <;> ring
    · have hle : value x.limbs ≤ value y.limbs := by
        rcases horder with ⟨-, h⟩ | ⟨h, -⟩ | ⟨h, -⟩ <;> omega
      obtain ⟨out, hout, hd, hv⟩ := subLimbs_ok hy.digits hx.digits
        (hlen hy.trimmed hx.trimmed hy.digits hx.digits hle) hle
      rw [hout, ok_bind]
      refine gives_make hd ?_
      rw [hv]
      cases hn : x.negative <;> cases hn' : y.negative <;> simp_all <;> ring

theorem negate_gives : Gives (.ok (negate x)) (-x.toInt) := by
  refine ⟨_, rfl, ⟨hx.digits, hx.trimmed, fun h => ?_⟩, ?_⟩
  · have h : x.limbs = [] := h
    simp [negate, h]
  · have hsign := hx.zero
    unfold toInt negate
    cases hl : x.limbs with
    | nil => simp [value]
    | cons d rest => cases x.negative <;> simp

variable (hy : Canonical y)

include hy

theorem sub_gives : Gives (sub x y) (x.toInt - y.toInt) := by
  obtain ⟨z, hz, hzc, hzi⟩ := negate_gives hy
  obtain rfl := Except.ok.inj hz
  have h := add_gives hx hzc
  rwa [hzi, ← Int.sub_eq_add_neg] at h

theorem mul_gives : Gives (mul x y) (x.toInt * y.toInt) := by
  obtain ⟨out, hout, hd, hv⟩ := mulLimbs_ok hx.digits hy.digits
  rw [mul, hout, ok_bind]
  refine gives_make hd ?_
  rw [hv]
  unfold toInt
  cases x.negative <;> cases y.negative <;> simp

theorem divide_ok (hne : y.toInt ≠ 0) : ∃ q r, divide x y = .ok (q, r) ∧ Gives (.ok q) (x.toInt.tdiv y.toInt) ∧
      Gives (.ok r) (x.toInt.tmod y.toInt) := by
  have hnil : y.limbs ≠ [] := fun h => hne (hy.toInt_eq_zero_iff.2 h)
  have hpos : 0 < value y.limbs := by
    have := hy.digits.value_bounds.1
    have := mt (hy.trimmed.eq_nil_iff hy.digits).2 hnil
    omega
  obtain ⟨q, r, hrun, hqd, hrd, hq, hr⟩ := divideLimbs_ok hx.digits hy.digits hpos
  have hx0 := hx.digits.value_bounds.1
  rw [← Int.tdiv_eq_ediv_of_nonneg hx0] at hq
  rw [← Int.tmod_eq_emod_of_nonneg hx0] at hr
  refine ⟨make (x.negative != y.negative) q, make x.negative r, ?_, gives_make hqd ?_, gives_make hrd ?_⟩
  · rw [divide, isEmpty_eq_false_iff.2 hnil, Bool.not_false, assert_true, ok_bind, hrun]
    rfl
  · rw [hq]
    unfold toInt
    cases x.negative <;> cases y.negative <;> simp
  · rw [hr]
    unfold toInt
    cases x.negative <;> cases y.negative <;> simp

theorem div_gives (hne : y.toInt ≠ 0) :
    Gives (div x y) (x.toInt.tdiv y.toInt) ∧ Gives (rem x y) (x.toInt.tmod y.toInt) := by
  obtain ⟨q, r, hrun, hq, hr⟩ := divide_ok hx hy hne
  unfold div rem
  rw [hrun]
  exact ⟨hq, hr⟩

theorem compare_order : ∃ order, compare x y = .ok order ∧ Order order x.toInt y.toInt := by
  have horder := compareLimbs_order hx.trimmed hy.trimmed hx.digits hy.digits
  have hxn := hx.negative_iff
  have hyn := hy.negative_iff
  unfold compare
  by_cases hsign : x.negative = y.negative
  · rw [if_neg (not_not.2 hsign)]
    unfold toInt
    rw [← hsign]
    cases x.negative with
    | false => exact ⟨_, rfl, horder⟩
    | true =>
      have hsmall : -1 ≤ compareLimbs x.limbs y.limbs ∧ compareLimbs x.limbs y.limbs ≤ 1 := by
        rcases horder with ⟨h, -⟩ | ⟨h, -⟩ | ⟨h, -⟩ <;> omega
      refine ⟨0 - compareLimbs x.limbs y.limbs, checked_small (by omega) (by omega), ?_⟩
      simp only [if_true]
      rcases horder with ⟨h, h'⟩ | ⟨h, h'⟩ | ⟨h, h'⟩
      · exact .inr (.inr ⟨by omega, by omega⟩)
      · exact .inr (.inl ⟨by omega, by omega⟩)
      · exact .inl ⟨by omega, by omega⟩
  · rw [if_pos hsign]
    refine ⟨_, rfl, ?_⟩
    cases hn : x.negative with
    | true =>
      have hy' : ¬ y.toInt < 0 := fun h => hsign (hn.trans (hyn.2 h).symm)
      have := hxn.1 hn
      exact .inl ⟨rfl, by omega⟩
    | false =>
      have hy' : y.toInt < 0 := hyn.1 (by simpa [hn] using Ne.symm hsign)
      have hx' : ¬ x.toInt < 0 := fun h => by rw [hxn.2 h] at hn; cases hn
      exact .inr (.inr ⟨rfl, by omega⟩)

theorem eq_iff : eq x y = true ↔ x.toInt = y.toInt := by
  have horder := compareLimbs_order hx.trimmed hy.trimmed hx.digits hy.digits
  have hxn := hx.negative_iff
  have hyn := hy.negative_iff
  rw [eq, Bool.and_eq_true, beq_iff_eq, beq_iff_eq]
  constructor
  · rintro ⟨hsign, hzero⟩
    rcases horder with ⟨h, -⟩ | ⟨-, h⟩ | ⟨h, -⟩
    · omega
    · rw [toInt, toInt, hsign, h]
    · omega
  · intro heq
    have hsign : x.negative = y.negative := Bool.eq_iff_iff.2 (by rw [hxn, hyn, heq])
    refine ⟨hsign, ?_⟩
    have hvalue : value x.limbs = value y.limbs := by
      unfold toInt at heq
      rw [hsign] at heq
      split at heq <;> omega
    rcases horder with ⟨-, h⟩ | ⟨h, -⟩ | ⟨-, h⟩
    · omega
    · exact h
    · omega

end

theorem Canonical.toInt_of_not_negative (h : x.negative = false) : x.toInt = value x.limbs := by
  rw [toInt, h]
  rfl

theorem count_ok (hd : Digits ds) (hlen : ds.length ≤ 2) :
    countFrom 0 ds.reverse = .ok (value ds) ∧ 0 ≤ value ds ∧ value ds < 2 ^ 60 := by
  match ds, hlen with
  | [], _ => exact ⟨rfl, le_rfl, by decide⟩
  | [a], _ =>
    obtain ⟨ha, -⟩ := digits_cons.1 hd
    unfold base at ha
    refine ⟨?_, by simp [value]; omega, by simp [value]; omega⟩
    simp only [reverse_cons, reverse_nil, nil_append, countFrom, value]
    rw [Int.zero_mul, checked_small (by omega) (by omega), ok_bind, checked_small (by omega) (by omega), ok_bind]
    simp
  | [a, b], _ =>
    obtain ⟨ha, hd⟩ := digits_cons.1 hd
    obtain ⟨hb, -⟩ := digits_cons.1 hd
    have hvalue : value [a, b] = a + base * b := by simp [value]
    unfold base at ha hb hvalue
    refine ⟨?_, by omega, by omega⟩
    simp only [reverse_cons, reverse_nil, nil_append, cons_append, countFrom]
    rw [Int.zero_mul, checked_small (by omega) (by omega), ok_bind, checked_small (by omega) (by omega), ok_bind,
      checked_small (by unfold base; omega) (by unfold base; omega), ok_bind,
      checked_small (by unfold base; omega) (by unfold base; omega), ok_bind, hvalue]
    exact congrArg Except.ok (by unfold base; ring)

theorem powerFrom_gives : ∀ {fuel : Nat} {result factor : BigInt} {count : Int}, Canonical result → Canonical factor →
    0 ≤ count → count < 2 ^ fuel →
    Gives (powerFrom (fuel + 1) result factor count) (result.toInt * factor.toInt ^ count.toNat)
  | 0, result, factor, count, hr, hf, h0, hlt => by
    obtain rfl : count = 0 := by omega
    exact ⟨result, rfl, hr, by simp⟩
  | fuel + 1, result, factor, count, hr, hf, h0, hlt => by
    rcases Int.lt_or_eq_of_le h0 with hpos | rfl
    · obtain ⟨half, hhalf⟩ : ∃ h, count.tdiv 2 = h := ⟨_, rfl⟩
      obtain ⟨odd, hodd⟩ : ∃ m, count.tmod 2 = m := ⟨_, rfl⟩
      have hsplit : count = 2 * half + odd ∧ 0 ≤ half ∧ 0 ≤ odd ∧ odd < 2 := by
        rw [Int.tdiv_eq_ediv_of_nonneg h0] at hhalf
        rw [Int.tmod_eq_emod_of_nonneg h0] at hodd
        omega
      obtain ⟨hcount, hhalf0, hodd0, hodd2⟩ := hsplit
      rw [pow_succ] at hlt
      have hpow : ∀ b : Int, b ^ count.toNat = b ^ odd.toNat * (b * b) ^ half.toNat := fun b => by
        rw [← pow_two, ← pow_mul, ← pow_add]
        exact congrArg _ (by omega)
      obtain ⟨result', hrun, hr', hrv⟩ : Gives (multiplyIf (odd = 1) result factor)
          (result.toInt * factor.toInt ^ odd.toNat) := by
        by_cases hone : odd = 1
        · rw [hone]
          simpa [multiplyIf] using mul_gives hr hf
        · obtain rfl : odd = 0 := by omega
          exact ⟨result, rfl, hr, by simp⟩
      rw [powerFrom, if_pos hpos]
      simp only
      rw [hhalf, hodd, hrun, ok_bind, hpow, ← Int.mul_assoc, ← hrv]
      by_cases hmore : 0 < half
      · obtain ⟨square, hsquare, hsd, hsv⟩ := mulLimbs_ok hf.digits hf.digits
        have hsq : (make false square).toInt = factor.toInt * factor.toInt := by
          rw [toInt_make, toInt, hsv]
          cases factor.negative <;> simp
        rw [decide_eq_true hmore, squareIf, if_pos rfl, hsquare, ok_bind, ok_bind, ← hsq]
        exact powerFrom_gives hr' (canonical_make false hsd) hhalf0 (by omega)
      · obtain rfl : half = 0 := by omega
        exact ⟨result', by rw [decide_eq_false hmore]; rfl, hr', by simp⟩
    · exact ⟨result, by rw [powerFrom, if_neg (Int.lt_irrefl 0)], hr, by simp⟩

theorem pow_gives (hx : Canonical x) (hy : Canonical y) (hsign : y.negative = false) (hlen : y.limbs.length ≤ 2) :
    Gives (pow x y) (x.toInt ^ y.toInt.toNat) := by
  obtain ⟨hcount, h0, hlt⟩ := count_ok hy.digits hlen
  have hone : Canonical { negative := false, limbs := [1] } :=
    ⟨digits_cons.2 ⟨by decide, digits_nil⟩, by simp [Trimmed, trim], by simp⟩
  have hrun := @powerFrom_gives 60 _ x _ hone hx h0 hlt
  rw [Canonical.toInt_of_not_negative hsign]
  rw [pow, hsign, decide_eq_true hlen, Bool.not_false, Bool.true_and, assert_true, ok_bind, hcount, ok_bind]
  have hfirst : ofI64 1 = .ok { negative := false, limbs := [1] } := by decide
  rw [hfirst, ok_bind]
  simpa [toInt, value] using hrun

/-- Bigint arithmetic is that of the integers, in canonical results and without an overflow. -/
theorem arithmetic_right (hx : Canonical x) (hy : Canonical y) :
    Gives (add x y) (x.toInt + y.toInt) ∧ Gives (sub x y) (x.toInt - y.toInt) ∧
      Gives (mul x y) (x.toInt * y.toInt) ∧ Gives (.ok (negate x)) (-x.toInt) ∧
      (∃ order, compare x y = .ok order ∧ Order order x.toInt y.toInt) ∧
      (eq x y = true ↔ x.toInt = y.toInt) ∧
      (y.toInt ≠ 0 → Gives (div x y) (x.toInt.tdiv y.toInt) ∧ Gives (rem x y) (x.toInt.tmod y.toInt)) ∧
      (y.negative = false → y.limbs.length ≤ 2 → Gives (pow x y) (x.toInt ^ y.toInt.toNat)) :=
  ⟨add_gives hx hy, sub_gives hx hy, mul_gives hx hy, negate_gives hx, compare_order hx hy, eq_iff hx hy,
    div_gives hx hy, pow_gives hx hy⟩

/-- -1000000005 and 3. -/
theorem arithmetic_sample : Gives (div ⟨true, [5, 1]⟩ ⟨false, [3]⟩) (-333333335) ∧
      Gives (pow ⟨true, [5, 1]⟩ ⟨false, [3]⟩) ((-1000000005) ^ 3) := by
  have hx : Canonical ⟨true, [5, 1]⟩ :=
    ⟨by simp [Digits, base], by simp [Trimmed, trim, List.rdropWhile], by simp⟩
  have hy : Canonical ⟨false, [3]⟩ :=
    ⟨by simp [Digits, base], by simp [Trimmed, trim, List.rdropWhile], by simp⟩
  obtain ⟨-, -, -, -, -, -, hdiv, hpow⟩ := arithmetic_right hx hy
  exact ⟨(hdiv (by decide)).1, hpow rfl (by decide)⟩

end Tsuzuri.BigInt
