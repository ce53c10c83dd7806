import Mathlib.Tactic.Ring
import Mathlib.Data.Nat.Bitwise

/-!
# UTF-8 and UTF-16

Scalar values with their two encodings. Bytes are natural numbers below 256 and code units are
`UInt16`.
-/

namespace Tsuzuri.Unicode

open List

def Scalar (c : Nat) : Prop :=
  c < 0xD800 ∨ (0xE000 ≤ c ∧ c < 0x110000)

instance (c : Nat) : Decidable (Scalar c) :=
  inferInstanceAs (Decidable (_ ∨ _))

def encode8 (c : Nat) : List Nat :=
  if c < 0x80 then [c]
  else if c < 0x800 then [192 + c / 64, 128 + c % 64]
  else if c < 0x10000 then [224 + c / 4096, 128 + c / 64 % 64, 128 + c % 64]
  else [240 + c / 262144, 128 + c / 4096 % 64, 128 + c / 64 % 64, 128 + c % 64]

def encode16 (c : Nat) : List UInt16 :=
  if c < 0x10000 then [UInt16.ofNat c]
  else [UInt16.ofNat (0xD800 + (c - 0x10000) / 1024), UInt16.ofNat (0xDC00 + (c - 0x10000) % 1024)]

/-- Well-formed UTF-8: the encoding of scalar values. -/
inductive Valid : List Nat → Prop
  | nil : Valid []
  | cons {c : Nat} {rest : List Nat} (hc : Scalar c) (hrest : Valid rest) : Valid (encode8 c ++ rest)

variable {c b : Nat} {xs ys bytes : List Nat}

theorem Scalar.lt (h : Scalar c) : c < 0x110000 := by
  unfold Scalar at h
  omega

theorem scalar_ascii (h : c < 128) : Scalar c := by
  unfold Scalar
  omega

theorem encode8_ascii (h : c < 128) : encode8 c = [c] :=
  if_pos h

theorem encode8_ne_nil (c : Nat) : encode8 c ≠ [] := by
  unfold encode8
  repeat' split
  all_goals simp

theorem encode8_high (h : 128 ≤ c) : ∀ b ∈ encode8 c, 128 ≤ b := by
  unfold encode8
  rw [if_neg (by omega)]
  repeat' split
  all_goals simp only [mem_cons, not_mem_nil, or_false]; omega

theorem Valid.append (hx : Valid xs) (hy : Valid ys) : Valid (xs ++ ys) := by
  induction hx with
  | nil => exact hy
  | cons hc _ ih =>
    rw [append_assoc]
    exact .cons hc ih

theorem Valid.scalar (h : Scalar c) : Valid (encode8 c) := by
  have := Valid.cons h .nil
  rwa [append_nil] at this

theorem Valid.ascii (h : ∀ b ∈ xs, b < 128) : Valid xs := by
  induction xs with
  | nil => exact .nil
  | cons b xs ih =>
    have hb := h b mem_cons_self
    have := Valid.cons (scalar_ascii hb) (ih fun x hx => h x (mem_cons_of_mem _ hx))
    rwa [encode8_ascii hb] at this

theorem Valid.first (h : Valid (b :: xs)) : ∃ c rest, Scalar c ∧ b :: xs = encode8 c ++ rest ∧ Valid rest := by
  generalize hl : b :: xs = l at h
  cases h with
  | nil => cases hl
  | @cons c rest hc hrest => exact ⟨c, rest, hc, rfl, hrest⟩

theorem Valid.tail_of_ascii (h : Valid (b :: xs)) (hb : b < 128) : Valid xs := by
  obtain ⟨c, rest, hc, heq, hrest⟩ := h.first
  by_cases hlow : c < 128
  · rw [encode8_ascii hlow] at heq
    obtain ⟨-, rfl⟩ := List.cons.inj heq
    exact hrest
  · have hmem : b ∈ encode8 c := by
      cases henc : encode8 c with
      | nil => exact absurd henc (encode8_ne_nil c)
      | cons y ys =>
        rw [henc] at heq
        obtain ⟨rfl, -⟩ := List.cons.inj heq
        exact mem_cons_self
    have := encode8_high (by omega) b hmem
    omega

theorem Valid.of_ascii_append (h : Valid (xs ++ ys)) (hx : ∀ b ∈ xs, b < 128) : Valid ys := by
  induction xs with
  | nil => exact h
  | cons b xs ih =>
    exact ih (h.tail_of_ascii (hx b mem_cons_self)) fun x hx' => hx x (mem_cons_of_mem _ hx')

/-! ## Bit operations -/

theorem and_ones (a k : Nat) : a &&& (2 ^ k - 1) = a % 2 ^ k :=
  Nat.and_two_pow_sub_one_eq_mod a k

theorem shift_or (a k b : Nat) (hb : b < 2 ^ k) : a <<< k ||| b = a * 2 ^ k + b := by
  rw [Nat.shiftLeft_eq, Nat.mul_comm, Nat.two_pow_add_eq_or_of_lt hb]

theorem mask5 (a : Nat) : a &&& 31 = a % 32 := and_ones a 5
theorem mask4 (a : Nat) : a &&& 15 = a % 16 := and_ones a 4
theorem mask3 (a : Nat) : a &&& 7 = a % 8 := and_ones a 3
theorem mask6 (a : Nat) : a &&& 63 = a % 64 := and_ones a 6
theorem mask10 (a : Nat) : a &&& 1023 = a % 1024 := and_ones a 10

theorem two_bytes (a b : Nat) : (a &&& 31) <<< 6 ||| (b &&& 63) = a % 32 * 64 + b % 64 := by
  have hb := Nat.mod_lt b (show 64 > 0 by omega)
  rw [mask5, mask6, shift_or (a % 32) 6 (b % 64) hb]
  omega

theorem three_bytes (a b c : Nat) : (a &&& 15) <<< 12 ||| (b &&& 63) <<< 6 ||| (c &&& 63)
      = a % 16 * 4096 + b % 64 * 64 + c % 64 := by
  have hc := Nat.mod_lt c (show 64 > 0 by omega)
  have hb := Nat.mod_lt b (show 64 > 0 by omega)
  rw [mask4, mask6, mask6, Nat.or_assoc, shift_or (b % 64) 6 (c % 64) hc, shift_or _ _ _ (by omega)]
  omega

theorem four_bytes (a b c d : Nat) : (a &&& 7) <<< 18 ||| (b &&& 63) <<< 12 ||| (c &&& 63) <<< 6 ||| (d &&& 63)
      = a % 8 * 262144 + b % 64 * 4096 + c % 64 * 64 + d % 64 := by
  have hd := Nat.mod_lt d (show 64 > 0 by omega)
  have hc := Nat.mod_lt c (show 64 > 0 by omega)
  have hb := Nat.mod_lt b (show 64 > 0 by omega)
  rw [mask3, mask6, mask6, mask6, Nat.or_assoc, Nat.or_assoc, shift_or (c % 64) 6 (d % 64) hd,
    shift_or (b % 64) 12 _ (by omega), shift_or _ _ _ (by omega)]
  omega

theorem high_or (k m b : Nat) (hb : b < 2 ^ k) : 2 ^ k * m ||| b = 2 ^ k * m + b :=
  (Nat.two_pow_add_eq_or_of_lt hb m).symm

theorem tail_byte (b : Nat) : 128 ||| (b &&& 63) = 128 + b % 64 := by
  rw [mask6]
  exact high_or 6 2 _ (Nat.mod_lt _ (by omega))

theorem shift_right (a k : Nat) : a >>> k = a / 2 ^ k :=
  Nat.shiftRight_eq_div_pow a k

theorem or_192 (b : Nat) (hb : b < 32) : 192 ||| b = 192 + b := high_or 5 6 b hb
theorem or_224 (b : Nat) (hb : b < 16) : 224 ||| b = 224 + b := high_or 4 14 b hb
theorem or_240 (b : Nat) (hb : b < 8) : 240 ||| b = 240 + b := high_or 3 30 b hb

/-! ## Deciding validity -/

def firstScalar : List Nat → Option Nat
  | [] => none
  | a :: rest =>
    if a < 128 then some a
    else if a < 224 then rest[0]?.map fun b => a % 32 * 64 + b % 64
    else if a < 240 then
      rest[0]?.bind fun b => rest[1]?.map fun c => a % 16 * 4096 + b % 64 * 64 + c % 64
    else
      rest[0]?.bind fun b => rest[1]?.bind fun c => rest[2]?.map fun d =>
        a % 8 * 262144 + b % 64 * 4096 + c % 64 * 64 + d % 64

theorem firstScalar_encode8 (hc : Scalar c) (rest : List Nat) : firstScalar (encode8 c ++ rest) = some c := by
  have hlt := hc.lt
  unfold encode8
  by_cases h1 : c < 0x80
  · rw [if_pos h1]
    exact if_pos (by omega)
  rw [if_neg h1]
  by_cases h2 : c < 0x800
  · rw [if_pos h2]
    simp only [cons_append, firstScalar]
    rw [if_neg (by omega), if_pos (by omega)]
    simp only [getElem?_cons_zero, Option.map_some, Option.some.injEq]
    omega
  rw [if_neg h2]
  by_cases h3 : c < 0x10000
  · rw [if_pos h3]
    simp only [cons_append, firstScalar]
    rw [if_neg (by omega), if_neg (by omega), if_pos (by omega)]
    simp only [getElem?_cons_zero, getElem?_cons_succ, Option.bind_some, Option.map_some, Option.some.injEq]
    omega
  rw [if_neg h3]
  simp only [cons_append, firstScalar]
  rw [if_neg (by omega), if_neg (by omega), if_neg (by omega)]
  simp only [getElem?_cons_zero, getElem?_cons_succ, Option.bind_some, Option.map_some, Option.some.injEq]
  omega

def splits : Nat → List Nat → Bool
  | _, [] => true
  | 0, _ => false
  | fuel + 1, bytes =>
    match firstScalar bytes with
    | none => false
    | some c =>
      decide (Scalar c) && ((encode8 c).isPrefixOf bytes && splits fuel (bytes.drop (encode8 c).length))

theorem splits_sound : ∀ (fuel : Nat) {bytes : List Nat}, splits fuel bytes = true → Valid bytes
  | _, [], _ => .nil
  | 0, _ :: _, h => by cases h
  | fuel + 1, b :: bytes, h => by
    rw [splits] at h
    · cases hc : firstScalar (b :: bytes) with
      | none =>
        rw [hc] at h
        cases h
      | some c =>
        rw [hc] at h
        simp only [Bool.and_eq_true, decide_eq_true_eq] at h
        obtain ⟨hscalar, hprefix, hrest⟩ := h
        obtain ⟨rest, hbytes⟩ := isPrefixOf_iff_prefix.mp hprefix
        rw [← hbytes, drop_left] at hrest
        rw [← hbytes]
        exact .cons hscalar (splits_sound fuel hrest)
    · simp

theorem splits_complete (h : Valid bytes) : ∀ fuel, bytes.length ≤ fuel → splits fuel bytes = true := by
  induction h with
  | nil =>
    intro fuel _
    cases fuel with
    | zero => rfl
    | succ fuel => rfl
  | @cons c rest hc _ ih =>
    intro fuel hf
    have hpos := length_pos_iff.mpr (encode8_ne_nil c)
    rw [length_append] at hf
    obtain ⟨fuel, rfl⟩ : ∃ f, fuel = f + 1 := ⟨fuel - 1, by omega⟩
    have hne : encode8 c ++ rest ≠ [] := by
      intro h0
      exact encode8_ne_nil c (append_eq_nil_iff.mp h0).1
    rw [splits.eq_def]
    cases henc : encode8 c ++ rest with
    | nil => exact absurd henc hne
    | cons b bs =>
      simp only
      rw [← henc, firstScalar_encode8 hc]
      simp only [drop_left, Bool.and_eq_true, decide_eq_true_eq]
      exact ⟨hc, isPrefixOf_iff_prefix.mpr (prefix_append _ _), ih fuel (by omega)⟩

theorem valid_iff : splits bytes.length bytes = true ↔ Valid bytes :=
  ⟨splits_sound _, fun h => splits_complete h _ (le_refl _)⟩

instance (bytes : List Nat) : Decidable (Valid bytes) :=
  decidable_of_iff _ valid_iff

end Tsuzuri.Unicode
