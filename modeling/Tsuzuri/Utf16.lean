import Tsuzuri.Unicode

/-!
# Between UTF-16 and UTF-8

The scalar values of a string of code units, and of a sequence of bytes. Each
decoder is none where the input is not well-formed.
-/

namespace Tsuzuri.Unicode

open List

def isSurrogate (unit : Nat) : Bool :=
  55296 ≤ unit && unit ≤ 57343

def arePair (unit next : Nat) : Bool :=
  55296 ≤ unit && unit ≤ 56319 && (56320 ≤ next && next ≤ 57343)

def scalars16 : List UInt16 → Option (List Nat)
  | [] => some []
  | [unit] => if isSurrogate unit.toNat then none else some [unit.toNat]
  | unit :: next :: rest =>
    if arePair unit.toNat next.toNat then
      (scalars16 rest).map ((65536 + (unit.toNat - 55296) * 1024 + (next.toNat - 56320)) :: ·)
    else if isSurrogate unit.toNat then none
    else (scalars16 (next :: rest)).map (unit.toNat :: ·)

def scalars8From : Nat → List Nat → Option (List Nat)
  | _, [] => some []
  | 0, _ => none
  | fuel + 1, bytes =>
    match firstScalar bytes with
    | none => none
    | some c =>
      if Scalar c ∧ (encode8 c).isPrefixOf bytes then
        (scalars8From fuel (bytes.drop (encode8 c).length)).map (c :: ·)
      else none

def scalars8 (bytes : List Nat) : Option (List Nat) :=
  scalars8From bytes.length bytes

theorem scalar_unit {unit : UInt16} (h : isSurrogate unit.toNat = false) :
    Scalar unit.toNat ∧ encode16 unit.toNat = [unit] := by
  have hlt := unit.toNat_lt
  simp only [isSurrogate, Bool.and_eq_false_iff, decide_eq_false_iff_not] at h
  refine ⟨by unfold Scalar; omega, ?_⟩
  rw [encode16, if_pos (by omega), UInt16.ofNat_toNat]

theorem scalar_pair {unit next : UInt16} (h : arePair unit.toNat next.toNat = true) :
    Scalar (65536 + (unit.toNat - 55296) * 1024 + (next.toNat - 56320)) ∧
      encode16 (65536 + (unit.toNat - 55296) * 1024 + (next.toNat - 56320)) = [unit, next] := by
  simp only [arePair, Bool.and_eq_true, decide_eq_true_eq] at h
  generalize hc : 65536 + (unit.toNat - 55296) * 1024 + (next.toNat - 56320) = c
  have hhigh : 0xD800 + (c - 0x10000) / 1024 = unit.toNat := by omega
  have hlow : 0xDC00 + (c - 0x10000) % 1024 = next.toNat := by omega
  refine ⟨by unfold Scalar; omega, ?_⟩
  rw [encode16, if_neg (by omega), hhigh, hlow, UInt16.ofNat_toNat, UInt16.ofNat_toNat]

theorem scalars16_sound {units : List UInt16} : ∀ {cs : List Nat}, scalars16 units = some cs →
    (∀ c ∈ cs, Scalar c) ∧ cs.flatMap encode16 = units := by
  induction units using scalars16.induct with
  | case1 =>
    intro cs h
    obtain rfl : [] = cs := Option.some.inj h
    exact ⟨by simp, rfl⟩
  | case2 unit hs =>
    intro cs h
    rw [scalars16, if_pos hs] at h
    cases h
  | case3 unit hs =>
    intro cs h
    rw [scalars16, if_neg hs] at h
    cases h
    obtain ⟨hscalar, hunits⟩ := scalar_unit (Bool.eq_false_iff.mpr hs)
    exact ⟨by simpa using hscalar, by simpa using hunits⟩
  | case4 unit next rest hpair ih =>
    intro cs h
    rw [scalars16, if_pos hpair] at h
    obtain ⟨tail, htail, rfl⟩ := Option.map_eq_some_iff.mp h
    obtain ⟨hscalars, hunits⟩ := ih htail
    obtain ⟨hscalar, hfirst⟩ := scalar_pair hpair
    refine ⟨forall_mem_cons.mpr ⟨hscalar, hscalars⟩, ?_⟩
    rw [flatMap_cons, hfirst, hunits]
    rfl
  | case5 unit next rest hpair hs =>
    intro cs h
    rw [scalars16, if_neg hpair, if_pos hs] at h
    cases h
  | case6 unit next rest hpair hs ih =>
    intro cs h
    rw [scalars16, if_neg hpair, if_neg hs] at h
    obtain ⟨tail, htail, rfl⟩ := Option.map_eq_some_iff.mp h
    obtain ⟨hscalars, hunits⟩ := ih htail
    obtain ⟨hscalar, hfirst⟩ := scalar_unit (Bool.eq_false_iff.mpr hs)
    refine ⟨forall_mem_cons.mpr ⟨hscalar, hscalars⟩, ?_⟩
    rw [flatMap_cons, hfirst, hunits]
    rfl

theorem scalars8From_encode : ∀ {cs : List Nat} {fuel : Nat}, (∀ c ∈ cs, Scalar c) →
    (cs.flatMap encode8).length ≤ fuel → scalars8From fuel (cs.flatMap encode8) = some cs
  | [], fuel, _, _ => by
    cases fuel with
    | zero => rfl
    | succ fuel => rfl
  | c :: cs, fuel, hcs, hfuel => by
    have hpos := length_pos_iff.mpr (encode8_ne_nil c)
    rw [flatMap_cons, length_append] at hfuel
    obtain ⟨fuel, rfl⟩ : ∃ f, fuel = f + 1 := ⟨fuel - 1, by omega⟩
    obtain ⟨hc, hcs⟩ := forall_mem_cons.mp hcs
    rw [flatMap_cons, scalars8From.eq_def]
    cases henc : encode8 c ++ cs.flatMap encode8 with
    | nil => exact absurd (append_eq_nil_iff.mp henc).1 (encode8_ne_nil c)
    | cons b bytes =>
      simp only
      rw [← henc, firstScalar_encode8 hc]
      simp only [drop_left]
      rw [if_pos ⟨hc, isPrefixOf_iff_prefix.mpr (prefix_append _ _)⟩, scalars8From_encode hcs (by omega)]
      rfl

theorem scalars8_encode {cs : List Nat} (h : ∀ c ∈ cs, Scalar c) : scalars8 (cs.flatMap encode8) = some cs :=
  scalars8From_encode h le_rfl

end Tsuzuri.Unicode
