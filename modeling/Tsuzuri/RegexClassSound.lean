import Mathlib.Data.List.Sort
import Tsuzuri.RegexClass

/-!
# Sets of scalars

What the operations on ranges do to their sets. Merged ranges are `Normal`, which the binary searches rest on.
-/

namespace Tsuzuri.Regex

open List

open Json (Str)

def Covers (ranges : Ranges) (code : Nat) : Prop :=
  ∃ r ∈ ranges, r.1 ≤ code ∧ code ≤ r.2

def Scoped (ranges : Ranges) : Prop :=
  ∀ r ∈ ranges, r.1 ≤ r.2 ∧ r.2 ≤ lastScalar

variable {first second ranges : Ranges} {code low high : Nat}

theorem covers_append : Covers (first ++ second) code ↔ Covers first code ∨ Covers second code := by
  simp only [Covers, mem_append, or_and_right, exists_or]

theorem covers_singleton : Covers [(low, high)] code ↔ low ≤ code ∧ code ≤ high := by
  simp [Covers]

theorem scoped_append : Scoped (first ++ second) ↔ Scoped first ∧ Scoped second :=
  forall_mem_append

theorem scoped_singleton : Scoped [(low, high)] ↔ low ≤ high ∧ high ≤ lastScalar := by
  simp [Scoped]

theorem Normal.scoped (h : Normal ranges) : Scoped ranges := h.1

theorem normal_snoc {r : Nat × Nat} : Normal (ranges ++ [r]) ↔
      Normal ranges ∧ (r.1 ≤ r.2 ∧ r.2 ≤ lastScalar) ∧ ∀ a ∈ ranges, a.2 + 1 < r.1 := by
  unfold Normal
  rw [pairwise_append]
  simp only [mem_append, mem_singleton, or_imp, forall_and, forall_eq, pairwise_singleton]
  tauto

theorem normal_nil : Normal [] := by
  simp [Normal]

theorem normal_singleton (h : low ≤ high) (hle : high ≤ lastScalar) : Normal [(low, high)] := by
  simp [Normal, h, hle]

theorem mergeKeys_spec : ∀ (keys : List Nat) (range : Option (Nat × Nat)) (output : Ranges),
    keys.Pairwise (fun a b => a ≤ b) → (∀ k ∈ keys, k / 2097152 ≤ k % 2097152 ∧ k % 2097152 ≤ lastScalar) →
    Normal (output ++ range.toList) → (range = none → output = []) → (∀ r ∈ range, ∀ k ∈ keys, r.1 ≤ k / 2097152) →
    Normal (mergeKeys keys range output) ∧ ∀ code, Covers (mergeKeys keys range output) code ↔
      Covers (output ++ range.toList) code ∨ ∃ k ∈ keys, k / 2097152 ≤ code ∧ code ≤ k % 2097152 := by
  intro keys
  induction keys with
  | nil =>
    intro range output _ _ hnormal hnone _
    cases range with
    | none => simpa [mergeKeys] using hnormal
    | some range => simpa [mergeKeys] using hnormal
  | cons key keys ih =>
    intro range output hsorted hkeys hnormal hnone hlow
    obtain ⟨hkey, hkeys⟩ := forall_mem_cons.mp hkeys
    have hle : ∀ k ∈ keys, key / 2097152 ≤ k / 2097152 :=
      fun k hk => Nat.div_le_div_right (rel_of_pairwise_cons hsorted hk)
    cases range with
    | none =>
      obtain rfl := hnone rfl
      obtain ⟨hn, hcovers⟩ := ih (some (key / 2097152, key % 2097152)) [] hsorted.of_cons hkeys
        (normal_singleton hkey.1 hkey.2) (by simp) (by simpa using hle)
      refine ⟨hn, fun code => ?_⟩
      rw [mergeKeys, hcovers]
      simp [Covers]
    | some range =>
      obtain ⟨low, high⟩ := range
      obtain ⟨hout, ⟨hopen, hlast⟩, hbefore⟩ := normal_snoc.mp hnormal
      have hlowkey := hlow (low, high) rfl key mem_cons_self
      simp only [mergeKeys, exists_mem_cons_iff]
      generalize key / 2097152 = first at *
      generalize key % 2097152 = last at *
      simp only at hopen hlast hbefore hlowkey
      split
      · rename_i htouch
        generalize hmax : (if high < last then last else high) = top
        have htop : high ≤ top ∧ last ≤ top ∧ (top = high ∨ top = last) := by
          rw [← hmax]
          split <;> omega
        have hrange : low ≤ top ∧ top ≤ lastScalar := by omega
        obtain ⟨hn, hcovers⟩ := ih (some (low, top)) output hsorted.of_cons hkeys
          (normal_snoc.mpr ⟨hout, hrange, hbefore⟩) (by simp) (fun r hr k hk => by
            cases hr
            exact Nat.le_trans hlowkey (hle k hk))
        refine ⟨hn, fun code => ?_⟩
        have hjoin : (low ≤ code ∧ code ≤ top) ↔ (low ≤ code ∧ code ≤ high) ∨ (first ≤ code ∧ code ≤ last) := by
          omega
        rw [hcovers]
        simp only [Option.toList_some, covers_append, covers_singleton, hjoin, or_assoc]
      · rename_i hgap
        have hbehind : ∀ a ∈ output ++ [(low, high)], a.2 + 1 < first := by
          intro a ha
          rcases mem_append.mp ha with ha | ha
          · have := hbefore a ha
            omega
          · obtain rfl := mem_singleton.mp ha
            exact Nat.lt_of_not_le hgap
        obtain ⟨hn, hcovers⟩ := ih (some (first, last)) (output ++ [(low, high)])
          hsorted.of_cons hkeys (normal_snoc.mpr ⟨hnormal, hkey, hbehind⟩) (by simp)
          (by simpa using hle)
        refine ⟨hn, fun code => ?_⟩
        rw [hcovers]
        simp only [Option.toList_some, covers_append, covers_singleton, or_assoc]

theorem normalize_spec (h : Scoped ranges) :
    Normal (normalize ranges) ∧ ∀ code, Covers (normalize ranges) code ↔ Covers ranges code := by
  have hkey : ∀ r ∈ ranges, (r.1 * 2097152 + r.2) / 2097152 = r.1 ∧ (r.1 * 2097152 + r.2) % 2097152 = r.2 := by
    intro r hr
    have := h r hr
    simp only [lastScalar] at this
    omega
  have hkeys : ∀ k ∈ (ranges.map fun r => r.1 * 2097152 + r.2).mergeSort,
      k / 2097152 ≤ k % 2097152 ∧ k % 2097152 ≤ lastScalar := by
    intro k hk
    obtain ⟨r, hr, rfl⟩ := mem_map.mp (mem_mergeSort.mp hk)
    rw [(hkey r hr).1, (hkey r hr).2]
    exact h r hr
  obtain ⟨hn, hcovers⟩ := mergeKeys_spec _ none [] (pairwise_mergeSort' (· ≤ ·) _) hkeys normal_nil (fun _ => rfl)
    (by simp)
  refine ⟨hn, fun code => ?_⟩
  rw [normalize, hcovers]
  constructor
  · rintro (⟨r, hr, _⟩ | ⟨k, hk, hcode⟩)
    · cases hr
    · obtain ⟨r, hr, rfl⟩ := mem_map.mp (mem_mergeSort.mp hk)
      rw [(hkey r hr).1, (hkey r hr).2] at hcode
      exact ⟨r, hr, hcode⟩
  · rintro ⟨r, hr, hcode⟩
    refine .inr ⟨r.1 * 2097152 + r.2, mem_mergeSort.mpr (mem_map.mpr ⟨r, hr, rfl⟩), ?_⟩
    rw [(hkey r hr).1, (hkey r hr).2]
    exact hcode

theorem normalize_normal (h : Scoped ranges) : Normal (normalize ranges) :=
  (normalize_spec h).1

/-! ## Complement -/

theorem complementFrom_spec : ∀ (ranges : Ranges) (next : Nat) (output : Ranges), Normal ranges →
    (∀ r ∈ ranges, next ≤ r.1) → Normal output → (∀ r ∈ output, r.2 + 1 < next) →
    (ranges.head?.any (fun r => r.1 ≤ next) → output = []) →
    Normal (complementFrom ranges next output) ∧ ∀ code, Covers (complementFrom ranges next output) code ↔
        Covers output code ∨ (next ≤ code ∧ code ≤ lastScalar ∧ ¬Covers ranges code) := by
  intro ranges
  induction ranges with
  | nil =>
    intro next output _ _ hout hbefore _
    rw [complementFrom]
    split
    · rename_i hle
      refine ⟨normal_snoc.mpr ⟨hout, ⟨hle, Nat.le_refl _⟩, hbefore⟩, fun code => ?_⟩
      rw [covers_append, covers_singleton]
      simp [Covers]
    · rename_i hgt
      refine ⟨hout, fun code => ?_⟩
      constructor
      · exact .inl
      · rintro (h | ⟨h1, h2, _⟩)
        · exact h
        · omega
  | cons r ranges ih =>
    intro next output hnormal hnext hout hbefore hfirst
    obtain ⟨first, last⟩ := r
    have hr := hnormal.1 (first, last) mem_cons_self
    have hrest : ∀ s ∈ ranges, last + 1 < s.1 := fun s hs => rel_of_pairwise_cons hnormal.2 hs
    have hn := hnext (first, last) mem_cons_self
    have htail : Normal ranges :=
      ⟨fun s hs => hnormal.1 s (mem_cons_of_mem _ hs), hnormal.2.of_cons⟩
    have hhead : ¬ (ranges.head?.any (fun s => s.1 ≤ last + 1) = true) := by
      intro h
      cases ranges with
      | nil => simp at h
      | cons s _ =>
        have := hrest s mem_cons_self
        simp at h
        omega
    simp only at hr hn
    rw [complementFrom]
    have hstep : ∀ output', Normal output' → (∀ s ∈ output', s.2 + 1 < last + 1) →
        (∀ code, Covers output' code ↔ Covers output code ∨ (next ≤ code ∧ code < first)) →
        Normal (complementFrom ranges (last + 1) output') ∧
          ∀ code, Covers (complementFrom ranges (last + 1) output') code ↔ Covers output code ∨
            (next ≤ code ∧ code ≤ lastScalar ∧ ¬Covers ((first, last) :: ranges) code) := by
      intro output' hout' hbefore' hcovers'
      obtain ⟨hresult, hcovers⟩ := ih (last + 1) output' htail
        (fun s hs => by have := hrest s hs; omega) hout' hbefore' (fun h => absurd h hhead)
      refine ⟨hresult, fun code => ?_⟩
      rw [hcovers, hcovers', or_assoc]
      have hcons : Covers ((first, last) :: ranges) code ↔ (first ≤ code ∧ code ≤ last) ∨ Covers ranges code := by
        simp [Covers]
      have hlater : code ≤ last → ¬Covers ranges code := by
        rintro hle ⟨s, hs, h1, _⟩
        have := hrest s hs
        omega
      rw [hcons]
      by_cases hc : Covers ranges code
      · have : last < code := Nat.lt_of_not_le fun h => hlater h hc
        simp only [hc, or_true, not_true, and_false, or_false]
        constructor
        · rintro (h | ⟨_, h⟩)
          · exact h
          · omega
        · exact .inl
      · simp only [hc, or_false, not_false_iff, and_true]
        constructor
        · rintro (h | h | h)
          · exact .inl h
          · exact .inr (by omega)
          · exact .inr (by omega)
        · rintro (h | h)
          · exact .inl h
          · by_cases hlt : code < first
            · exact .inr (.inl (by omega))
            · exact .inr (.inr (by omega))
    split
    · rename_i hlt
      refine hstep _ (normal_snoc.mpr ⟨hout, ⟨by simp only; omega, by simp only; omega⟩, ?_⟩) ?_ ?_
      · intro a ha
        have := hbefore a ha
        simp only
        omega
      · intro s hs
        rcases mem_append.mp hs with hs | hs
        · have := hbefore s hs
          omega
        · obtain rfl := mem_singleton.mp hs
          simp only
          omega
      · intro code
        rw [covers_append, covers_singleton]
        have : (next ≤ code ∧ code ≤ first - 1) ↔ (next ≤ code ∧ code < first) := by omega
        rw [this]
    · rename_i hge
      obtain rfl : first = next := by omega
      obtain rfl := hfirst (by simp)
      refine hstep [] normal_nil (by simp) ?_
      intro code
      have : ¬ (first ≤ code ∧ code < first) := by omega
      simp [this]

theorem complement_spec (h : Normal ranges) : Normal (complement ranges) ∧
      ∀ code, Covers (complement ranges) code ↔ code ≤ lastScalar ∧ ¬Covers ranges code := by
  obtain ⟨hn, hcovers⟩ := complementFrom_spec ranges 0 [] h (by simp) normal_nil (by simp) (fun _ => rfl)
  refine ⟨hn, fun code => ?_⟩
  rw [complement, hcovers]
  simp [Covers]

/-! ## Binary searches -/

theorem lowerBound_spec (below : Nat → Bool) (count : Nat)
    (hmono : ∀ i j, i ≤ j → j < count → below j = true → below i = true) :
    ∀ fuel low high, high ≤ count → low ≤ high → high ≤ low + fuel →
      (∀ i, i < low → below i = true) → (∀ i, high ≤ i → i < count → below i = false) →
      lowerBound below fuel low high ≤ count ∧ (∀ i, i < lowerBound below fuel low high → below i = true) ∧
        ∀ i, lowerBound below fuel low high ≤ i → i < count → below i = false := by
  intro fuel
  induction fuel with
  | zero =>
    intro low high hcount hle hfuel hlow hhigh
    obtain rfl : low = high := by omega
    exact ⟨hcount, hlow, hhigh⟩
  | succ fuel ih =>
    intro low high hcount hle hfuel hlow hhigh
    rw [lowerBound]
    split
    · rename_i hlt
      have hmid : low ≤ (low + high) / 2 ∧ (low + high) / 2 < high := by omega
      simp only
      cases hb : below ((low + high) / 2) with
      | true =>
        rw [if_pos rfl]
        refine ih _ _ hcount (by omega) (by omega) (fun i hi => ?_) hhigh
        exact hmono i ((low + high) / 2) (by omega) (by omega) hb
      | false =>
        rw [if_neg (by simp)]
        refine ih _ _ (by omega) (by omega) (by omega) hlow (fun i hi hlt' => ?_)
        by_contra h
        have := hmono ((low + high) / 2) i hi hlt' (by simpa using h)
        rw [hb] at this
        cases this
    · obtain rfl : low = high := by omega
      exact ⟨hcount, hlow, hhigh⟩

theorem holdsScalar_iff (h : Normal ranges) (code : Nat) : holdsScalar ranges code = true ↔ Covers ranges code := by
  have hlt : ∀ i j (hi : i < ranges.length) (hj : j < ranges.length), i < j → ranges[i].2 + 1 < ranges[j].1 :=
    fun i j hi hj hij => pairwise_iff_getElem.mp h.2 i j hi hj hij
  have hbelow : ∀ i (hi : i < ranges.length), (ranges[i]?.any fun r => r.2 < code) = decide (ranges[i].2 < code) := by
    intro i hi
    rw [getElem?_eq_getElem hi]
    rfl
  obtain ⟨hle, hlow, hhigh⟩ := lowerBound_spec (fun i => ranges[i]?.any fun r => r.2 < code) ranges.length (by
      intro i j hij hj hb
      have hi : i < ranges.length := Nat.lt_of_le_of_lt hij hj
      rw [hbelow j hj, decide_eq_true_eq] at hb
      rw [hbelow i hi, decide_eq_true_eq]
      rcases Nat.lt_or_eq_of_le hij with hij | rfl
      · have h1 := hlt i j hi hj hij
        have h2 := (h.1 ranges[j] (getElem_mem hj)).1
        omega
      · exact hb) ranges.length 0 ranges.length (Nat.le_refl _) (Nat.zero_le _) (by omega)
    (by intro i hi; cases hi) (by intro i h1 h2; omega)
  unfold holdsScalar
  simp only
  generalize lowerBound _ _ _ _ = m at hle hlow hhigh
  constructor
  · intro hany
    rcases Nat.lt_or_ge m ranges.length with hm | hm
    · rw [getElem?_eq_getElem hm] at hany
      have hfirst : ranges[m].1 ≤ code := by simpa using hany
      have hlast := hhigh m (Nat.le_refl _) hm
      rw [hbelow m hm, decide_eq_false_iff_not] at hlast
      exact ⟨ranges[m], getElem_mem hm, hfirst, by omega⟩
    · rw [getElem?_eq_none hm] at hany
      cases hany
  · rintro ⟨r, hr, h1, h2⟩
    obtain ⟨i, hi, rfl⟩ := getElem_of_mem hr
    have hmi : m ≤ i := by
      by_contra hlt'
      have := hlow i (by omega)
      rw [hbelow i hi, decide_eq_true_eq] at this
      omega
    have hm : m < ranges.length := Nat.lt_of_le_of_lt hmi hi
    rw [getElem?_eq_getElem hm]
    have : ranges[m].1 ≤ code := by
      rcases Nat.lt_or_eq_of_le hmi with hlt' | rfl
      · have h3 := hlt m i hm hi hlt'
        have h4 := (h.1 ranges[m] (getElem_mem hm)).1
        omega
      · exact h1
    simpa using this

theorem sortedHolds_iff {values : List Nat} (h : values.Pairwise fun a b => a ≤ b) (code : Nat) :
    sortedHolds values code = true ↔ code ∈ values := by
  have hle' : ∀ i j (hi : i < values.length) (hj : j < values.length), i ≤ j → values[i] ≤ values[j] := by
    intro i j hi hj hij
    rcases Nat.lt_or_eq_of_le hij with hij | rfl
    · exact pairwise_iff_getElem.mp h i j hi hj hij
    · exact Nat.le_refl _
  have hbelow : ∀ i (hi : i < values.length), (values[i]?.any (· < code)) = decide (values[i] < code) := by
    intro i hi
    rw [getElem?_eq_getElem hi]
    rfl
  obtain ⟨hle, hlow, hhigh⟩ := lowerBound_spec (fun i => values[i]?.any (· < code)) values.length (by
      intro i j hij hj hb
      have hi : i < values.length := Nat.lt_of_le_of_lt hij hj
      rw [hbelow j hj, decide_eq_true_eq] at hb
      rw [hbelow i hi, decide_eq_true_eq]
      have := hle' i j hi hj hij
      omega) values.length 0 values.length (Nat.le_refl _) (Nat.zero_le _) (by omega)
    (by intro i hi; cases hi) (by intro i h1 h2; omega)
  unfold sortedHolds
  simp only [decide_eq_true_eq]
  generalize lowerBound _ _ _ _ = m at hle hlow hhigh
  constructor
  · intro hget
    exact mem_of_getElem? hget
  · intro hin
    obtain ⟨i, hi, rfl⟩ := getElem_of_mem hin
    have hmi : m ≤ i := by
      by_contra hlt'
      have := hlow i (by omega)
      rw [hbelow i hi, decide_eq_true_eq] at this
      omega
    have hm : m < values.length := Nat.lt_of_le_of_lt hmi hi
    have hge := hhigh m (Nat.le_refl _) hm
    rw [hbelow m hm, decide_eq_false_iff_not] at hge
    have := hle' m i hm hi hmi
    rw [getElem?_eq_getElem hm, show values[m] = values[i] by omega]

def Touches (ranges : Ranges) (p : Nat × Nat) : Prop :=
  Covers ranges p.1 ∨ Covers ranges p.2

theorem fold_spec {pairs : List (Nat × Nat)} (h : Normal ranges)
    (hpairs : ∀ p ∈ pairs, p.1 ≤ lastScalar ∧ p.2 ≤ lastScalar) :
    Normal (fold ranges pairs) ∧ ∀ code, Covers (fold ranges pairs) code ↔
      Covers ranges code ∨ ∃ q ∈ pairs, Touches ranges q ∧ (code = q.2 ∨ ∃ p ∈ pairs, p.2 = q.2 ∧ code = p.1) := by
  have htouch : ∀ p, (holdsScalar ranges p.1 || holdsScalar ranges p.2) = true ↔ Touches ranges p := by
    intro p
    rw [Bool.or_eq_true, holdsScalar_iff h, holdsScalar_iff h]
    rfl
  have htargets : ∀ code, code ∈ ((pairs.filter fun p =>
      holdsScalar ranges p.1 || holdsScalar ranges p.2).map Prod.snd).mergeSort ↔
      ∃ q ∈ pairs, Touches ranges q ∧ code = q.2 := by
    intro code
    simp only [mem_mergeSort, mem_map, mem_filter, htouch, and_assoc, eq_comm]
  unfold fold
  simp only
  generalize hfolded : ((pairs.filter fun p =>
      holdsScalar ranges p.1 || holdsScalar ranges p.2).map Prod.snd).mergeSort = folded at htargets
  have hsorted : folded.Pairwise fun a b => a ≤ b := hfolded ▸ pairwise_mergeSort' (· ≤ ·) _
  have hscoped : Scoped (ranges ++ ((pairs.filter fun p => sortedHolds folded p.2).map
      fun p => (p.1, p.1)) ++ folded.map fun code => (code, code)) := by
    refine scoped_append.mpr ⟨scoped_append.mpr ⟨h.1, ?_⟩, ?_⟩
    · intro r hr
      obtain ⟨p, hp, rfl⟩ := mem_map.mp hr
      exact ⟨Nat.le_refl _, (hpairs p (mem_filter.mp hp).1).1⟩
    · intro r hr
      obtain ⟨code, hcode, rfl⟩ := mem_map.mp hr
      obtain ⟨q, hq, _, rfl⟩ := (htargets code).mp hcode
      exact ⟨Nat.le_refl _, (hpairs q hq).2⟩
  obtain ⟨hn, hcovers⟩ := normalize_spec hscoped
  refine ⟨hn, fun code => ?_⟩
  have hpoint : ∀ (values : List Nat), Covers (values.map fun value => (value, value)) code ↔ code ∈ values := by
    intro values
    simp only [Covers, mem_map]
    constructor
    · rintro ⟨_, ⟨value, hin, rfl⟩, h1, h2⟩
      obtain rfl : value = code := Nat.le_antisymm h1 h2
      exact hin
    · intro hin
      exact ⟨(code, code), ⟨code, hin, rfl⟩, Nat.le_refl _, Nat.le_refl _⟩
  have hsources : Covers ((pairs.filter fun p => sortedHolds folded p.2).map fun p => (p.1, p.1)) code ↔
      ∃ p ∈ pairs, p.2 ∈ folded ∧ p.1 = code := by
    have := hpoint ((pairs.filter fun p => sortedHolds folded p.2).map Prod.fst)
    rw [map_map] at this
    rw [show (fun p : Nat × Nat => (p.1, p.1)) = (fun value => (value, value)) ∘ Prod.fst from rfl, this]
    simp only [mem_map, mem_filter, sortedHolds_iff hsorted, and_assoc]
  rw [hcovers, covers_append, covers_append, hpoint, hsources, htargets, or_assoc]
  apply or_congr_right
  constructor
  · rintro (⟨p, hp, hin, rfl⟩ | ⟨q, hq, ht, rfl⟩)
    · obtain ⟨q, hq, ht, hpq⟩ := (htargets p.2).mp hin
      exact ⟨q, hq, ht, .inr ⟨p, hp, hpq, rfl⟩⟩
    · exact ⟨q, hq, ht, .inl rfl⟩
  · rintro ⟨q, hq, ht, rfl | ⟨p, hp, hpq, rfl⟩⟩
    · exact .inr ⟨q, hq, ht, rfl⟩
    · exact .inl ⟨p, hp, (htargets p.2).mpr ⟨q, hq, ht, hpq⟩, rfl⟩

end Tsuzuri.Regex
