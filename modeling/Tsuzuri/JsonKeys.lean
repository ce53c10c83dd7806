import Mathlib.Data.List.Lex
import Mathlib.Order.Bounds.Basic
import Tsuzuri.Json

/-!
# Repeated keys

`first_duplicate` compares the members of a small object with each other and sorts those of a large
one.
-/

namespace Tsuzuri.Json

open List

variable {earlier keys : List Str} {entries : List (Str × Nat)} {members : List (Str × Value)} {p : Nat}

theorem firstRepeat_none {index : Nat} :
    firstRepeat earlier keys index = none ↔ keys.Nodup ∧ ∀ k ∈ keys, k ∉ earlier := by
  induction keys generalizing earlier index with
  | nil => simp [firstRepeat]
  | cons key keys ih =>
    rw [firstRepeat]
    by_cases hkey : key ∈ earlier
    · rw [if_pos hkey]
      simp only [reduceCtorEq, false_iff]
      rintro ⟨-, hnot⟩
      exact hnot key mem_cons_self hkey
    · rw [if_neg hkey, ih, nodup_cons]
      simp only [mem_append, mem_cons, not_mem_nil, or_false, not_or]
      constructor
      · rintro ⟨hnodup, hnot⟩
        refine ⟨⟨fun h => (hnot key h).2 rfl, hnodup⟩, ?_⟩
        rintro k (rfl | hk)
        · exact hkey
        · exact (hnot k hk).1
      · rintro ⟨⟨hnot, hnodup⟩, hearlier⟩
        refine ⟨hnodup, fun k hk => ⟨hearlier k (.inr hk), ?_⟩⟩
        rintro rfl
        exact hnot hk

/-! ## Sorted keys -/

theorem keyLe_iff {a b : Str × Nat} : keyLe a b = true ↔ a.1 < b.1 ∨ (a.1 = b.1 ∧ a.2 ≤ b.2) := by
  simp [keyLe]

theorem keyLe_trans (a b c : Str × Nat) (hab : keyLe a b = true) (hbc : keyLe b c = true) : keyLe a c = true := by
  rw [keyLe_iff] at *
  rcases hab with hab | ⟨hab, hab'⟩
  · rcases hbc with hbc | ⟨hbc, -⟩
    · exact .inl (List.lt_trans hab hbc)
    · exact .inl (hbc ▸ hab)
  · rcases hbc with hbc | ⟨hbc, hbc'⟩
    · exact .inl (hab ▸ hbc)
    · exact .inr ⟨hab.trans hbc, le_trans hab' hbc'⟩

theorem keyLe_total (a b : Str × Nat) : (keyLe a b || keyLe b a) = true := by
  rw [Bool.or_eq_true, keyLe_iff, keyLe_iff]
  by_cases hab : a.1 < b.1
  · exact .inl (.inl hab)
  by_cases hba : b.1 < a.1
  · exact .inr (.inl hba)
  have heq : a.1 = b.1 := List.le_antisymm (List.not_lt.mp hba) (List.not_lt.mp hab)
  rcases Nat.le_total a.2 b.2 with h | h
  · exact .inl (.inr ⟨heq, h⟩)
  · exact .inr (.inr ⟨heq.symm, h⟩)

theorem leastAdjacent_some (entries : List (Str × Nat)) (f : Nat) : leastAdjacent entries (some f) ≠ none := by
  induction entries generalizing f with
  | nil => simp [leastAdjacent]
  | cons a entries ih =>
    cases entries with
    | nil => simp [leastAdjacent]
    | cons b entries =>
      rw [leastAdjacent]
      split
      · exact ih _
      · exact ih _

theorem leastAdjacent_none : leastAdjacent entries none = none ↔ entries.IsChain fun a b => b.1 ≠ a.1 := by
  induction entries with
  | nil => simp [leastAdjacent]
  | cons a entries ih =>
    cases entries with
    | nil => simp [leastAdjacent]
    | cons b entries =>
      rw [leastAdjacent, isChain_cons_cons]
      by_cases hkey : b.1 = a.1
      · rw [if_pos ⟨hkey, rfl⟩]
        simp only [hkey, ne_eq, not_true_eq_false, false_and, iff_false]
        exact leastAdjacent_some _ _
      · rw [if_neg (fun h => hkey h.1), ih]
        simp [hkey]

theorem sorted_keys (keys : List Str) : (keys.zipIdx.mergeSort keyLe).Pairwise fun a b => keyLe a b = true :=
  pairwise_mergeSort keyLe_trans keyLe_total _

theorem chain_lt (hs : entries.Pairwise fun a b => keyLe a b = true)
    (hchain : entries.IsChain fun a b => b.1 ≠ a.1) : entries.IsChain fun a b => a.1 < b.1 := by
  induction entries with
  | nil => exact .nil
  | cons a entries ih =>
    cases entries with
    | nil => exact .singleton a
    | cons b entries =>
      rw [isChain_cons_cons] at hchain ⊢
      refine ⟨?_, ih hs.tail hchain.2⟩
      rcases keyLe_iff.mp (rel_of_pairwise_cons hs mem_cons_self) with h | ⟨h, -⟩
      · exact h
      · exact absurd h.symm hchain.1

theorem chain_iff_nodup (hs : entries.Pairwise fun a b => keyLe a b = true) :
    (entries.IsChain fun a b => b.1 ≠ a.1) ↔ (entries.map Prod.fst).Nodup := by
  constructor
  · intro hchain
    have htrans : Trans (fun a b : Str × Nat => a.1 < b.1) (fun a b : Str × Nat => a.1 < b.1)
        fun a b : Str × Nat => a.1 < b.1 := ⟨fun h h' => List.lt_trans h h'⟩
    have hpair := isChain_iff_pairwise.mp (chain_lt hs hchain)
    refine pairwise_map.mpr (hpair.imp ?_)
    intro a b h heq
    rw [heq] at h
    exact List.lt_irrefl _ h
  · intro hnodup
    have hpair : entries.Pairwise fun a b => b.1 ≠ a.1 := by
      refine (pairwise_map.mp hnodup).imp ?_
      intro a b h heq
      exact h heq.symm
    exact hpair.isChain

theorem leastAdjacent_sorted : leastAdjacent (keys.zipIdx.mergeSort keyLe) none = none ↔ keys.Nodup := by
  rw [leastAdjacent_none, chain_iff_nodup (sorted_keys _)]
  have hperm := (mergeSort_perm keys.zipIdx keyLe).map Prod.fst
  rw [hperm.nodup_iff, zipIdx_map_fst]

theorem firstDuplicate_none : firstDuplicate members = none ↔ (members.map Prod.fst).Nodup := by
  unfold firstDuplicate
  split
  · rw [firstRepeat_none]
    simp
  · exact leastAdjacent_sorted

/-- The key at `index` is the key of an earlier member. -/
def Repeats (keys : List Str) (index : Nat) : Prop :=
  ∃ key earlier, keys[index]? = some key ∧ earlier < index ∧ keys[earlier]? = some key

def LeastRepeat (keys : List Str) : Option Nat → Prop
  | none => keys.Nodup
  | some index => IsLeast {i | Repeats keys i} index

theorem nodup_iff_repeats : keys.Nodup ↔ ∀ i, ¬ Repeats keys i := by
  rw [nodup_iff_getElem?_ne_getElem?]
  constructor
  · rintro hne i ⟨key, j, hi, hji, hj⟩
    have hlen : i < keys.length := (List.getElem?_eq_some_iff.mp hi).1
    exact hne j i hji hlen (hj.trans hi.symm)
  · intro hnone j i hji hi heq
    have hkey : keys[i]? = some keys[i] := getElem?_eq_getElem hi
    exact hnone i ⟨keys[i], j, hkey, hji, heq.trans hkey⟩

theorem repeats_append {key : Str} : Repeats (earlier ++ key :: keys) earlier.length ↔ key ∈ earlier := by
  constructor
  · rintro ⟨k, j, hk, hj, hjk⟩
    rw [getElem?_append_right le_rfl, Nat.sub_self, getElem?_cons_zero] at hk
    rw [getElem?_append_left hj] at hjk
    cases hk
    exact mem_of_getElem? hjk
  · intro hmem
    obtain ⟨j, hj, hjk⟩ := getElem_of_mem hmem
    refine ⟨key, j, by simp, hj, ?_⟩
    rw [getElem?_append_left hj, getElem?_eq_getElem hj, hjk]

theorem repeats_le {i : Nat} (hd : earlier.Nodup) (hr : Repeats (earlier ++ keys) i) : earlier.length ≤ i := by
  by_contra hlt
  rw [not_le] at hlt
  obtain ⟨key, j, hi, hji, hj⟩ := hr
  rw [getElem?_append_left hlt] at hi
  rw [getElem?_append_left (hji.trans hlt)] at hj
  exact nodup_iff_repeats.mp hd i ⟨key, j, hi, hji, hj⟩

theorem firstRepeat_least (hd : earlier.Nodup) :
    LeastRepeat (earlier ++ keys) (firstRepeat earlier keys earlier.length) := by
  induction keys generalizing earlier with
  | nil => simpa [firstRepeat, LeastRepeat] using hd
  | cons key keys ih =>
    rw [firstRepeat]
    by_cases hkey : key ∈ earlier
    · rw [if_pos hkey]
      exact ⟨repeats_append.mpr hkey, fun i hi => repeats_le hd hi⟩
    · rw [if_neg hkey]
      have hnext : (earlier ++ [key]).Nodup := by
        rw [nodup_append]
        exact ⟨hd, nodup_singleton key, by grind⟩
      simpa using ih hnext

/-! ### The sorted keys -/

def adjacent : List (Str × Nat) → List Nat
  | (other, _) :: (key, position) :: rest =>
    if key = other then position :: adjacent ((key, position) :: rest)
    else adjacent ((key, position) :: rest)
  | _ => []

theorem mem_of_leastAdjacent (entries : List (Str × Nat)) (found : Option Nat) (p : Nat)
    (h : leastAdjacent entries found = some p) : found = some p ∨ p ∈ adjacent entries := by
  fun_induction leastAdjacent entries found with
  | case1 other _ key position rest found ih =>
    rw [adjacent]
    specialize ih h
    by_cases hkey : key = other
    · rw [if_pos hkey, mem_cons]
      rcases ih with hfound | hmem
      · split at hfound
        · exact .inr (.inl (Option.some.inj hfound).symm)
        · exact .inl hfound
      · exact .inr (.inr hmem)
    · rw [if_neg (fun hboth => hkey hboth.1)] at ih
      rwa [if_neg hkey]
  | case2 entries found hshort => exact .inl h

theorem leastAdjacent_le (entries : List (Str × Nat)) (found : Option Nat) (p : Nat)
    (h : found = some p ∨ p ∈ adjacent entries) : ∃ least ≤ p, leastAdjacent entries found = some least := by
  fun_induction leastAdjacent entries found generalizing p with
  | case1 other _ key position rest found ih =>
    rw [adjacent] at h
    by_cases hkey : key = other
    · rw [if_pos hkey, mem_cons] at h
      simp only [hkey, true_and] at ih ⊢
      rcases h with hfound | hhead | hmem
      · subst hfound
        by_cases hless : position < p
        · obtain ⟨least, hle, heq⟩ := ih position (.inl (by simp [hless]))
          exact ⟨least, hle.trans hless.le, heq⟩
        · exact ih p (.inl (by simp [hless]))
      · subst hhead
        by_cases hless : found.all (fun f => p < f) = true
        · exact ih p (.inl (if_pos hless))
        · cases found with
          | none => exact absurd rfl hless
          | some f =>
            obtain ⟨least, hle, heq⟩ := ih f (.inl (if_neg hless))
            exact ⟨least, hle.trans (by simpa using hless), heq⟩
      · rw [← hkey] at ih ⊢
        exact ih p (.inr hmem)
    · rw [if_neg hkey] at h
      simp only [hkey, false_and, if_false] at ih ⊢
      exact ih p h
  | case2 entries found hshort =>
    rw [adjacent] at h
    · rcases h with hfound | hmem
      · exact ⟨p, le_rfl, hfound⟩
      · cases hmem
    · exact hshort

theorem mem_adjacent : p ∈ adjacent entries ↔ ∃ before other key after,
        entries = before ++ other :: (key, p) :: after ∧ key = other.1 := by
  induction entries with
  | nil => simp [adjacent]
  | cons a entries ih =>
    cases entries with
    | nil =>
      simp only [adjacent, not_mem_nil, false_iff]
      rintro ⟨before, other, key, after, heq, -⟩
      have hlen := congrArg List.length heq
      simp at hlen
      omega
    | cons b rest =>
      obtain ⟨other, q⟩ := a
      obtain ⟨key, position⟩ := b
      have hrest : p ∈ adjacent ((other, q) :: (key, position) :: rest) ↔
          (key = other ∧ p = position) ∨ p ∈ adjacent ((key, position) :: rest) := by
        rw [adjacent]
        split <;> simp_all
      rw [hrest, ih]
      constructor
      · rintro (⟨rfl, rfl⟩ | ⟨before, o, k, after, heq, hkey⟩)
        · exact ⟨[], (key, q), key, rest, rfl, rfl⟩
        · exact ⟨(other, q) :: before, o, k, after, by rw [heq]; rfl, hkey⟩
      · rintro ⟨before, o, k, after, heq, hkey⟩
        cases before with
        | nil =>
          cases heq
          exact .inl ⟨hkey, rfl⟩
        | cons b before =>
          rw [cons_append, List.cons.injEq] at heq
          exact .inr ⟨before, o, k, after, heq.2, hkey⟩

theorem adjacent_sorted : p ∈ adjacent (keys.zipIdx.mergeSort keyLe) ↔ Repeats keys p := by
  have hs := sorted_keys keys
  have hperm := mergeSort_perm keys.zipIdx keyLe
  have hmem : ∀ key i, (key, i) ∈ keys.zipIdx.mergeSort keyLe ↔ keys[i]? = some key := by
    intro key i
    rw [hperm.mem_iff, mk_mem_zipIdx_iff_getElem?]
  have hnodup : (keys.zipIdx.mergeSort keyLe).Nodup := by
    rw [hperm.nodup_iff]
    exact List.Nodup.of_map Prod.snd (by rw [zipIdx_map_snd]; exact nodup_range')
  generalize keys.zipIdx.mergeSort keyLe = entries at hs hmem hnodup
  rw [mem_adjacent]
  constructor
  · rintro ⟨before, ⟨other, q⟩, key, after, rfl, rfl⟩
    have hq : q < p := by
      obtain ⟨-, hs, -⟩ := pairwise_append.mp hs
      obtain ⟨-, hnodup, -⟩ := nodup_append.mp hnodup
      rcases keyLe_iff.mp (rel_of_pairwise_cons hs mem_cons_self) with hlt | ⟨-, hle⟩
      · exact absurd hlt (List.lt_irrefl _)
      · refine lt_of_le_of_ne hle ?_
        rintro rfl
        exact (nodup_cons.mp hnodup).1 mem_cons_self
    exact ⟨key, q, (hmem _ _).mp (by simp), hq, (hmem _ _).mp (by simp)⟩
  · rintro ⟨key, q, hp, hqp, hq⟩
    rw [← hmem] at hp hq
    obtain ⟨before, after, rfl⟩ := append_of_mem hp
    obtain ⟨hbs, has, hcross⟩ := pairwise_append.mp hs
    have hbefore : (key, q) ∈ before := by
      rcases mem_append.mp hq with hb | ha
      · exact hb
      exfalso
      rcases mem_cons.mp ha with heq | ha
      · cases heq
        exact Nat.lt_irrefl _ hqp
      · rcases keyLe_iff.mp (rel_of_pairwise_cons has ha) with hlt | ⟨-, hle⟩
        · exact List.lt_irrefl _ hlt
        · exact Nat.not_lt.mpr hle hqp
    -- the entry just before lies between two entries of the key
    obtain ⟨before, last, rfl⟩ : ∃ first last, before = first ++ [last] :=
      ⟨_, _, (dropLast_append_getLast (ne_nil_of_mem hbefore)).symm⟩
    have hlast : keyLe last (key, p) = true := hcross last (by simp) _ mem_cons_self
    have hfirst : keyLe (key, q) last = true := by
      rw [mem_append, mem_singleton] at hbefore
      rcases hbefore with hb | rfl
      · exact (pairwise_append.mp hbs).2.2 _ hb _ mem_cons_self
      · exact keyLe_iff.mpr (.inr ⟨rfl, le_rfl⟩)
    refine ⟨before, last, key, after, by simp, ?_⟩
    rcases keyLe_iff.mp hfirst with hlt | ⟨heq, -⟩
    · rcases keyLe_iff.mp hlast with hgt | ⟨heq, -⟩
      · exact absurd (List.lt_trans hlt hgt) (List.lt_irrefl _)
      · exact heq.symm
    · exact heq

theorem leastAdjacent_least (keys : List Str) :
    LeastRepeat keys (leastAdjacent (keys.zipIdx.mergeSort keyLe) none) := by
  cases hleast : leastAdjacent (keys.zipIdx.mergeSort keyLe) none with
  | none => exact leastAdjacent_sorted.mp hleast
  | some least =>
    constructor
    · rcases mem_of_leastAdjacent _ _ _ hleast with hnone | hmem
      · cases hnone
      · exact adjacent_sorted.mp hmem
    · intro i hi
      obtain ⟨l, hle, heq⟩ := leastAdjacent_le _ none i (.inr (adjacent_sorted.mpr hi))
      rw [hleast] at heq
      cases heq
      exact hle

theorem LeastRepeat.unique {a b : Option Nat} (ha : LeastRepeat keys a) (hb : LeastRepeat keys b) : a = b := by
  cases a with
  | none =>
    cases b with
    | none => rfl
    | some b => exact absurd hb.1 (nodup_iff_repeats.mp ha b)
  | some a =>
    cases b with
    | none => exact absurd ha.1 (nodup_iff_repeats.mp hb a)
    | some b => rw [IsLeast.unique ha hb]

theorem leastRepeat_firstDuplicate (members : List (Str × Value)) :
    LeastRepeat (members.map Prod.fst) (firstDuplicate members) := by
  unfold firstDuplicate
  split
  · exact firstRepeat_least nodup_nil
  · exact leastAdjacent_least _

theorem firstDuplicate_lt {d : Nat} (h : firstDuplicate members = some d) : d < members.length := by
  have hleast := leastRepeat_firstDuplicate members
  rw [h] at hleast
  obtain ⟨key, -, hkey, -⟩ := hleast.1
  have hlt := (List.getElem?_eq_some_iff.mp hkey).1
  rwa [length_map] at hlt

theorem firstDuplicate_least (members : List (Str × Value)) (found : Option Nat) :
    firstDuplicate members = found ↔ LeastRepeat (members.map Prod.fst) found := by
  constructor
  · rintro rfl
    exact leastRepeat_firstDuplicate members
  · exact (leastRepeat_firstDuplicate members).unique

end Tsuzuri.Json
