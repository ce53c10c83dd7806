import Tsuzuri.RegexClassSound
import Tsuzuri.RegexVm

/-!
# Classes in arrays (`std/Regex.tz`)

Class `k` of a compiled pattern is `classes[2k + 1]` closed ranges from `ranges[classes[2k]]`. What `in_class`
searches there are the ranges of `Program.classes`.
-/

namespace Tsuzuri.Regex

open List

open FaultVec (Exec)

structure ClassArrays where
  classes : List Nat
  ranges : List Nat

/-- `first, last, first, last, ...` -/
def flat (set : Ranges) : List Nat :=
  set.flatMap fun r => [r.1, r.2]

namespace ClassArrays

def addClass (arrays : ClassArrays) (set : Ranges) : Option (ClassArrays × Nat) :=
  if maxRanges < arrays.ranges.length / 2 + set.length then none
  else
    some (⟨arrays.classes ++ [arrays.ranges.length, set.length], arrays.ranges ++ flat set⟩, arrays.classes.length / 2)

/-- The loop of `in_class`. -/
def rangeFrom (arrays : ClassArrays) (start code : Nat) : Nat → Nat → Nat → Exec Nat
  | 0, low, _ => .ok low
  | fuel + 1, low, high =>
    if low < high then do
      let middle := (low + high) / 2
      let last ← FaultVec.index arrays.ranges (start + 2 * middle + 1 : Nat)
      if last < code then rangeFrom arrays start code fuel (middle + 1) high
      else rangeFrom arrays start code fuel low middle
    else .ok low

def inClass (arrays : ClassArrays) (id code : Nat) : Exec Bool := do
  let start ← FaultVec.index arrays.classes (2 * id : Nat)
  let count ← FaultVec.index arrays.classes (2 * id + 1 : Nat)
  let low ← arrays.rangeFrom start code count 0 count
  if low < count then
    let first ← FaultVec.index arrays.ranges (start + 2 * low : Nat)
    .ok (first ≤ code)
  else .ok false

/-- Class `id` of the arrays is `set`. -/
structure Stores (arrays : ClassArrays) (id start : Nat) (set : Ranges) : Prop where
  opens : arrays.classes[2 * id]? = some start
  size : arrays.classes[2 * id + 1]? = some set.length
  reads : ∀ i r, set[i]? = some r →
    arrays.ranges[start + 2 * i]? = some r.1 ∧ arrays.ranges[start + 2 * i + 1]? = some r.2

end ClassArrays

/-! ## Adding a class -/

variable {arrays arrays' : ClassArrays} {sets : List Ranges} {set : Ranges} {id start : Nat}

theorem length_flat (set : Ranges) : (flat set).length = 2 * set.length := by
  induction set with
  | nil => rfl
  | cons r set ih =>
    simp only [flat, flatMap_cons, length_append, length_cons, length_nil] at ih ⊢
    omega

theorem flat_getElem? {i : Nat} {r : Nat × Nat} (h : set[i]? = some r) :
    (flat set)[2 * i]? = some r.1 ∧ (flat set)[2 * i + 1]? = some r.2 := by
  induction set generalizing i with
  | nil => cases h
  | cons head set ih =>
    cases i with
    | zero =>
      cases h
      exact ⟨rfl, rfl⟩
    | succ i => exact ih h

structure ClassArrays.Holds (arrays : ClassArrays) (sets : List Ranges) : Prop where
  classes : arrays.classes.length = 2 * sets.length
  ranges : arrays.ranges.length = 2 * (sets.map List.length).sum
  stores : ∀ id set, sets[id]? = some set → ∃ start, arrays.Stores id start set

namespace ClassArrays.Holds

theorem empty : Holds ⟨[], []⟩ [] where
  classes := rfl
  ranges := rfl
  stores := by simp

/-- Both forms of `add_class` accept the same sets and give them the same number. -/
theorem addClass (h : arrays.Holds sets) : (Regex.addClass sets set = none → arrays.addClass set = none) ∧
      ∀ added ∈ Regex.addClass sets set, ∃ arrays', arrays.addClass set = some (arrays', added.2) ∧
        arrays'.Holds added.1 := by
  have hhalf : arrays.ranges.length / 2 = (sets.map List.length).sum := by
    have := h.ranges
    omega
  unfold Regex.addClass ClassArrays.addClass
  rw [hhalf]
  by_cases hlimit : maxRanges < (sets.map List.length).sum + set.length
  · rw [if_pos hlimit, if_pos hlimit]
    exact ⟨fun _ => rfl, by simp⟩
  rw [if_neg hlimit, if_neg hlimit]
  have hclasses := h.classes
  have hcount : arrays.classes.length / 2 = sets.length := by omega
  refine ⟨by rintro ⟨⟩, ?_⟩
  rintro _ ⟨⟩
  rw [hcount]
  refine ⟨_, rfl, ?_, ?_, fun id found hfound => ?_⟩
  · simp only [length_append, length_cons, length_nil, hclasses]
    omega
  · simp only [length_append, length_flat, h.ranges, map_append, sum_append, map_cons, map_nil, sum_cons, sum_nil]
    omega
  · rcases Nat.lt_or_ge id sets.length with hid | hid
    · rw [getElem?_append_left hid] at hfound
      obtain ⟨start, hstart, hcount, hranges⟩ := h.stores id found hfound
      refine ⟨start, ?_, ?_, fun i r hr => ?_⟩
      · rwa [getElem?_append_left (by omega)]
      · rwa [getElem?_append_left (by omega)]
      · obtain ⟨hfirst, hlast⟩ := hranges i r hr
        have hbound := (List.getElem?_eq_some_iff.mp hlast).1
        exact ⟨by rwa [getElem?_append_left (by omega)], by rwa [getElem?_append_left (by omega)]⟩
    · have hlast : id = sets.length := by
        have hbound := (List.getElem?_eq_some_iff.mp hfound).1
        simp only [length_append, length_cons, length_nil] at hbound
        omega
      subst hlast
      rw [getElem?_append_right (Nat.le_refl _), Nat.sub_self] at hfound
      cases hfound
      refine ⟨arrays.ranges.length, ?_, ?_, fun i r hr => ?_⟩
      · rw [getElem?_append_right (by omega), hclasses, Nat.sub_self]
        rfl
      · rw [getElem?_append_right (by omega), hclasses, Nat.add_sub_cancel_left]
        rfl
      · obtain ⟨hfirst, hlast⟩ := flat_getElem? hr
        rw [getElem?_append_right (by omega), getElem?_append_right (by omega),
          show arrays.ranges.length + 2 * i - arrays.ranges.length = 2 * i by omega,
          show arrays.ranges.length + 2 * i + 1 - arrays.ranges.length = 2 * i + 1 by omega]
        exact ⟨hfirst, hlast⟩

end ClassArrays.Holds

namespace ClassArrays.Stores

theorem rangeFrom (h : arrays.Stores id start set) (code : Nat) :
    ∀ fuel low high, high ≤ set.length → arrays.rangeFrom start code fuel low high =
      .ok (lowerBound (fun i => set[i]?.any fun r => r.2 < code) fuel low high) := by
  intro fuel
  induction fuel with
  | zero => exact fun _ _ _ => rfl
  | succ fuel ih =>
    intro low high hhigh
    unfold ClassArrays.rangeFrom lowerBound
    by_cases hlt : low < high
    · have hmiddle : (low + high) / 2 < set.length := by omega
      have hread := (h.reads _ _ (getElem?_eq_getElem hmiddle)).2
      simp only [hlt, if_true, FaultVec.index, FaultVec.get_natCast, hread, getElem?_eq_getElem hmiddle]
      change (if _ then _ else _) = _
      by_cases hless : set[(low + high) / 2].2 < code
      · simp only [hless, if_true, Option.any_some, decide_true]
        exact ih _ _ hhigh
      · simp only [hless, if_false, Option.any_some, decide_false, Bool.false_eq_true]
        exact ih _ _ (by omega)
    · simp only [hlt, if_false]

theorem inClass_eq (h : arrays.Stores id start set) (code : Nat) :
    arrays.inClass id code = .ok (holdsScalar set code) := by
  unfold ClassArrays.inClass holdsScalar
  simp only [FaultVec.index, FaultVec.get_natCast, h.opens, h.size]
  change (do let low ← arrays.rangeFrom start code set.length 0 set.length; _) = _
  rw [h.rangeFrom code _ _ _ (Nat.le_refl _)]
  generalize lowerBound _ _ _ _ = low
  change (if low < set.length then _ else _) = _
  by_cases hlow : low < set.length
  · have hread := (h.reads _ _ (getElem?_eq_getElem hlow)).1
    simp only [hlow, if_true, hread, getElem?_eq_getElem hlow]
    rfl
  · simp only [hlow, if_false, getElem?_eq_none (Nat.le_of_not_lt hlow)]
    rfl

end ClassArrays.Stores

/-! ## Simple case folding -/

def simpleFold (pairs : List (Nat × Nat)) (code : Nat) : Nat :=
  ((pairs.find? fun p => p.1 = code).map Prod.snd).getD code

/-- A table of `c, scf c` for every `c` that folds: what a scalar folds to does not fold. -/
structure SimpleFolding (pairs : List (Nat × Nat)) : Prop where
  bounded : ∀ p ∈ pairs, p.1 ≤ lastScalar ∧ p.2 ≤ lastScalar
  unique : ∀ p ∈ pairs, ∀ q ∈ pairs, p.1 = q.1 → p.2 = q.2
  folded : ∀ p ∈ pairs, ∀ q ∈ pairs, p.2 ≠ q.1

namespace SimpleFolding

variable {pairs : List (Nat × Nat)} {code : Nat}

theorem simpleFold_pair (h : SimpleFolding pairs) {p : Nat × Nat} (hp : p ∈ pairs) : simpleFold pairs p.1 = p.2 := by
  unfold simpleFold
  cases hfind : pairs.find? fun q => q.1 = p.1 with
  | none => exact absurd (find?_eq_none.mp hfind p hp) (by simp)
  | some q => exact h.unique q (mem_of_find?_eq_some hfind) p hp (by simpa using find?_some hfind)

theorem simpleFold_target (h : SimpleFolding pairs) {p : Nat × Nat} (hp : p ∈ pairs) : simpleFold pairs p.2 = p.2 := by
  unfold simpleFold
  cases hfind : pairs.find? fun q => q.1 = p.2 with
  | none => rfl
  | some q =>
    have heq : q.1 = p.2 := by simpa using find?_some hfind
    exact absurd heq.symm (h.folded p hp q (mem_of_find?_eq_some hfind))

/-- A scalar folds to itself or by a pair of the table. -/
theorem simpleFold_cases (pairs : List (Nat × Nat)) (code : Nat) :
    simpleFold pairs code = code ∨ (code, simpleFold pairs code) ∈ pairs := by
  unfold simpleFold
  cases hfind : pairs.find? fun q => q.1 = code with
  | none => exact .inl rfl
  | some q =>
    have heq : q.1 = code := by simpa using find?_some hfind
    subst heq
    exact .inr (mem_of_find?_eq_some hfind)

theorem fold_closure (h : SimpleFolding pairs) (hset : Normal set) :
    Normal (fold set pairs) ∧ ∀ code, Covers (fold set pairs) code ↔
      ∃ member, Covers set member ∧ simpleFold pairs code = simpleFold pairs member := by
  obtain ⟨hnormal, hcovers⟩ := fold_spec hset h.bounded
  refine ⟨hnormal, fun code => ?_⟩
  rw [hcovers]
  constructor
  · rintro (hcode | ⟨q, hq, htouch, hcode⟩)
    · exact ⟨code, hcode, rfl⟩
    have hfold : simpleFold pairs code = q.2 := by
      rcases hcode with rfl | ⟨p, hp, hpq, rfl⟩
      · exact h.simpleFold_target hq
      · exact (h.simpleFold_pair hp).trans hpq
    rcases htouch with hfirst | hlast
    · exact ⟨q.1, hfirst, hfold.trans (h.simpleFold_pair hq).symm⟩
    · exact ⟨q.2, hlast, hfold.trans (h.simpleFold_target hq).symm⟩
  · rintro ⟨member, hmember, heq⟩
    rcases simpleFold_cases pairs member with hsame | hpair
    · rw [hsame] at heq
      rcases simpleFold_cases pairs code with hcode | hcode
      · rw [hcode] at heq
        exact .inl (heq ▸ hmember)
      · -- `code` folds to `member`
        exact .inr ⟨_, hcode, .inr (heq ▸ hmember), .inr ⟨_, hcode, rfl, rfl⟩⟩
    · refine .inr ⟨_, hpair, .inl hmember, ?_⟩
      rcases simpleFold_cases pairs code with hcode | hcode
      · exact .inl (hcode.symm.trans heq)
      · exact .inr ⟨_, hcode, heq, rfl⟩

theorem ascii : SimpleFolding asciiPairs where
  bounded := by decide
  unique := by decide
  folded := by decide

end SimpleFolding

/-- `normalize` merges ranges without a change to their set, and on merged ranges `complement` is the
complement, `fold` the closure under simple case folding and `in_class` membership. -/
theorem class_algebra (ranges : Ranges) (hranges : Scoped ranges) :
    (Normal (normalize ranges) ∧ ∀ code, Covers (normalize ranges) code ↔ Covers ranges code) ∧ ∀ set, Normal set →
        (Normal (complement set) ∧ ∀ code, Covers (complement set) code ↔ code ≤ lastScalar ∧ ¬Covers set code) ∧
        (∀ pairs, SimpleFolding pairs → Normal (fold set pairs) ∧ ∀ code, Covers (fold set pairs) code ↔
          ∃ member, Covers set member ∧ simpleFold pairs code = simpleFold pairs member) ∧
        ∀ (arrays : ClassArrays) (id start code : Nat), arrays.Stores id start set →
          ∃ found, arrays.inClass id code = .ok found ∧ (found = true ↔ Covers set code) :=
  ⟨normalize_spec hranges, fun _ hset =>
    ⟨complement_spec hset, fun _ hpairs => hpairs.fold_closure hset, fun _ _ _ code hstores =>
      ⟨_, hstores.inClass_eq code, holdsScalar_iff hset code⟩⟩⟩

theorem class_algebra_letters : Covers (fold (normalize [(70, 72), (65, 69)]) asciiPairs) 104 := by
  have hscoped : Scoped [(70, 72), (65, 69)] := by
    intro r hr
    simp only [mem_cons, not_mem_nil, or_false] at hr
    rcases hr with rfl | rfl <;> decide
  obtain ⟨⟨hnormal, hcovers⟩, hset⟩ := class_algebra _ hscoped
  refine (((hset _ hnormal).2.1 _ SimpleFolding.ascii).2 104).mpr ⟨72, (hcovers 72).mpr ?_, by decide⟩
  exact ⟨(70, 72), mem_cons_self, by decide, by decide⟩

def ClassArrays.addAll (arrays : ClassArrays) : List Ranges → Option ClassArrays
  | [] => some arrays
  | first :: rest => (arrays.addClass first).bind fun added => added.1.addAll rest

theorem ClassArrays.Holds.addAll (added : List Ranges) (h : arrays.Holds sets)
    (hsize : (sets.map length).sum ≤ maxRanges) :
    (arrays.addAll added = none ∧ maxRanges < ((sets ++ added).map length).sum) ∨
      ∃ arrays', arrays.addAll added = some arrays' ∧ arrays'.Holds (sets ++ added) ∧
        ((sets ++ added).map length).sum ≤ maxRanges := by
  induction added generalizing arrays sets with
  | nil => exact .inr ⟨arrays, by simpa [ClassArrays.addAll] using ⟨h, hsize⟩⟩
  | cons first rest ih =>
    have hadd := @ClassArrays.Holds.addClass arrays sets first h
    unfold Regex.addClass at hadd
    split_ifs at hadd with hlimit
    · rw [ClassArrays.addAll, hadd.1 rfl]
      simp only [map_append, sum_append, map_cons, sum_cons, Option.bind_none]
      exact .inl ⟨trivial, by omega⟩
    · obtain ⟨arrays', harrays, hholds⟩ := hadd.2 _ rfl
      rw [ClassArrays.addAll, harrays]
      simpa using ih hholds (by simpa using hlimit)

/-- Classes are refused exactly where all their ranges pass the limit. Otherwise `in_class` searches the arrays of the
class of each number, in the order in which they were added, without a read out of bounds. -/
theorem class_arrays (added : List Ranges) :
    (ClassArrays.addAll ⟨[], []⟩ added = none ↔ maxRanges < (added.map length).sum) ∧
    ∀ arrays, ClassArrays.addAll ⟨[], []⟩ added = some arrays → ∀ id ranges code, added[id]? = some ranges →
      Normal ranges → ∃ found, arrays.inClass id code = .ok found ∧ (found = true ↔ Covers ranges code) := by
  rcases ClassArrays.Holds.empty.addAll added (Nat.zero_le _) with ⟨harrays, hlimit⟩ | ⟨arrays, harrays, hholds, hlimit⟩
  · rw [harrays]
    exact ⟨⟨fun _ => hlimit, fun _ => rfl⟩, fun _ h => by cases h⟩
  · rw [harrays]
    refine ⟨⟨(by cases ·), fun h => absurd hlimit (Nat.not_le.mpr h)⟩, ?_⟩
    rintro _ ⟨⟩ id ranges code hranges hnormal
    obtain ⟨start, hstores⟩ := hholds.stores id ranges hranges
    exact ⟨_, hstores.inClass_eq code, holdsScalar_iff hnormal code⟩

end Tsuzuri.Regex
