import Tsuzuri.FaultVec

/-!
# Moving elements of a vector (`std/Map.tz`, `std/Set.tz`)

The private helpers that `Map` and `Set` share. Each has one lemma that says which list it makes.
-/

namespace Tsuzuri.ChunkVec

open FaultVec List

variable {α : Type}

def take (items : List α) (index : Int) : Exec (List α × α) := do
  let last : Int := items.length - 1
  let swapped ← swap index last items
  match pop swapped with
  | (rest, some item) => .ok (rest, item)
  | (_, none) => .error .unreachable

/-- `take` undone, with another element. -/
def put (items : List α) (index : Int) (item : α) : Exec (List α) :=
  let pushed := items ++ [item]
  let last : Int := pushed.length - 1
  swap index last pushed

def insertStep (index : Int) : List α × Int → Exec (Turn (List α × Int) (List α))
  | (result, position) =>
    if index < position then do
      let result ← swap position (position - 1) result
      .ok (.go (result, position - 1))
    else .ok (.leave result)

def insertAt (items : List α) (index : Int) (item : α) : Exec (List α) :=
  let pushed := items ++ [item]
  loop (pushed.length + 1) (insertStep index) (pushed, (pushed.length : Int) - 1)

def removeStep (last : Int) : List α × Int → Exec (Turn (List α × Int) (List α))
  | (result, position) =>
    if position < last then do
      let result ← swap position (position + 1) result
      .ok (.go (result, position + 1))
    else .ok (.leave result)

def removeAt (items : List α) (index : Int) : Exec (List α × α) := do
  let last : Int := items.length - 1
  let result ← loop (items.length + 1) (removeStep last) (items, index)
  match pop result with
  | (rest, some item) => .ok (rest, item)
  | (_, none) => .error .unreachable

def reverseStep (count : Int) : List α × Int → Exec (Turn (List α × Int) (List α))
  | (result, index) =>
    if index < count / 2 then do
      let result ← swap index (count - 1 - index) result
      .ok (.go (result, index + 1))
    else .ok (.leave result)

def reverse (items : List α) : Exec (List α) :=
  loop (items.length + 1) (reverseStep items.length) (items, 0)

def splitStep (at' : Int) : List α × List α → Exec (Turn (List α × List α) (List α × List α))
  | (head, tail) =>
    if at' < head.length then
      match pop head with
      | (rest, some item) => .ok (.go (rest, tail ++ [item]))
      | (rest, none) => .ok (.go (rest, tail))
    else .ok (.leave (head, tail))

def splitOff (items : List α) (at' : Int) : Exec (List α × List α) := do
  let tail ← withCapacity (items.length - at')
  let (head, tail) ← loop (items.length + 1) (splitStep at') (items, tail)
  let tail ← reverse tail
  .ok (head, tail)

def joinStep : List α × List α → Exec (Turn (List α × List α) (List α))
  | (result, rest) =>
    if 0 < rest.length then
      match pop rest with
      | (remaining, some item) => .ok (.go (result ++ [item], remaining))
      | (remaining, none) => .ok (.go (result, remaining))
    else .ok (.leave result)

def join (head tail : List α) : Exec (List α) := do
  let rest ← reverse tail
  loop (tail.length + 1) joinStep (head, rest)

/-! ## What they make -/

theorem take_ok {items : List α} {i : Nat} {item : α} (h : items[i]? = some item) :
    take items i = .ok (swapRemove items i, item) := by
  have hi : i < items.length := (List.getElem?_eq_some_iff.mp h).1
  have hlast : (items.length : Int) - 1 = ((items.length - 1 : Nat) : Int) := by omega
  unfold take
  simp only [hlast]
  rw [swap_ok hi (by omega), ok_bind, pop_exchange h]

theorem put_ok {items : List α} {i : Nat} (hi : i < items.length) (item : α) :
    put (swapRemove items i) i item = .ok (items.set i item) := by
  have hlen : (swapRemove items i ++ [item]).length = items.length := by
    rw [length_append, length_swapRemove, length_singleton]
    omega
  have hlast : (items.length : Int) - 1 = ((items.length - 1 : Nat) : Int) := by omega
  unfold put
  simp only
  rw [hlen, hlast, swap_ok (by omega) (by omega), exchange_swapRemove hi]

theorem insertAt_ok (xs ys : List α) (item : α) : insertAt (xs ++ ys) xs.length item = .ok (xs ++ item :: ys) := by
  -- the pushed element sinks through the second part
  have hloop : ∀ (n : Nat) (zs ws : List α) (fuel : Nat), zs.length = n → n < fuel →
      loop fuel (insertStep xs.length) (xs ++ zs ++ item :: ws, ((xs ++ zs).length : Int))
        = .ok (xs ++ item :: (zs ++ ws)) := by
    intro n
    induction n with
    | zero =>
      intro zs ws fuel hn hf
      obtain ⟨fuel, rfl⟩ : ∃ f, fuel = f + 1 := ⟨fuel - 1, by omega⟩
      obtain rfl : zs = [] := length_eq_zero_iff.mp hn
      simp [loop, insertStep]
    | succ n ih =>
      intro zs ws fuel hn hf
      obtain ⟨fuel, rfl⟩ : ∃ f, fuel = f + 1 := ⟨fuel - 1, by omega⟩
      have hne : zs ≠ [] := by
        rintro rfl
        cases hn
      obtain ⟨zs, z, rfl⟩ : ∃ zs' z, zs = zs' ++ [z] :=
        ⟨zs.dropLast, zs.getLast hne, (dropLast_append_getLast hne).symm⟩
      rw [length_append, length_singleton] at hn
      have hpos : ((xs ++ (zs ++ [z])).length : Int) = (((xs ++ zs).length + 1 : Nat) : Int) := by
        simp
        omega
      have hprev : (((xs ++ zs).length + 1 : Nat) : Int) - 1 = ((xs ++ zs).length : Int) := by omega
      have hlist : xs ++ (zs ++ [z]) ++ item :: ws = xs ++ zs ++ z :: item :: ws := by simp
      rw [loop, insertStep, hpos, if_pos (by simp +arith), hprev, hlist,
        swap_ok (by simp; omega) (by simp), exchange_adjacent', ok_bind, ok_bind]
      simp only
      rw [ih zs (z :: ws) fuel (by omega) (by omega)]
      simp
  unfold insertAt
  have hstart : (((xs ++ ys ++ [item]).length : Nat) : Int) - 1 = ((xs ++ ys).length : Int) := by
    simp
    omega
  simp only
  rw [hstart, hloop ys.length ys [] _ rfl (by simp; omega), append_nil]

theorem removeAt_ok (xs ys : List α) (item : α) : removeAt (xs ++ item :: ys) xs.length = .ok (xs ++ ys, item) := by
  -- the removed element rises through the second part
  have hloop : ∀ (ws zs : List α) (fuel : Nat), ws.length < fuel →
      loop fuel (removeStep (((zs ++ item :: ws).length : Int) - 1)) (zs ++ item :: ws, (zs.length : Int))
        = .ok (zs ++ ws ++ [item]) := by
    intro ws
    induction ws with
    | nil =>
      intro zs fuel hf
      obtain ⟨fuel, rfl⟩ : ∃ f, fuel = f + 1 := ⟨fuel - 1, by omega⟩
      simp [loop, removeStep]
    | cons w ws ih =>
      intro zs fuel hf
      obtain ⟨fuel, rfl⟩ : ∃ f, fuel = f + 1 := ⟨fuel - 1, by omega⟩
      have hnext : (zs.length : Int) + 1 = ((zs.length + 1 : Nat) : Int) := by omega
      have hlen : (zs ++ item :: w :: ws).length = (zs ++ [w] ++ item :: ws).length := by simp
      rw [loop, removeStep, if_pos (by simp; omega), hnext, swap_ok (by simp) (by simp),
        exchange_adjacent, ok_bind, ok_bind]
      simp only
      have := ih (zs ++ [w]) fuel (by simpa using hf)
      rw [← hlen] at this
      simpa using this
  unfold removeAt
  simp only
  rw [hloop ys xs _ (by simp; omega), ok_bind]
  simp [pop]

theorem reverse_ok (items : List α) : reverse items = .ok items.reverse := by
  -- after some swaps the outer elements are exchanged and the inner ones are as they were
  have hloop := @loop_ok _ _ (reverseStep items.length)
    (fun s => ∃ k : Nat, s.2 = k ∧ k ≤ items.length / 2 ∧ s.1.length = items.length ∧
      ∀ j : Nat, j < items.length → s.1[j]? =
        if j < k ∨ items.length - k ≤ j then items[items.length - 1 - j]? else items[j]?)
    (fun result => result = items.reverse) (fun s => (items.length / 2 - s.2).toNat) ?_
    (items.length + 1) (items, 0) ⟨0, rfl, by omega, rfl, fun j hj => ?_⟩ ?_
  · obtain ⟨result, hrun, hpost⟩ := hloop
    rw [reverse, hrun, hpost]
  · rintro ⟨result, index⟩ ⟨k, rfl, hk, hlen, hget⟩
    simp only at hlen hget
    by_cases hlt : k < items.length / 2
    · have hcast : (items.length : Int) - 1 - k = ((items.length - 1 - k : Nat) : Int) := by omega
      left
      refine ⟨(exchange result k (items.length - 1 - k), ((k + 1 : Nat) : Int)), ?_,
        ⟨k + 1, rfl, by omega, by simpa using hlen, fun j hj => ?_⟩, by simp only; omega⟩
      · rw [reverseStep, if_pos (by omega), hcast, swap_ok (by omega) (by omega), ok_bind]
        rfl
      · simp only
        rw [exchange_getElem? (by omega) (by omega)]
        by_cases h1 : j = items.length - 1 - k
        · rw [if_pos h1, hget k (by omega), if_neg (by omega), if_pos (by omega), h1]
          congr 1
          omega
        · rw [if_neg h1]
          by_cases h2 : j = k
          · rw [if_pos h2, hget _ (by omega), if_neg (by omega), if_pos (by omega), h2]
          · rw [if_neg h2, hget j hj]
            by_cases h3 : j < k ∨ items.length - k ≤ j
            · rw [if_pos h3, if_pos (by omega)]
            · rw [if_neg h3, if_neg (by omega)]
    · right
      refine ⟨result, by rw [reverseStep, if_neg (by omega)], ?_⟩
      apply ext_getElem?
      intro j
      by_cases hj : j < items.length
      · rw [hget j hj, getElem?_reverse hj]
        split
        · rfl
        · congr 1
          omega
      · rw [getElem?_eq_none (by omega), getElem?_eq_none (by simp; omega)]
  · simp only
    rw [if_neg (by omega)]
  · simp only
    omega

theorem splitOff_ok (xs ys : List α) : splitOff (xs ++ ys) xs.length = .ok (xs, ys) := by
  have hloop : ∀ (n : Nat) (zs tail : List α) (fuel : Nat), zs.length = n → n < fuel →
      loop fuel (splitStep xs.length) (xs ++ zs, tail) = .ok (xs, tail ++ zs.reverse) := by
    intro n
    induction n with
    | zero =>
      intro zs tail fuel hn hf
      obtain ⟨fuel, rfl⟩ : ∃ f, fuel = f + 1 := ⟨fuel - 1, by omega⟩
      obtain rfl : zs = [] := length_eq_zero_iff.mp hn
      simp [loop, splitStep]
    | succ n ih =>
      intro zs tail fuel hn hf
      obtain ⟨fuel, rfl⟩ : ∃ f, fuel = f + 1 := ⟨fuel - 1, by omega⟩
      have hne : zs ≠ [] := by
        rintro rfl
        cases hn
      obtain ⟨zs, z, rfl⟩ : ∃ zs' z, zs = zs' ++ [z] :=
        ⟨zs.dropLast, zs.getLast hne, (dropLast_append_getLast hne).symm⟩
      rw [length_append, length_singleton] at hn
      have hpop : pop (xs ++ (zs ++ [z])) = (xs ++ zs, some z) := by
        rw [← append_assoc]
        simp [pop]
      rw [loop, splitStep, if_pos (by simp +arith), hpop]
      simp only [ok_bind]
      rw [ih zs (tail ++ [z]) fuel (by omega) (by omega)]
      simp
  unfold splitOff
  rw [withCapacity_ok (by simp +arith), ok_bind, hloop ys.length ys [] _ rfl (by simp +arith), ok_bind]
  simp only [nil_append]
  rw [reverse_ok, ok_bind, reverse_reverse]

theorem join_ok (xs ys : List α) : join xs ys = .ok (xs ++ ys) := by
  have hloop : ∀ (zs result : List α) (fuel : Nat), zs.length < fuel →
      loop fuel joinStep (result, zs.reverse) = .ok (result ++ zs) := by
    intro zs
    induction zs with
    | nil =>
      intro result fuel hf
      obtain ⟨fuel, rfl⟩ : ∃ f, fuel = f + 1 := ⟨fuel - 1, by omega⟩
      simp [loop, joinStep]
    | cons z zs ih =>
      intro result fuel hf
      obtain ⟨fuel, rfl⟩ : ∃ f, fuel = f + 1 := ⟨fuel - 1, by omega⟩
      have hpop : pop (z :: zs).reverse = (zs.reverse, some z) := by simp [pop]
      rw [loop, joinStep, if_pos (by simp), hpop]
      simp only [ok_bind]
      rw [ih (result ++ [z]) fuel (by simpa using hf)]
      simp
  unfold join
  rw [reverse_ok, ok_bind, hloop ys xs _ (by omega)]

end Tsuzuri.ChunkVec
