import Mathlib.Data.List.Basic
import Mathlib.Data.List.Nodup
import Mathlib.Data.List.Infix

/-!
# Vectors and loops that can fault

A vector is a list that is indexed by signed integers. A `while` loop is `loop fuel step`, and `loop_ok` is its rule.
-/

namespace FaultVec

open List

inductive Fault where
  | assertion
  | bounds
  | overflow
  | unreachable
  | missing
  | allocation
  | diverged
deriving DecidableEq

abbrev Exec (α : Type) := Except Fault α

theorem bind_ok {α β : Type} {x : Exec α} {f : α → Exec β} {b : β} :
    (x >>= f) = .ok b ↔ ∃ a, x = .ok a ∧ f a = .ok b := by
  cases x with
  | ok a | error e => simp [bind, Except.bind]

variable {e : Fault} {xs : List α} {x : α} {i j : Nat}

theorem bind_error {α β : Type} {x : Exec α} {f : α → Exec β} :
    (x >>= f) = .error e ↔ x = .error e ∨ ∃ a, x = .ok a ∧ f a = .error e := by
  cases x with
  | ok a | error e' => simp [bind, Except.bind]

@[simp] theorem ok_bind {α β : Type} (a : α) (f : α → Exec β) : (.ok a >>= f) = f a := rfl

@[simp] theorem error_bind {α β : Type} (e : Fault) (f : α → Exec β) : ((.error e : Exec α) >>= f) = .error e := rfl

@[simp] theorem pure_ok {α : Type} (a : α) : (pure a : Exec α) = .ok a := rfl

def i64Max : Int := 9223372036854775807

def i64Min : Int := -9223372036854775808

def checked (n : Int) : Exec Int :=
  if i64Min ≤ n ∧ n ≤ i64Max then .ok n else .error .overflow

theorem checked_ok {n : Int} (hlo : i64Min ≤ n) (hhi : n ≤ i64Max) : checked n = .ok n :=
  if_pos ⟨hlo, hhi⟩

def assert (condition : Bool) : Exec Unit :=
  if condition then .ok () else .error .assertion

@[simp] theorem assert_true : assert true = .ok () := rfl

@[simp] theorem assert_false : assert false = .error .assertion := rfl

def force {α : Type} : Option α → Exec α
  | some a => .ok a
  | none => .error .missing

@[simp] theorem force_some {α : Type} (a : α) : force (some a) = .ok a := rfl

/-! ## Vectors -/

variable {α : Type}

def get (i : Int) (xs : List α) : Option α :=
  if 0 ≤ i then xs[i.toNat]? else none

@[simp] theorem get_natCast (i : Nat) (xs : List α) : get (i : Int) xs = xs[i]? := by
  simp [get]

theorem get_eq_some {i : Int} : get i xs = some x ↔ ∃ n : Nat, i = n ∧ xs[n]? = some x := by
  unfold get
  split
  · rename_i h
    constructor
    · intro hx
      exact ⟨i.toNat, by omega, hx⟩
    · rintro ⟨n, rfl, hx⟩
      simpa using hx
  · rename_i h
    constructor
    · intro hx
      cases hx
    · rintro ⟨n, rfl, _⟩
      omega

def index (xs : List α) (i : Int) : Exec α :=
  match get i xs with
  | some x => .ok x
  | none => .error .bounds

theorem index_ok {i : Int} (h : get i xs = some x) : index xs i = .ok x := by
  simp [index, h]

def set (i : Int) (x : α) (xs : List α) : Exec (List α) :=
  if 0 ≤ i ∧ i < xs.length then .ok (xs.set i.toNat x) else .error .bounds

theorem set_ok {xs : List α} {i : Nat} (h : i < xs.length) (x : α) : set (i : Int) x xs = .ok (xs.set i x) := by
  unfold set
  rw [if_pos ⟨by omega, by omega⟩]
  simp

def exchange (xs : List α) (i j : Nat) : List α :=
  match xs[i]?, xs[j]? with
  | some x, some y => (xs.set i y).set j x
  | _, _ => xs

def swap (i j : Int) (xs : List α) : Exec (List α) :=
  if (0 ≤ i ∧ i < xs.length) ∧ 0 ≤ j ∧ j < xs.length then .ok (exchange xs i.toNat j.toNat)
  else .error .bounds

theorem swap_ok (hi : i < xs.length) (hj : j < xs.length) : swap (i : Int) (j : Int) xs = .ok (exchange xs i j) := by
  unfold swap
  rw [if_pos ⟨⟨by omega, by omega⟩, by omega, by omega⟩]
  simp

def push (x : α) (xs : List α) : Exec (List α) :=
  if (xs.length : Int) < i64Max then .ok (xs ++ [x]) else .error .allocation

theorem push_ok {x : α} {xs ys : List α} : push x xs = .ok ys ↔ (xs.length : Int) < i64Max ∧ ys = xs ++ [x] := by
  unfold push
  split
  · rename_i h
    simp [h, eq_comm]
  · rename_i h
    simp [h]

theorem push_error : push x xs = .error e ↔ i64Max ≤ xs.length ∧ e = .allocation := by
  unfold push
  split
  · rename_i h
    simp [Int.not_le.mpr h]
  · rename_i h
    simp [Int.not_lt.mp h, eq_comm]

def pop (xs : List α) : List α × Option α :=
  (xs.dropLast, xs.getLast?)

def withCapacity (count : Int) : Exec (List α) :=
  if 0 ≤ count then .ok [] else .error .allocation

theorem withCapacity_ok {count : Int} (h : 0 ≤ count) : (withCapacity count : Exec (List α)) = .ok [] :=
  if_pos h

/-! ## Exchanging elements -/

theorem exchange_adjacent (xs ys : List α) (a b : α) :
    exchange (xs ++ a :: b :: ys) xs.length (xs.length + 1) = xs ++ b :: a :: ys := by
  simp [exchange]

theorem exchange_adjacent' (xs ys : List α) (a b : α) :
    exchange (xs ++ a :: b :: ys) (xs.length + 1) xs.length = xs ++ b :: a :: ys := by
  simp [exchange]

@[simp] theorem length_exchange (xs : List α) (i j : Nat) : (exchange xs i j).length = xs.length := by
  unfold exchange
  split <;> simp

theorem exchange_getElem? (hi : i < xs.length) (hj : j < xs.length) (k : Nat) : (exchange xs i j)[k]? =
      if k = j then xs[i]? else if k = i then xs[j]? else xs[k]? := by
  unfold exchange
  rw [getElem?_eq_getElem hi, getElem?_eq_getElem hj]
  simp only [getElem?_set, length_set]
  by_cases h1 : k = j
  · subst h1
    simp [hj]
  · by_cases h2 : k = i
    · subst h2
      simp [Ne.symm h1, hi, h1]
    · simp [Ne.symm h1, Ne.symm h2, h1, h2]

def swapRemove (xs : List α) (i : Nat) : List α :=
  (exchange xs i (xs.length - 1)).dropLast

@[simp] theorem length_swapRemove (xs : List α) (i : Nat) : (swapRemove xs i).length = xs.length - 1 := by
  simp [swapRemove]

theorem swapRemove_getElem? (hi : i < xs.length) (k : Nat) : (swapRemove xs i)[k]? =
      if k < xs.length - 1 then (if k = i then xs[xs.length - 1]? else xs[k]?) else none := by
  unfold swapRemove
  rw [getElem?_dropLast, length_exchange]
  split
  · rename_i h
    rw [exchange_getElem? hi (by omega)]
    rw [if_neg (by omega)]
  · rfl

theorem pop_exchange (hx : xs[i]? = some x) : pop (exchange xs i (xs.length - 1)) = (swapRemove xs i, some x) := by
  have hi : i < xs.length := (List.getElem?_eq_some_iff.mp hx).1
  unfold pop
  rw [getLast?_eq_getElem?, length_exchange, exchange_getElem? hi (by omega), if_pos rfl, hx]
  rfl

theorem exchange_swapRemove {xs : List α} {i : Nat} (hi : i < xs.length) (y : α) :
    exchange (swapRemove xs i ++ [y]) i (xs.length - 1) = xs.set i y := by
  have hlen : (swapRemove xs i ++ [y]).length = xs.length := by
    rw [length_append, length_swapRemove, length_singleton]
    omega
  have hlast : (swapRemove xs i ++ [y])[xs.length - 1]? = some y := by
    rw [getElem?_append_right (by simp)]
    simp
  apply ext_getElem?
  intro k
  rw [exchange_getElem? (by omega) (by omega), getElem?_set, hlast]
  by_cases hkl : k = xs.length - 1
  · rw [if_pos hkl]
    by_cases hil : i = xs.length - 1
    · rw [← hil] at hlast
      rw [hlast, if_pos (by omega), if_pos hi]
    · rw [getElem?_append_left (by simp; omega), swapRemove_getElem? hi,
        if_pos (by omega), if_pos rfl, if_neg (by omega), hkl]
  · rw [if_neg hkl]
    by_cases hki : k = i
    · rw [if_pos hki, if_pos hki.symm, if_pos hi]
    · rw [if_neg hki, if_neg (Ne.symm hki)]
      by_cases hk : k < xs.length - 1
      · rw [getElem?_append_left (by simpa using hk), swapRemove_getElem? hi, if_pos hk, if_neg hki]
      · rw [getElem?_eq_none (by omega), getElem?_eq_none (by omega)]

/-- What a turn of a loop does: go on with a new state, or leave with a result. -/
inductive Turn (σ β : Type) where
  | go (state : σ)
  | leave (result : β)

variable {σ β : Type}

def loop : Nat → (σ → Exec (Turn σ β)) → σ → Exec β
  | 0, _, _ => .error .diverged
  | fuel + 1, step, s => do
    match ← step s with
    | .go s' => loop fuel step s'
    | .leave b => .ok b

theorem loop_ok {step : σ → Exec (Turn σ β)} (Inv : σ → Prop) (Post : β → Prop) (size : σ → Nat)
    (hstep : ∀ s, Inv s → (∃ s', step s = .ok (.go s') ∧ Inv s' ∧ size s' < size s) ∨
      (∃ b, step s = .ok (.leave b) ∧ Post b)) :
    ∀ (fuel : Nat) (s : σ), Inv s → size s < fuel → ∃ b, loop fuel step s = .ok b ∧ Post b
  | 0, _, _, h => absurd h (Nat.not_lt_zero _)
  | fuel + 1, s, hinv, h => by
    rcases hstep s hinv with ⟨s', hs, hinv', hlt⟩ | ⟨b, hs, hpost⟩
    · obtain ⟨b, hb, hpost⟩ := loop_ok Inv Post size hstep fuel s' hinv' (by omega)
      refine ⟨b, ?_, hpost⟩
      rw [loop, hs]
      exact hb
    · refine ⟨b, ?_, hpost⟩
      rw [loop, hs]
      rfl

def bisectStep (test : Int → Exec Bool) : Int × Int → Exec (Turn (Int × Int) Int)
  | (low, high) =>
    if low < high then do
      let middle := low + (high - low) / 2
      let below ← test middle
      .ok (.go (if below then (middle + 1, high) else (low, middle)))
    else .ok (.leave low)

def bisect (fuel : Nat) (test : Int → Exec Bool) (low high : Int) : Exec Int :=
  loop fuel (bisectStep test) (low, high)

theorem bisect_ok {test : Int → Exec Bool} {p : Nat → Bool} {n fuel : Nat}
    (htest : ∀ i : Nat, i < n → test i = .ok (p i))
    (hmono : ∀ i j : Nat, i ≤ j → j < n → p j = true → p i = true) (hfuel : n < fuel) :
    ∃ m : Nat, bisect fuel test 0 n = .ok (m : Int) ∧ m ≤ n ∧
      (∀ i : Nat, i < m → p i = true) ∧ ∀ i : Nat, m ≤ i → i < n → p i = false := by
  have hloop := @loop_ok _ _ (bisectStep test) (fun s => ∃ lo hi : Nat, s.1 = lo ∧ s.2 = hi ∧ lo ≤ hi ∧ hi ≤ n ∧
      (∀ i : Nat, i < lo → p i = true) ∧ ∀ i : Nat, hi ≤ i → i < n → p i = false)
    (fun result => ∃ m : Nat, result = m ∧ m ≤ n ∧
      (∀ i : Nat, i < m → p i = true) ∧ ∀ i : Nat, m ≤ i → i < n → p i = false)
    (fun s => (s.2 - s.1).toNat) ?_ fuel (0, (n : Int))
    ⟨0, n, rfl, rfl, by omega, by omega, fun i hi => by omega, fun i h1 h2 => by omega⟩ ?_
  · obtain ⟨result, hrun, m, rfl, hpost⟩ := hloop
    exact ⟨m, hrun, hpost⟩
  · rintro ⟨low, high⟩ ⟨lo, hi, rfl, rfl, hle, hn, hlow, hhigh⟩
    by_cases hlt : lo < hi
    · left
      obtain ⟨mid, hmid⟩ : ∃ mid : Nat, (lo : Int) + ((hi : Int) - lo) / 2 = mid :=
        ⟨lo + (hi - lo) / 2, by omega⟩
      have hstep : bisectStep test ((lo : Int), (hi : Int))
          = .ok (.go (if p mid then ((mid : Int) + 1, (hi : Int)) else ((lo : Int), (mid : Int)))) := by
        rw [bisectStep, if_pos (by omega)]
        simp only [hmid]
        rw [htest mid (by omega)]
        rfl
      cases hp : p mid with
      | true =>
        rw [hp] at hstep
        refine ⟨_, hstep, ⟨mid + 1, hi, by simp, rfl, by omega, hn, fun i hi' => ?_, hhigh⟩, ?_⟩
        · exact hmono i mid (by omega) (by omega) hp
        · simp only [if_true]
          omega
      | false =>
        rw [hp] at hstep
        refine ⟨_, hstep, ⟨lo, mid, rfl, by simp, by omega, by omega, hlow, fun i h1 h2 => ?_⟩, ?_⟩
        · by_contra hne
          have := hmono mid i h1 h2 (by simpa using hne)
          rw [hp] at this
          cases this
        · simp only [Bool.false_eq_true, if_false]
          omega
    · right
      refine ⟨lo, by rw [bisectStep, if_neg (by omega)], lo, rfl, by omega, hlow, ?_⟩
      intro i h1 h2
      exact hhigh i (by omega) h2
  · simp only
    omega

end FaultVec
