import Tsuzuri.RegexSpan

/-!
# Offsets of an encoding

A text is a list of scalars, and an encoding gives the units of each.
-/

namespace Tsuzuri.Regex

open FaultVec (Exec)
open OrderedSearch List

section Encoding

variable {α : Type}

def offset (encode : Nat → List α) (text : List Nat) (i : Nat) : Nat :=
  ((text.take i).flatMap encode).length

def relocate (encode : Nat → List α) (text : List Nat) (x : Int) : Int :=
  if x < 0 then x else offset encode text x.toNat

def scalarsIn (encode : Nat → List α) (text : List Nat) : Scalars :=
  text.map fun c => (c, (encode c).length)

def plain (c : Nat) : List Nat := [c]

variable {encode : Nat → List α} {text : List Nat}

/-! ## Offsets -/

@[simp] theorem offset_zero : offset encode text 0 = 0 := by
  simp [offset]

theorem offset_length : offset encode text text.length = (text.flatMap encode).length := by
  rw [offset, take_length]

theorem offset_add (i k : Nat) :
    offset encode text (i + k) = offset encode text i + (((text.drop i).take k).flatMap encode).length := by
  rw [offset, offset, take_add, flatMap_append, length_append]

theorem offset_succ {i c : Nat} (h : text[i]? = some c) :
    offset encode text (i + 1) = offset encode text i + (encode c).length := by
  obtain ⟨hi, hc⟩ := List.getElem?_eq_some_iff.mp h
  rw [offset_add, drop_eq_getElem_cons hi, hc]
  simp

theorem offset_mono {i j : Nat} (h : i ≤ j) : offset encode text i ≤ offset encode text j := by
  obtain ⟨k, rfl⟩ := Nat.exists_eq_add_of_le h
  rw [offset_add]
  exact Nat.le_add_right _ _

theorem offset_lt (henc : ∀ c, encode c ≠ []) {i j : Nat} (h : i < j) (hj : j ≤ text.length) :
    offset encode text i < offset encode text j := by
  have hget : text[i]? = some text[i] := getElem?_eq_getElem (by omega)
  have hpos : 0 < (encode text[i]).length := length_pos_iff.mpr (henc _)
  have := @offset_succ _ encode _ _ _ hget
  have := @offset_mono _ encode text _ _ (Nat.succ_le_of_lt h)
  rw [Nat.succ_eq_add_one] at this
  omega

theorem offset_le (i : Nat) : offset encode text i ≤ (text.flatMap encode).length := by
  rcases Nat.le_total i text.length with h | h
  · rw [← offset_length]
    exact offset_mono h
  · rw [offset, take_of_length_le h]

theorem slice_encoded {i j : Nat} (h : i ≤ j) : ((text.flatMap encode).drop (offset encode text i)).take
        (offset encode text j - offset encode text i) = ((text.drop i).take (j - i)).flatMap encode := by
  obtain ⟨k, rfl⟩ := Nat.exists_eq_add_of_le h
  have hdrop : (text.flatMap encode).drop (offset encode text i) = (text.drop i).flatMap encode := by
    conv_lhs => rw [← take_append_drop i text, flatMap_append]
    exact drop_left' (by rw [offset, take_append_drop])
  rw [hdrop, offset_add, Nat.add_sub_cancel_left, Nat.add_sub_cancel_left]
  conv_lhs => rw [← take_append_drop k (text.drop i), flatMap_append]
  exact take_left' (by rw [take_append_drop])

theorem relocate_natCast (i : Nat) : relocate encode text i = offset encode text i := by
  rw [relocate, if_neg (by omega), Int.toNat_natCast]

theorem relocate_neg_one : relocate encode text (-1) = -1 := rfl

theorem relocate_neg_iff (x : Int) : relocate encode text x < 0 ↔ x < 0 := by
  unfold relocate
  split <;> omega

theorem relocate_mono {x y : Int} (h : x ≤ y) : relocate encode text x ≤ relocate encode text y := by
  unfold relocate
  split
  · split <;> omega
  · have := @offset_mono _ encode text _ _ (Int.toNat_le_toNat h)
    rw [if_neg (by omega)]
    omega

theorem relocate_lt (henc : ∀ c, encode c ≠ []) {x y : Int} (h : x < y) (hy : y ≤ text.length) :
    relocate encode text x < relocate encode text y := by
  unfold relocate
  split
  · split <;> omega
  · have := @offset_lt _ encode text henc x.toNat y.toNat (by omega) (by omega)
    rw [if_neg (by omega)]
    omega

theorem width_scalarsIn (text : List Nat) : width (scalarsIn encode text) = (text.flatMap encode).length := by
  induction text with
  | nil => rfl
  | cons c text ih =>
    rw [flatMap_cons, length_append, ← ih]
    exact width_cons _ _

theorem width_plain (text : List Nat) : width (scalarsIn plain text) = text.length := by
  rw [width_scalarsIn]
  simp [plain]

theorem codes_scalarsIn (text : List Nat) : (scalarsIn encode text).map Prod.fst = text := by
  simp [scalarsIn, Function.comp_def]

theorem lastCode_scalarsIn (text : List Nat) : lastCode (scalarsIn encode text) = text.getLast? := by
  rw [lastCode, ← getLast?_map, codes_scalarsIn]

theorem scalarsIn_split (i : Nat) :
    scalarsIn encode text = scalarsIn encode (text.take i) ++ scalarsIn encode (text.drop i) := by
  rw [scalarsIn, scalarsIn, scalarsIn, ← map_append, take_append_drop]

theorem width_take (i : Nat) : width (scalarsIn encode (text.take i)) = offset encode text i :=
  width_scalarsIn _

/-! ## Searching -/

theorem follow_encoded (re : Program) (rest : List Nat) (i : Nat) (prev : Option Nat) (pc : Nat) (s : Slots) :
    follow re (placeAt (scalarsIn encode rest) (offset encode text i) prev) pc (s.map (relocate encode text)) =
      (follow re (placeAt (scalarsIn plain rest) i prev) pc s).map fun e => (e.1, e.2.map (relocate encode text)) := by
  have hnext : (scalarsIn encode rest).head?.map Prod.fst = (scalarsIn plain rest).head?.map Prod.fst := by
    cases rest <;> rfl
  unfold follow placeAt
  simp only [hnext]
  split
  · rfl
  · rfl
  · rw [map_singleton, map_set]
    simp only [relocate_natCast]
  · split <;> rfl
  · rfl

theorem thread_encoded (re : Program) : ∀ (rest : List Nat) (i : Nat), text.drop i = rest → ∀ (pc : Nat) (s : Slots),
      thread re (scalarsIn encode rest) (offset encode text i) pc (s.map (relocate encode text)) =
        (thread re (scalarsIn plain rest) i pc s).map (List.map (relocate encode text)) := by
  intro rest
  induction rest with
  | nil =>
    intro i _ pc s
    change thread re [] _ pc _ = (thread re [] i pc s).map _
    rw [thread, thread]
    split <;> rfl
  | cons c rest ih =>
    intro i hrest pc s
    have hget : text[i]? = some c := by
      rw [← head?_drop, hrest, head?_cons]
    have hdrop : text.drop (i + 1) = rest := by
      rw [← drop_drop, hrest]
      rfl
    change thread re ((c, (encode c).length) :: scalarsIn encode rest) _ pc _ =
      (thread re ((c, 1) :: scalarsIn plain rest) i pc s).map _
    rw [thread, thread]
    split
    · rfl
    split
    · rw [← offset_succ hget]
      exact walk_map _ _ (fun v s => follow_encoded re rest (i + 1) (some c) v s)
        (fun v s => ih (i + 1) hdrop v s) _ _ _ _
    · rfl

theorem replicate_relocate (slots : Nat) :
    (List.replicate slots (-1)).map (relocate encode text) = List.replicate slots (-1) := by
  rw [map_replicate, relocate_neg_one]

theorem leftmost_encoded (re : Program) (slots : Nat) : ∀ (rest : List Nat) (i : Nat),
    text.drop i = rest → ∀ prev : Option Nat, leftmost re slots (scalarsIn encode rest) (offset encode text i) prev =
        (leftmost re slots (scalarsIn plain rest) i prev).map (List.map (relocate encode text)) := by
  have hbranches : ∀ (rest : List Nat) (i : Nat), text.drop i = rest → ∀ prev : Option Nat,
      branches re (scalarsIn encode rest) (offset encode text i) prev 0 (List.replicate slots (-1)) =
        (branches re (scalarsIn plain rest) i prev 0 (List.replicate slots (-1))).map
          (List.map (relocate encode text)) := by
    intro rest i hrest prev
    have := walk_map (List.map (relocate encode text)) (List.map (relocate encode text))
      (fun v s => follow_encoded re rest i prev v s) (fun v s => thread_encoded re rest i hrest v s)
      (re.code.length + 1)
      [] 0 (List.replicate slots (-1))
    rwa [replicate_relocate] at this
  intro rest
  induction rest with
  | nil => exact hbranches []
  | cons c rest ih =>
    intro i hrest prev
    have hget : text[i]? = some c := by
      rw [← head?_drop, hrest, head?_cons]
    have hdrop : text.drop (i + 1) = rest := by
      rw [← drop_drop, hrest]
      rfl
    change (branches re (scalarsIn encode (c :: rest)) _ prev 0 _).or
        (leftmost re slots (scalarsIn encode rest) (_ + (encode c).length) (some c)) =
      ((branches re (scalarsIn plain (c :: rest)) i prev 0 _).or
        (leftmost re slots (scalarsIn plain rest) (i + 1) (some c))).map _
    rw [Option.map_or, hbranches _ i hrest, ← offset_succ hget, ih (i + 1) hdrop]

end Encoding

end Tsuzuri.Regex
