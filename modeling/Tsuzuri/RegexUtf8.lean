import Tsuzuri.RegexEncoding

/-!
# Well-formed texts

The inputs that encode a list of Unicode scalars consist of these scalars.
-/

namespace Tsuzuri.Regex

open List

open FaultVec (Exec)
open Json (Str)
open Unicode (Scalar encode8 encode16)

/-! ## UTF-16 -/

variable {text : List Nat} {byte c : Nat}

theorem scalars16_encode (h : ∀ c ∈ text, Scalar c) : scalars16 (text.flatMap encode16) = scalarsIn encode16 text := by
  have hsingle : ∀ (u : UInt16) (rest : Str), isHigh u.toNat = false →
      scalars16 (u :: rest) = (u.toNat, 1) :: scalars16 rest := by
    intro u rest hu
    cases rest with
    | nil => rfl
    | cons v rest => rw [scalars16, hu, Bool.false_and, if_neg (by simp)]
  induction text with
  | nil => rfl
  | cons c text ih =>
    have hc : Scalar c := h c mem_cons_self
    have hlt := hc.lt
    rw [flatMap_cons, scalarsIn, map_cons]
    change _ = (c, (encode16 c).length) :: scalarsIn encode16 text
    rw [← ih fun d hd => h d (mem_cons_of_mem c hd)]
    unfold encode16
    split
    · have hto : (UInt16.ofNat c).toNat = c := by
        rw [UInt16.toNat_ofNat']
        omega
      have hhigh : isHigh (UInt16.ofNat c).toNat = false := by
        rw [hto]
        unfold Scalar at hc
        simp only [isHigh, Bool.and_eq_false_iff, decide_eq_false_iff_not]
        omega
      rw [singleton_append, hsingle _ _ hhigh, hto]
      rfl
    · have hfirst : (UInt16.ofNat (0xD800 + (c - 0x10000) / 1024)).toNat = 0xD800 + (c - 0x10000) / 1024 := by
        rw [UInt16.toNat_ofNat']
        omega
      have hsecond : (UInt16.ofNat (0xDC00 + (c - 0x10000) % 1024)).toNat = 0xDC00 + (c - 0x10000) % 1024 := by
        rw [UInt16.toNat_ofNat']
        omega
      have hpair : (isHigh (0xD800 + (c - 0x10000) / 1024) && isLow (0xDC00 + (c - 0x10000) % 1024)) = true := by
        simp only [isHigh, isLow, Bool.and_eq_true, decide_eq_true_eq]
        omega
      have hvalue : (0xD800 + (c - 0x10000) / 1024 - 55296) * 1024 + (0xDC00 + (c - 0x10000) % 1024) -
          56320 + 65536 = c := by
        omega
      rw [cons_append, cons_append, nil_append, scalars16, hfirst, hsecond, if_pos hpair, hvalue]
      rfl

theorem decodes_encode16 (h : ∀ c ∈ text, Scalar c) :
    Decodes (.utf16 (text.flatMap encode16)) (scalarsIn encode16 text) := by
  rw [← scalars16_encode h]
  exact decodes16 _

theorem encode16_ne_nil (c : Nat) : encode16 c ≠ [] := by
  unfold encode16
  split <;> simp

/-! ## UTF-8 -/

theorem continuation_iff (h : byte < 256) : byte &&& 192 = 128 ↔ 128 ≤ byte ∧ byte < 192 := by
  revert byte
  decide +kernel

theorem continuation_byte (x : Nat) : (128 + x % 64) &&& 192 = 128 :=
  (continuation_iff (by omega)).mpr (by omega)

theorem lead_byte (h : byte < 128 ∨ 192 ≤ byte ∧ byte < 256) : ¬ byte &&& 192 = 128 := by
  rw [continuation_iff (by omega)]
  omega

theorem encode8_shape (h : Scalar c) : ∃ lead tail, encode8 c = lead :: tail ∧
    ¬ lead &&& 192 = 128 ∧ ∀ b ∈ tail, b &&& 192 = 128 := by
  have hlt := h.lt
  unfold encode8
  split
  · exact ⟨_, _, rfl, lead_byte (by omega), by simp⟩
  split
  · exact ⟨_, _, rfl, lead_byte (by omega), by simp [continuation_byte]⟩
  split
  · exact ⟨_, _, rfl, lead_byte (by omega), by simp [continuation_byte]⟩
  · exact ⟨_, _, rfl, lead_byte (by omega), by simp [continuation_byte]⟩

theorem isContinuation_append {front bytes : List Nat} (k : Nat) :
    Input.isContinuation (front ++ bytes) (front.length + k) = Input.isContinuation bytes k := by
  unfold Input.isContinuation
  rw [getElem?_append_right (by omega), Nat.add_sub_cancel_left]

theorem isContinuation_scalar (front : List Nat) (h : Scalar c) (rest : List Nat) :
    Input.isContinuation (front ++ (encode8 c ++ rest)) front.length = false := by
  obtain ⟨lead, tail, hshape, hlead, _⟩ := encode8_shape h
  have := @isContinuation_append front (encode8 c ++ rest) 0
  rw [Nat.add_zero] at this
  rw [this, hshape]
  simpa [Input.isContinuation] using hlead

theorem scalarStart_scalar (front : List Nat) (h : Scalar c) (rest : List Nat) : ∀ k : Nat, k < (encode8 c).length →
      Input.scalarStart (front ++ (encode8 c ++ rest)) (front.length + k) = front.length := by
  intro k
  induction k with
  | zero =>
    intro _
    have hlead := isContinuation_scalar front h rest
    cases hlength : front.length with
    | zero => rfl
    | succ n =>
      rw [hlength] at hlead
      rw [Nat.add_zero, Input.scalarStart, hlead, if_neg (by simp)]
  | succ k ih =>
    intro hk
    obtain ⟨lead, tail, hshape, _, htail⟩ := encode8_shape h
    have hcontinuation : Input.isContinuation (front ++ (encode8 c ++ rest)) (front.length + k + 1) = true := by
      rw [Nat.add_assoc, isContinuation_append]
      rw [hshape, length_cons] at hk
      have hget : (encode8 c ++ rest)[k + 1]? = some tail[k] := by
        rw [hshape, cons_append, getElem?_cons_succ, getElem?_append_left (by omega), getElem?_eq_getElem]
      rw [Input.isContinuation, hget]
      simpa using htail tail[k] (getElem_mem _)
    rw [← Nat.add_assoc, Input.scalarStart, hcontinuation, if_pos rfl, ih (by omega)]

theorem scalar8_scalar (front : List Nat) (h : Scalar c) (rest : List Nat) :
    Input.scalar8 (front ++ (encode8 c ++ rest)) front.length = .ok (some (c, (encode8 c).length)) := by
  have hpos : 0 < (encode8 c).length := length_pos_iff.mpr (Unicode.encode8_ne_nil c)
  unfold Input.scalar8
  rw [if_neg (by simp only [length_append]; omega), isContinuation_scalar front h rest,
    if_neg (by simp), drop_left, Unicode.firstScalar_encode8 h]

theorem before8_scalar (front : List Nat) (h : Scalar c) (rest : List Nat) :
    Input.before8 (front ++ (encode8 c ++ rest)) (front.length + (encode8 c).length) = .ok (some c) := by
  have hpos : 0 < (encode8 c).length := length_pos_iff.mpr (Unicode.encode8_ne_nil c)
  unfold Input.before8
  rw [if_neg (by simp only [length_append]; omega),
    show front.length + (encode8 c).length - 1 = front.length + ((encode8 c).length - 1) by omega,
    scalarStart_scalar front h rest _ (by omega), scalar8_scalar front h rest]
  rfl

theorem reads8 : ∀ (text front : List Nat), (∀ c ∈ text, Scalar c) →
    Reads (.utf8 (front ++ text.flatMap encode8)) (scalarsIn encode8 text) front.length := by
  intro text
  induction text with
  | nil =>
    intro front _
    simp [scalarsIn, Reads, Input.scalar, Input.scalar8]
  | cons c text ih =>
    intro front h
    have hc : Scalar c := h c mem_cons_self
    have hrest := ih (front ++ encode8 c) fun d hd => h d (mem_cons_of_mem c hd)
    rw [append_assoc, length_append] at hrest
    refine ⟨?_, length_pos_iff.mpr (Unicode.encode8_ne_nil c), ?_⟩
    · rw [flatMap_cons]
      exact scalar8_scalar front hc _
    · rw [flatMap_cons]
      exact hrest

theorem decodes_encode8 (h : ∀ c ∈ text, Scalar c) :
    Decodes (.utf8 (text.flatMap encode8)) (scalarsIn encode8 text) := by
  have hsplit : ∀ front back, scalarsIn encode8 text = front ++ back → ∃ first second,
      text = first ++ second ∧ front = scalarsIn encode8 first ∧ back = scalarsIn encode8 second := by
    intro front back heq
    obtain ⟨first, second, htext, hfirst, hsecond⟩ := map_eq_append_iff.mp heq
    exact ⟨first, second, htext, hfirst.symm, hsecond.symm⟩
  refine ⟨fun front back heq => ?_, fun front back heq => ?_, (width_scalarsIn text).symm, ?_⟩
  · obtain ⟨first, second, rfl, rfl, rfl⟩ := hsplit front back heq
    rw [flatMap_append, width_scalarsIn]
    exact reads8 second _ fun c hc => h c (mem_append_right first hc)
  · obtain ⟨first, second, rfl, rfl, rfl⟩ := hsplit front back heq
    rw [lastCode_scalarsIn, width_scalarsIn]
    rcases eq_nil_or_concat first with rfl | ⟨init, c, rfl⟩
    · rfl
    · rw [concat_eq_append, flatMap_append, flatMap_append, length_append,
        flatMap_singleton, append_assoc, getLast?_concat]
      exact before8_scalar _ (h c (by simp)) _
  · intro e he
    obtain ⟨c, _, rfl⟩ := mem_map.mp he
    exact length_pos_iff.mpr (Unicode.encode8_ne_nil c)

end Tsuzuri.Regex
