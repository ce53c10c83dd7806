import Mathlib.Data.List.Basic

/-!
# Texts and their bytes

A text is a list of characters, read at byte offsets of its UTF-8 form.
-/

namespace Tsuzuri

open List

abbrev Text := List Char

namespace Text

def bytes (text : Text) : List UInt8 := text.flatMap String.utf8EncodeChar

def size (text : Text) : Nat := text.bytes.length

/-- What follows an offset; `none` inside a character and past the end. -/
def suffix? : Text → Nat → Option Text
  | text, 0 => some text
  | [], _ + 1 => none
  | c :: text, i + 1 => if i + 1 < c.utf8Size then none else suffix? text (i + 1 - c.utf8Size)

def slice? (text : Text) (i j : Nat) : Option Text :=
  match suffix? text i, suffix? text j with
  | some rest, some after => if i ≤ j then some (rest.take (rest.length - after.length)) else none
  | _, _ => none

/-- The offset after the bytes from `i` on that pass the test. -/
def skip (text : Text) (test : UInt8 → Bool) (i : Nat) : Nat :=
  i + ((text.bytes.drop i).takeWhile test).length

/-- Offset `i` is between two characters, before `rest`. -/
def At (text : Text) (i : Nat) (rest : Text) : Prop :=
  ∃ front, text = front ++ rest ∧ size front = i

def Boundary (text : Text) (i : Nat) : Prop := ∃ rest, At text i rest

variable {text rest : Text} {i j : Nat} {c : Char} {b : UInt8}

@[simp] theorem bytes_nil : bytes [] = [] := rfl

@[simp] theorem bytes_cons (c : Char) (text : Text) : bytes (c :: text) = String.utf8EncodeChar c ++ bytes text := rfl

@[simp] theorem bytes_append (text text' : Text) : bytes (text ++ text') = bytes text ++ bytes text' :=
  flatMap_append

@[simp] theorem size_nil : size [] = 0 := rfl

@[simp] theorem size_cons (c : Char) (text : Text) : size (c :: text) = c.utf8Size + size text := by
  simp [size]

@[simp] theorem size_append (text text' : Text) : size (text ++ text') = size text + size text' := by
  simp [size]

theorem encode_low (h : c.toNat < 128) : String.utf8EncodeChar c = [UInt8.ofNat c.toNat] := by
  rw [String.utf8EncodeChar]
  exact if_pos (Nat.le_of_lt_succ h)

theorem utf8Size_low (h : c.toNat < 128) : c.utf8Size = 1 := by
  rw [← String.length_utf8EncodeChar, encode_low h]
  rfl

theorem encode_high (h : 128 ≤ c.toNat) : ∀ b ∈ String.utf8EncodeChar c, 128 ≤ b.toNat := by
  have hbyte : ∀ n, 128 ≤ n % 256 → 128 ≤ (UInt8.ofNat n).toNat := fun n hn => by
    rwa [UInt8.toNat_ofNat']
  have hv : c.val.toNat = c.toNat := rfl
  intro b hb
  simp only [String.utf8EncodeChar] at hb
  rw [hv, if_neg (by omega)] at hb
  split at hb
  · simp only [mem_cons, not_mem_nil, or_false] at hb
    rcases hb with rfl | rfl <;> exact hbyte _ (by omega)
  split at hb
  · simp only [mem_cons, not_mem_nil, or_false] at hb
    rcases hb with rfl | rfl | rfl <;> exact hbyte _ (by omega)
  · simp only [mem_cons, not_mem_nil, or_false] at hb
    rcases hb with rfl | rfl | rfl | rfl <;> exact hbyte _ (by omega)

theorem encode_head (c : Char) : ∃ b tail, String.utf8EncodeChar c = b :: tail := by
  cases h : String.utf8EncodeChar c with
  | nil => exact absurd h String.utf8EncodeChar_ne_nil
  | cons b tail => exact ⟨b, tail, rfl⟩

/-! ## Offsets between characters -/

theorem at_zero (text : Text) : At text 0 text := ⟨[], rfl, rfl⟩

theorem at_size (text : Text) : At text text.size [] := ⟨text, (append_nil text).symm, rfl⟩

theorem At.boundary (h : At text i rest) : Boundary text i := ⟨rest, h⟩

variable {front : Text} {test : UInt8 → Bool}

theorem At.append (h : At text i (front ++ rest)) : At text (i + size front) rest := by
  obtain ⟨before, rfl, rfl⟩ := h
  exact ⟨before ++ front, (append_assoc ..).symm, size_append ..⟩

theorem At.next (h : At text i (c :: rest)) : At text (i + c.utf8Size) rest := by
  have h' : At text i ([c] ++ rest) := h
  simpa using h'.append

theorem At.low (h : At text i (c :: rest)) (hc : c.toNat < 128) : At text (i + 1) rest := by
  have hnext := h.next
  rwa [utf8Size_low hc] at hnext

theorem At.size_eq (h : At text i rest) : i + size rest = size text := by
  obtain ⟨front, rfl, rfl⟩ := h
  exact (size_append ..).symm

theorem At.le (h : At text i rest) : i ≤ size text := by
  have := h.size_eq
  omega

theorem At.drop (h : At text i rest) : text.bytes.drop i = rest.bytes := by
  obtain ⟨front, rfl, rfl⟩ := h
  rw [bytes_append, size, drop_left]

theorem At.getElem? (h : At text i rest) : text.bytes[i]? = rest.bytes.head? := by
  rw [← head?_drop, h.drop]

theorem suffix?_eq_some : suffix? text i = some rest ↔ At text i rest := by
  constructor
  · intro h
    induction text generalizing i with
    | nil =>
      cases i with
      | zero =>
        cases h
        exact at_zero []
      | succ i => cases h
    | cons c text ih =>
      cases i with
      | zero =>
        cases h
        exact at_zero _
      | succ i =>
        rw [suffix?] at h
        split at h
        · cases h
        · rename_i hle
          obtain ⟨front, rfl, hsize⟩ := ih h
          exact ⟨c :: front, rfl, by rw [size_cons, hsize]; omega⟩
  · rintro ⟨front, rfl, rfl⟩
    induction front with
    | nil => cases rest <;> rfl
    | cons c front ih =>
      have hpos := c.utf8Size_pos
      obtain ⟨n, hn⟩ : ∃ n, size (c :: front) = n + 1 := ⟨size (c :: front) - 1, by simp; omega⟩
      have hsub : n + 1 - c.utf8Size = size front := by
        rw [← hn, size_cons]
        omega
      rw [hn, cons_append, suffix?, if_neg (by rw [← hn, size_cons]; omega), hsub, ih]

theorem At.slice? (h : At text i (front ++ rest)) : text.slice? i (i + size front) = some front := by
  rw [Text.slice?, suffix?_eq_some.mpr h, suffix?_eq_some.mpr h.append]
  simp

theorem At.exists_between {rest' : Text} (h : At text i rest) (h' : At text j rest') (hij : i ≤ j) :
    ∃ front, rest = front ++ rest' ∧ size front = j - i := by
  obtain ⟨front, rfl, rfl⟩ := h
  obtain ⟨front', heq, rfl⟩ := h'
  rcases append_eq_append_iff.mp heq with ⟨mid, rfl, rfl⟩ | ⟨mid, rfl, rfl⟩
  · exact ⟨mid, rfl, by rw [size_append]; omega⟩
  · rw [size_append] at hij
    have hzero : size mid = 0 := by omega
    cases mid with
    | nil => exact ⟨[], by simp⟩
    | cons c mid =>
      have := c.utf8Size_pos
      rw [size_cons] at hzero
      omega

theorem Boundary.slice (h : Boundary text i) (h' : Boundary text j) (hij : i ≤ j) :
    ∃ front, text.slice? i j = some front := by
  obtain ⟨rest, hrest⟩ := h
  obtain ⟨rest', hrest'⟩ := h'
  obtain ⟨front, rfl, hsize⟩ := hrest.exists_between hrest' hij
  obtain rfl : j = i + size front := by omega
  exact ⟨front, hrest.slice?⟩

/-! ## Bytes below 128 -/

theorem At.of_byte (h : At text i rest) (hb : text.bytes[i]? = some b) (hlow : b.toNat < 128) :
    ∃ c rest', rest = c :: rest' ∧ c.toNat = b.toNat ∧ At text (i + 1) rest' := by
  rw [h.getElem?] at hb
  cases rest with
  | nil => cases hb
  | cons c rest =>
    obtain ⟨lead, tail, henc⟩ := encode_head c
    rw [bytes_cons, henc, cons_append, head?_cons] at hb
    obtain rfl := Option.some.inj hb
    have hc : c.toNat < 128 := by
      by_contra hle
      have := encode_high (Nat.not_lt.mp hle) lead (henc ▸ mem_cons_self)
      omega
    rw [encode_low hc] at henc
    obtain ⟨rfl, -⟩ := List.cons.inj henc
    refine ⟨c, rest, rfl, ?_, h.low hc⟩
    rw [UInt8.toNat_ofNat']
    omega

theorem At.byte_low (h : At text i (c :: rest)) (hc : c.toNat < 128) : text.bytes[i]? = some (UInt8.ofNat c.toNat) := by
  rw [h.getElem?, bytes_cons, encode_low hc]
  rfl

theorem boundary_of_byte (hb : text.bytes[i]? = some b) (hlow : b.toNat < 128) : Boundary text i := by
  induction text generalizing i with
  | nil => cases hb
  | cons c text ih =>
    rw [bytes_cons] at hb
    by_cases hi : i < (String.utf8EncodeChar c).length
    · rw [getElem?_append_left hi] at hb
      have hc : c.toNat < 128 := by
        by_contra hle
        have := encode_high (Nat.not_lt.mp hle) b (mem_of_getElem? hb)
        omega
      rw [encode_low hc, length_singleton] at hi
      obtain rfl : i = 0 := by omega
      exact ⟨_, at_zero _⟩
    · rw [getElem?_append_right (Nat.not_lt.mp hi)] at hb
      obtain ⟨rest, front, rfl, hsize⟩ := ih hb
      refine ⟨rest, c :: front, rfl, ?_⟩
      rw [size_cons, hsize, ← String.length_utf8EncodeChar]
      omega

theorem At.skip {high : Bool} (hhigh : ∀ b : UInt8, 128 ≤ b.toNat → test b = high) (h : At text i rest) :
    ∃ rest', At text (text.skip test i) rest' ∧ text.skip test i ≤ size text := by
  suffices hrun : ∀ rest : Text, ∃ front rest', rest = front ++ rest' ∧
      (rest.bytes.takeWhile test).length = size front by
    obtain ⟨front, rest', rfl, hsize⟩ := hrun rest
    have hat : At text (text.skip test i) rest' := by
      rw [Text.skip, h.drop, hsize]
      exact h.append
    exact ⟨rest', hat, hat.le⟩
  intro rest
  induction rest with
  | nil => exact ⟨[], [], rfl, rfl⟩
  | cons c rest ih =>
    obtain ⟨front, rest', hrest, hsize⟩ := ih
    by_cases hall : ∀ b ∈ String.utf8EncodeChar c, test b = true
    · refine ⟨c :: front, rest', by rw [hrest]; rfl, ?_⟩
      rw [bytes_cons, takeWhile_append_of_pos hall, length_append, hsize, size_cons, String.length_utf8EncodeChar]
    · refine ⟨[], c :: rest, rfl, ?_⟩
      obtain ⟨lead, tail, henc⟩ := encode_head c
      have hlead : ¬test lead = true := by
        intro hlead
        refine hall fun b hb => ?_
        by_cases hc : c.toNat < 128
        · rw [encode_low hc] at henc hb
          obtain ⟨rfl, -⟩ := List.cons.inj henc
          obtain rfl := mem_singleton.mp hb
          exact hlead
        · have hbytes := encode_high (Nat.not_lt.mp hc)
          rw [hhigh b (hbytes b hb), ← hhigh lead (hbytes lead (henc ▸ mem_cons_self)), hlead]
      rw [bytes_cons, henc, cons_append, takeWhile_cons_of_neg hlead]
      rfl

theorem Boundary.succ (h : Boundary text i) (hb : text.bytes[i]? = some b) (hlow : b.toNat < 128) :
    Boundary text (i + 1) := by
  obtain ⟨rest, hrest⟩ := h
  obtain ⟨c, rest', -, -, hrest'⟩ := hrest.of_byte hb hlow
  exact ⟨rest', hrest'⟩

theorem Boundary.add {n : Nat} (h : Boundary text i)
    (hlow : ∀ k < n, ∃ b, text.bytes[i + k]? = some b ∧ b.toNat < 128) : Boundary text (i + n) := by
  induction n with
  | zero => exact h
  | succ n ih =>
    obtain ⟨b, hb, hlt⟩ := hlow n (Nat.lt_succ_self n)
    exact (ih fun k hk => hlow k (Nat.lt_succ_of_lt hk)).succ hb hlt

theorem Boundary.takeWhile (hlow : ∀ b : UInt8, test b = true → b.toNat < 128) (h : Boundary text i) (m : Nat) :
    Boundary text (i + (((text.bytes.drop i).take m).takeWhile test).length) := by
  refine h.add fun k hk => ?_
  have hpass := all_eq_true.mp all_takeWhile _ (getElem_mem hk)
  have hinit : ((text.bytes.drop i).take m).takeWhile test <+: text.bytes.drop i :=
    ( takeWhile_prefix test).trans ( take_prefix _ _)
  refine ⟨_, ?_, hlow _ hpass⟩
  rw [hinit.getElem hk, ← getElem?_drop, getElem?_eq_getElem]

def isAscii (text : Text) : Bool := text.all fun c => c.toNat < 128

theorem size_ascii (h : isAscii text = true) : size text = text.length := by
  induction text with
  | nil => rfl
  | cons c text ih =>
    rw [isAscii, all_cons, Bool.and_eq_true_iff, decide_eq_true_eq] at h
    rw [size_cons, utf8Size_low h.1, ih h.2, length_cons, Nat.add_comm]

theorem At.isPrefixOf (h : At text i rest) (hlow : isAscii front = true) (hfront : front.isPrefixOf rest = true) :
    ∃ rest', rest = front ++ rest' ∧ At text (i + front.length) rest' := by
  obtain ⟨rest', rfl⟩ := isPrefixOf_iff_prefix.mp hfront
  refine ⟨rest', rfl, ?_⟩
  rw [← size_ascii hlow]
  exact h.append

theorem lt_skip (hb : text.bytes[i]? = some b) (htest : test b = true) : i < text.skip test i := by
  obtain ⟨hlt, rfl⟩ := List.getElem?_eq_some_iff.mp hb
  rw [skip, drop_eq_getElem_cons hlt, takeWhile_cons_of_pos htest, length_cons]
  omega

theorem skip_succ (hb : text.bytes[i]? = some b) (htest : test b = true) :
    text.skip test i = text.skip test (i + 1) := by
  obtain ⟨hlt, rfl⟩ := List.getElem?_eq_some_iff.mp hb
  rw [skip, skip, drop_eq_getElem_cons hlt, takeWhile_cons_of_pos htest, length_cons]
  omega

theorem le_skip (test : UInt8 → Bool) (i : Nat) : i ≤ text.skip test i := Nat.le_add_right ..

end Text

end Tsuzuri
