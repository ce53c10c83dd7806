import Mathlib.Algebra.Group.Nat.Defs
import Mathlib.Data.List.Forall2

/-!
# Data layouts

Sizes and alignments of LLVM's first-class types, reduced to what a target changes: the width of a pointer and the
alignment of a 128-bit integer.
-/

namespace DataLayout

/-- `next_multiple_of` -/
def nextMultiple (size align : Nat) : Nat :=
  if size % align = 0 then size else size + (align - size % align)

def place (before field : Nat × Nat) : Nat × Nat :=
  (nextMultiple before.1 field.2 + field.1, max before.2 field.2)

/-- The size and alignment of a structure that stores `fields` in this order. -/
def aggregate (fields : List (Nat × Nat)) : Nat × Nat :=
  let placed := fields.foldl place (0, 1)
  (nextMultiple placed.1 placed.2, placed.2)

variable {size align bound a b : Nat} {fields : List (Nat × Nat)}

theorem nextMultiple_dvd (h : 0 < align) : align ∣ nextMultiple size align := by
  unfold nextMultiple
  split
  · exact Nat.dvd_of_mod_eq_zero ‹_›
  · have hmod := Nat.mod_lt size h
    have hdiv := Nat.div_add_mod size align
    refine ⟨size / align + 1, ?_⟩
    rw [Nat.mul_add, Nat.mul_one]
    omega

theorem le_nextMultiple (size align : Nat) : size ≤ nextMultiple size align := by
  unfold nextMultiple
  split <;> omega

theorem nextMultiple_le (hle : size ≤ bound) (hdvd : align ∣ bound) : nextMultiple size align ≤ bound := by
  unfold nextMultiple
  split
  · exact hle
  · rename_i hmod
    obtain ⟨k, rfl⟩ := hdvd
    have hdiv := Nat.div_add_mod size align
    have hlt : size / align < k := by
      by_contra hge
      have hmul := Nat.mul_le_mul_left align (Nat.le_of_not_lt hge)
      have hzero : size % align = 0 := by omega
      exact hmod hzero
    have hmul := Nat.mul_le_mul_left align hlt
    rw [Nat.succ_eq_add_one, Nat.mul_add, Nat.mul_one] at hmul
    omega

theorem nextMultiple_mono {size' align' : Nat} (hsize : size ≤ size') (halign : align ∣ align')
    (hpos : 0 < align') : nextMultiple size align ≤ nextMultiple size' align' :=
  nextMultiple_le (Nat.le_trans hsize (le_nextMultiple _ _)) (Nat.dvd_trans halign (nextMultiple_dvd hpos))

/-! ## The order of layouts -/

theorem dvd_of_le (ha : a.isPowerOfTwo) (hb : b.isPowerOfTwo) (h : a ≤ b) : a ∣ b := by
  obtain ⟨i, rfl⟩ := ha
  obtain ⟨j, rfl⟩ := hb
  exact Nat.pow_dvd_pow 2 ((Nat.pow_le_pow_iff_right (by decide)).1 h)

theorem isPowerOfTwo_max (ha : a.isPowerOfTwo) (hb : b.isPowerOfTwo) : (max a b).isPowerOfTwo := by
  rcases Nat.le_total a b with h | h
  · rwa [Nat.max_eq_right h]
  · rwa [Nat.max_eq_left h]

/-- No larger and no more aligned. -/
structure Below (a b : Nat × Nat) : Prop where
  size : a.1 ≤ b.1
  align : a.2 ≤ b.2
  left : a.2.isPowerOfTwo
  right : b.2.isPowerOfTwo

namespace Below

variable {a b a' b' : Nat × Nat}

theorem refl (h : a.2.isPowerOfTwo) : Below a a :=
  ⟨Nat.le_refl _, Nat.le_refl _, h, h⟩

theorem dvd (h : Below a b) : a.2 ∣ b.2 :=
  dvd_of_le h.left h.right h.align

theorem pos (h : Below a b) : 0 < b.2 :=
  Nat.pos_of_isPowerOfTwo h.right

theorem place (hbefore : Below a b) (hfield : Below a' b') : Below (place a a') (place b b') where
  size := Nat.add_le_add (nextMultiple_mono hbefore.size hfield.dvd hfield.pos) hfield.size
  align :=
    have hleft := Nat.le_trans hbefore.align (Nat.le_max_left _ _)
    have hright := Nat.le_trans hfield.align (Nat.le_max_right _ _)
    Nat.max_le.2 ⟨hleft, hright⟩
  left := isPowerOfTwo_max hbefore.left hfield.left
  right := isPowerOfTwo_max hbefore.right hfield.right

variable {fields' : List (Nat × Nat)}

theorem foldl_place (h : List.Forall₂ Below fields fields') :
    ∀ {a b : Nat × Nat}, Below a b → Below (fields.foldl DataLayout.place a) (fields'.foldl DataLayout.place b) := by
  induction h with
  | nil => exact fun hab => hab
  | cons hfield _ ih => exact fun hab => ih (hab.place hfield)

theorem aggregate (h : List.Forall₂ Below fields fields') : Below (aggregate fields) (aggregate fields') := by
  have hplaced := foldl_place h (refl (a := (0, 1)) Nat.isPowerOfTwo_one)
  exact ⟨nextMultiple_mono hplaced.size hplaced.dvd hplaced.pos, hplaced.align, hplaced.left, hplaced.right⟩

theorem array (h : Below a b) (count : Nat) : Below (a.1 * count, a.2) (b.1 * count, b.2) :=
  ⟨Nat.mul_le_mul_right count h.size, h.align, h.left, h.right⟩

end Below

theorem foldl_place_align (fields : List (Nat × Nat)) (before : Nat × Nat) (bound : Nat) :
    (fields.foldl place before).2 ≤ bound ↔ before.2 ≤ bound ∧ ∀ field ∈ fields, field.2 ≤ bound := by
  induction fields generalizing before with
  | nil => simp
  | cons field fields ih =>
    rw [List.foldl_cons, ih, List.forall_mem_cons]
    simp only [place, Nat.max_le, and_assoc]

theorem aggregate_align_le (hbound : 0 < bound) : (aggregate fields).2 ≤ bound ↔ ∀ field ∈ fields, field.2 ≤ bound := by
  change (fields.foldl place (0, 1)).2 ≤ bound ↔ _
  rw [foldl_place_align]
  exact ⟨fun h => h.2, fun h => ⟨hbound, h⟩⟩

/-! ## Types -/

structure Machine where
  pointer : Nat
  wide : Nat
  pointer_eq : pointer = 4 ∨ pointer = 8
  wide_eq : wide = 8 ∨ wide = 16

inductive LlvmType (ν : Type) where
  | int (bits : Nat)
  | float
  | double
  | ptr
  | vector (lanes : Nat) (element : LlvmType ν)
  | array (count : Nat) (element : LlvmType ν)
  | struct (fields : List (LlvmType ν))
  | named (name : ν) (body : LlvmType ν)

namespace LlvmType

variable {ν : Type}

mutual

def beq [DecidableEq ν] : LlvmType ν → LlvmType ν → Bool
  | .int a, .int b => a = b
  | .float, .float | .double, .double | .ptr, .ptr => true
  | .vector n a, .vector k b | .array n a, .array k b => n = k && beq a b
  | .struct a, .struct b => beqList a b
  | .named x a, .named y b => x = y && beq a b
  | _, _ => false

def beqList [DecidableEq ν] : List (LlvmType ν) → List (LlvmType ν) → Bool
  | [], [] => true
  | a :: as, b :: bs => beq a b && beqList as bs
  | _, _ => false

end

mutual

theorem beq_iff [DecidableEq ν] : ∀ a b : LlvmType ν, beq a b = true ↔ a = b
  | .int _, b | .float, b | .double, b | .ptr, b => by cases b <;> simp [beq]
  | .vector _ a, b | .array _ a, b => by cases b <;> simp [beq, beq_iff a]
  | .struct a, b => by cases b <;> simp [beq, beqList_iff a]
  | .named _ a, b => by cases b <;> simp [beq, beq_iff a]

theorem beqList_iff [DecidableEq ν] : ∀ as bs : List (LlvmType ν), beqList as bs = true ↔ as = bs
  | [], bs => by cases bs <;> simp [beqList]
  | a :: as, bs => by cases bs <;> simp [beqList, beq_iff a, beqList_iff as]

end

instance instDecidableEqLlvmType [DecidableEq ν] : DecidableEq (LlvmType ν) := fun a b =>
  decidable_of_iff _ (beq_iff a b)

def intBytes (bits : Nat) : Nat := (bits + 7) / 8

def intAlign (m : Machine) (bits : Nat) : Nat :=
  if bits ≤ 8 then 1 else if bits ≤ 16 then 2 else if bits ≤ 32 then 4 else if bits ≤ 64 then 8 else m.wide

def powerFrom (n : Nat) : Nat := if n ≤ 1 then 1 else 1 <<< ((n - 1).log2 + 1)

theorem powerFrom_isPowerOfTwo (n : Nat) : (powerFrom n).isPowerOfTwo := by
  unfold powerFrom
  split
  · exact Nat.isPowerOfTwo_one
  · exact ⟨_, Nat.one_shiftLeft _⟩

theorem powerFrom_le_eight (n : Nat) : powerFrom n ≤ 8 ↔ powerFrom n < 16 := by
  obtain ⟨k, hk⟩ := powerFrom_isPowerOfTwo n
  rw [hk, show 8 = 2 ^ 3 from rfl, show 16 = 2 ^ 4 from rfl, Nat.pow_le_pow_iff_right (by decide),
    Nat.pow_lt_pow_iff_right (by decide)]
  omega

def scalarBits (m : Machine) : LlvmType ν → Nat
  | .int bits => bits
  | .float => 32
  | .double => 64
  | .ptr => 8 * m.pointer
  | _ => 0

mutual

def sizeAlign (m : Machine) : LlvmType ν → Nat × Nat
  | .int bits => (nextMultiple (intBytes bits) (intAlign m bits), intAlign m bits)
  | .float => (4, 4)
  | .double => (8, 8)
  | .ptr => (m.pointer, m.pointer)
  | .vector lanes element =>
    let bytes := powerFrom (intBytes (lanes * element.scalarBits m))
    (bytes, bytes)
  | .array count element => ((sizeAlign m element).1 * count, (sizeAlign m element).2)
  | .struct fields => aggregate (sizeAligns m fields)
  | .named _ body => sizeAlign m body

def sizeAligns (m : Machine) : List (LlvmType ν) → List (Nat × Nat)
  | [] => []
  | field :: fields => sizeAlign m field :: sizeAligns m fields

end

attribute [local grind =] sizeAlign sizeAligns

section

variable (m : Machine)

theorem sizeAligns_eq (fields : List (LlvmType ν)) : sizeAligns m fields = fields.map (sizeAlign m) := by
  induction fields with
  | nil => rfl
  | cons field fields ih => rw [sizeAligns, ih, List.map_cons]

@[simp] theorem sizeAlign_ptr : sizeAlign m (.ptr : LlvmType ν) = (m.pointer, m.pointer) := rfl

theorem sizeAlign_bit : sizeAlign m (.int 1 : LlvmType ν) = (1, 1) := by
  simp [sizeAlign, intAlign, intBytes, nextMultiple]

theorem sizeAlign_int {bytes : Nat} (h : bytes ∈ [1, 2, 4, 8]) :
    sizeAlign m (.int (8 * bytes) : LlvmType ν) = (bytes, bytes) := by
  simp only [List.mem_cons, List.not_mem_nil, or_false] at h
  rcases h with rfl | rfl | rfl | rfl <;> simp [sizeAlign, intAlign, intBytes, nextMultiple]

theorem sizeAlign_array (count : Nat) (element : LlvmType ν) :
    sizeAlign m (.array count element) = ((sizeAlign m element).1 * count, (sizeAlign m element).2) := by
  rw [sizeAlign]

@[simp] theorem sizeAlign_struct (fields : List (LlvmType ν)) :
    sizeAlign m (.struct fields) = aggregate (fields.map (sizeAlign m)) := by
  rw [sizeAlign, sizeAligns_eq]

end

mutual

def holdsVector (m : Machine) : LlvmType ν → Bool
  | .vector lanes element => 16 ≤ powerFrom (intBytes (lanes * element.scalarBits m))
  | .array _ element => holdsVector m element
  | .struct fields => anyHoldsVector m fields
  | .named _ body => holdsVector m body
  | _ => false

def anyHoldsVector (m : Machine) : List (LlvmType ν) → Bool
  | [] => false
  | field :: fields => holdsVector m field || anyHoldsVector m fields

end

attribute [local grind =] holdsVector anyHoldsVector

theorem sizeAlign_le (m : Machine) (h : m.wide = 8) : ∀ t : LlvmType ν, (sizeAlign m t).2 ≤ 8 ↔ holdsVector m t = false
  | .int bits => by
    simp only [sizeAlign, intAlign, h, holdsVector]
    split <;> (try split) <;> (try split) <;> (try split) <;> simp
  | .float | .double => by simp [sizeAlign, holdsVector]
  | .ptr => by
    rcases m.pointer_eq with hp | hp <;> simp [sizeAlign, holdsVector, hp]
  | .vector lanes element => by
    simp only [sizeAlign, holdsVector, decide_eq_false_iff_not, Nat.not_le]
    exact powerFrom_le_eight _
  | .array count element => by
    simpa only [sizeAlign, holdsVector] using sizeAlign_le m h element
  | .struct fields => by
    rw [sizeAlign, aggregate_align_le (by decide), holdsVector]
    exact sizeAligns_le m h fields
  | .named _ body => by
    simpa only [sizeAlign, holdsVector] using sizeAlign_le m h body
where
  sizeAligns_le (m : Machine) (h : m.wide = 8) :
      ∀ fields : List (LlvmType ν), (∀ field ∈ sizeAligns m fields, field.2 ≤ 8) ↔ anyHoldsVector m fields = false
  | [] => by simp [sizeAligns, anyHoldsVector]
  | field :: fields => by
    rw [sizeAligns, List.forall_mem_cons, anyHoldsVector, Bool.or_eq_false_iff, sizeAlign_le m h field,
      sizeAligns_le m h fields]

end LlvmType

end DataLayout
