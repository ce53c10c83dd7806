import Tsuzuri.DataLayout
import Tsuzuri.Types
import Mathlib.Data.List.Basic

/-!
# Value layout

How a union stores its tag and payload, in what order a record keeps its fields, and how many bytes a type takes
(`llvm_layout.rs`), beside its LLVM type (`llvm.rs`).
-/

namespace Tsuzuri.Layout

open DataLayout

/-- The names of the types that a program defines. -/
inductive LlvmName where
  | string
  | utf8String
  | array
  | list
  | vec
  | closure
  | dyn
  | record (id : Nat) (args : List Ty)
  | union (id : Nat) (args : List Ty)
deriving DecidableEq

abbrev Llvm := LlvmType LlvmName

inductive Niche where
  | negativeLength
  | nullPointer
  | nullDescriptor
deriving DecidableEq

inductive UnionLayout where
  | enum
  | common (payload : Ty)
  | general (unit units : Nat)
  | niche (niche : Niche) (payload : Ty) (none some : Nat)
deriving DecidableEq

/-- What layouts read of a checked module (declarations, the user's records, the answers of `recursive`), and whether
the target is WebAssembly. -/
structure CheckedModule where
  types : TypeContext
  user : Nat → Bool
  recursive : Ty → Bool
  webassembly : Bool

def sliceElement : Ty → Option Ty
  | .reference (.array element) false => some element
  | .reference (.arrayView element) true => some element
  | _ => none

def fixedLength : Ty → Option Nat
  | .fixedArray _ (.length n) => some n
  | _ => none

def lanes (vector : SimdType) : Nat := vector.width / vector.bits

/-- `SimdType::bytes` -/
def vectorBytes (vector : SimdType) : Nat :=
  if vector.kind = .mask then (lanes vector + 7) / 8 else vector.width / 8

/-- `SimdType::element` -/
def vectorElement (vector : SimdType) : Ty :=
  match vector.kind with
  | .signed => .integer vector.bits true
  | .unsigned => .integer vector.bits false
  | .float => .binary vector.bits
  | .mask => .bool

/-! ## Tags -/

def tagBytes (cases : Nat) : Nat :=
  if cases ≤ 0x100 then 1 else if cases ≤ 0x10000 then 2 else 4

namespace CheckedModule

variable (m : CheckedModule)

def caseCount : Ty → Nat
  | .union id _ => (m.types.union id).cases.length
  | _ => 0

def tagWidth (ty : Ty) : Nat :=
  if m.recursive ty then 4 else tagBytes (m.caseCount ty)

def dropFlag : Ty → Option Nat
  | .record id _ => if (m.types.record id).userDrop then some (m.types.record id).fields.length else none
  | .union id args =>
    if (m.types.union id).userDrop && !m.recursive (.union id args) then some 2 else none
  | _ => none

def flagBound (ty : Ty) : List (Nat × Nat) := (m.dropFlag ty).toList.map fun _ => (1, 1)

def flagType (ty : Ty) : List Llvm := (m.dropFlag ty).toList.map fun _ => .int 8

def optionCases : List (Option Ty) → Option (Nat × Nat × Ty)
  | [none, some payload] => some (0, 1, payload)
  | [some payload, none] => some (1, 0, payload)
  | _ => none

def nicheOf : Ty → Option Niche
  | .string | .utf8String | .array _ => some .negativeLength
  | .reference target mutable =>
    if (sliceElement (.reference target mutable)).isNone && !m.webassembly then some .nullPointer else none
  | .function .. | .once _ => some .nullDescriptor
  | _ => none

def nicheLayout (id : Nat) (args : List Ty) (cases : List (Option Ty)) : Option UnionLayout := do
  let (nullary, full, payload) ← optionCases cases
  let niche ← m.nicheOf payload
  if (m.types.union id).userDrop || m.recursive (.union id args) then failure
  return .niche niche payload nullary full

/-- The bytes that fields of these sizes and alignments take in the order `order`. -/
def orderedSize (fields : List (Nat × Nat)) (flag : Bool) (order : List Nat) : Nat :=
  (aggregate (order.map (fields.getD · (0, 1)) ++ if flag then [(1, 1)] else [])).1

/-- The slots by decreasing alignment, where that takes fewer bytes than the declared order. -/
def placeFields (fields : List (Nat × Nat)) (flag : Bool) : Option (List Nat) :=
  let declared := List.range fields.length
  let order := declared.mergeSort fun i j => (fields.getD j (0, 1)).2 ≤ (fields.getD i (0, 1)).2
  if orderedSize fields flag declared ≤ orderedSize fields flag order then none
  else some (declared.map fun index => order.idxOf index)

end CheckedModule

/-! ## The three models -/

/-- What is known of `layout_bound` (with its argument `lower`) and of `llvm_type`. -/
structure Layouts where
  bound : Ty → Bool → Option (Nat × Nat)
  llvm : Ty → Option Llvm

namespace CheckedModule

variable (m : CheckedModule) (known : Layouts)

/-- `record_slots`: `none` inside keeps the declared order. -/
def recordSlots (id : Nat) (args : List Ty) : Option (Option (List Nat)) :=
  let record := m.types.record id
  if !m.user id || record.fields.length < 2 then some none
  else do
    let fields ← (m.types.recordFields id args).mapM (known.bound · false)
    return placeFields fields record.userDrop

/-- `physical_fields`, without the logical indices, in the order of the LLVM type. -/
def physicalFields (id : Nat) (args : List Ty) : Option (List Ty) := do
  let fields := m.types.recordFields id args
  match ← m.recordSlots known id args with
  | none => return fields
  | some slots =>
    let order := (List.range fields.length).mergeSort fun i j => slots.getD i 0 ≤ slots.getD j 0
    return order.map (fields.getD · .error)

def storageLayout (ty : Ty) : Option (Nat × Nat) := known.bound ty false

def largest (a b : Nat × Nat) : Nat × Nat := (max a.1 b.1, max a.2 b.2)

def workOutUnionLayout (id : Nat) (args : List Ty) : Option UnionLayout :=
  let cases := m.types.unionPayloads id args
  match m.nicheLayout id args cases with
  | some niche => some niche
  | none =>
    match cases.reduceOption with
    | [] => some (if (m.types.union id).userDrop then .general 1 0 else .enum)
    | first :: rest => do
      let llvm ← known.llvm first
      let types ← (first :: rest).mapM known.llvm
      if types.all (· = llvm) then return .common first
      let layouts ← (first :: rest).mapM (storageLayout known)
      let (bytes, alignment) := layouts.foldl largest (0, 1)
      let unit := min alignment 16
      return .general unit ((bytes + unit - 1) / unit)

/-- The area of a `General` layout. -/
def area (unit units : Nat) : Llvm := .array units (.int (8 * unit))

/-- `layout_bound`, with the calls it makes in `known`. -/
def layoutBound (ty : Ty) (lower : Bool) : Option (Nat × Nat) :=
  match ty with
  | .simd vector =>
    let bytes := vectorBytes vector
    some (bytes, if lower then min bytes 8 else bytes)
  | .integer bits _ | .binary bits | .decimal bits =>
    let bytes := (bits + 7) / 8
    some (bytes, if lower then min bytes 8 else bytes)
  | .bool | .unit => some (1, 1)
  | .char => some (2, 2)
  | .utf8Char => some (4, 4)
  | .string | .utf8String | .array _ | .list _ => some (16, 8)
  | .function .. | .once _ => some (if lower then (8, 4) else (16, 8))
  | .vec _ => some (24, 8)
  | .dyn _ => some (if lower then (8, 4) else (16, 8))
  | .reference target mutable =>
    if (sliceElement (.reference target mutable)).isSome then some (16, 8)
    else some (if lower then (4, 4) else (8, 8))
  | .handle _ | .shared .. => some (if lower then (4, 4) else (8, 8))
  | .fixedArray element length => do
    let (size, align) ← known.bound element lower
    return (size * (← fixedLength (.fixedArray element length)), align)
  | .tuple elements => do return aggregate (← elements.mapM (known.bound · lower))
  | .record id args => do
    let fields ← (← m.physicalFields known id args).mapM (known.bound · lower)
    return aggregate (fields ++ m.flagBound ty)
  | .union id args =>
    if m.recursive ty then some (if lower then (4, 4) else (8, 8))
    else do
      let tag := (m.tagWidth ty, m.tagWidth ty)
      match ← m.workOutUnionLayout known id args with
      | .enum => return tag
      | .common payload => return aggregate (tag :: (← known.bound payload lower) :: m.flagBound ty)
      | .general unit units =>
        return aggregate (tag :: (unit * units, if lower && unit = 16 then 8 else unit) :: m.flagBound ty)
      | .niche _ payload _ _ => known.bound payload lower
  | .arrayView _ | .length _ | .error | .variable _ | .infer _ | .partialApp .. | .application .. => none

/-- `%tz.string` and the other structures of a pointer and a length. -/
def sized (name : LlvmName) : Llvm := .named name (.struct [.ptr, .int 64])

/-- `llvm_type`, with the calls it makes in `known`. -/
def llvmType (ty : Ty) : Option Llvm :=
  match ty with
  | .simd vector => do return .vector (lanes vector) (← known.llvm (vectorElement vector))
  | .integer bits _ | .decimal bits => some (.int bits)
  | .binary bits =>
    if bits = 16 ∨ bits = 128 then some (.int bits)
    else if bits = 32 then some .float
    else if bits = 64 then some .double
    else none
  | .bool => some (.int 1)
  | .char => some (.int 16)
  | .utf8Char => some (.int 32)
  | .unit => some (.int 8)
  | .string => some (sized .string)
  | .utf8String => some (sized .utf8String)
  | .array _ => some (sized .array)
  | .list _ => some (sized .list)
  | .vec _ => some (.named .vec (.struct [.ptr, .int 64, .int 64]))
  | .function .. | .once _ => some (.named .closure (.struct [.ptr, .ptr]))
  | .dyn _ => some (.named .dyn (.struct [.ptr, .ptr]))
  | .reference target mutable =>
    if (sliceElement (.reference target mutable)).isSome then some (sized .array) else some .ptr
  | .handle _ | .shared .. => some .ptr
  | .fixedArray element length => do
    return .array (← fixedLength (.fixedArray element length)) (← known.llvm element)
  | .tuple elements => do return .struct (← elements.mapM known.llvm)
  | .record id args => do
    let fields ← (← m.physicalFields known id args).mapM known.llvm
    return .named (.record id args) (.struct (fields ++ m.flagType ty))
  | .union id args =>
    if m.recursive ty then some .ptr
    else do
      let tag : Llvm := .int (8 * m.tagWidth ty)
      match ← m.workOutUnionLayout known id args with
      | .enum => return .named (.union id args) tag
      | .common payload =>
        return .named (.union id args) (.struct (tag :: (← known.llvm payload) :: m.flagType ty))
      | .general unit units => return .named (.union id args) (.struct (tag :: area unit units :: m.flagType ty))
      | .niche _ payload _ _ => known.llvm payload
  | .arrayView _ | .length _ | .error | .variable _ | .infer _ | .partialApp .. | .application .. => none

def step : Layouts := { bound := m.layoutBound known, llvm := m.llvmType known }

@[simp] theorem step_bound (ty : Ty) (lower : Bool) :
    (m.step known).bound ty lower = m.layoutBound known ty lower := rfl

@[simp] theorem step_llvm (ty : Ty) : (m.step known).llvm ty = m.llvmType known ty := rfl

def layouts : Nat → Layouts
  | 0 => { bound := fun _ _ => none, llvm := fun _ => none }
  | depth + 1 => m.step (layouts depth)

end CheckedModule

end Tsuzuri.Layout
