import Tsuzuri.Layout
import Tsuzuri.LlvmValues

/-!
# Reading and writing unions

The emitter's methods that build a union value and read its tag and payload (`llvm_layout.rs`, `llvm_recursive.rs`).
-/

namespace Tsuzuri.Layout

open DataLayout LlvmType

/-- Memory, and where the next slot goes. -/
structure Frame where
  mem : Nat → Byte
  next : Nat

abbrev Emit (α : Type) := StateT Frame Option α

/-! ## Instructions -/

section Instructions

variable (M : Machine)

def alloca (t : Llvm) : Emit Nat := fun s =>
  some (s.next, { s with next := nextMultiple (s.next + (sizeAlign M t).1) 16 })

def store (t : Llvm) (value : Val) (address : Nat) : Emit Unit := fun s =>
  some ((), { s with mem := write s.mem address (encode M t value) })

def load (t : Llvm) (address : Nat) : Emit Val := fun s =>
  some (decode M t (read s.mem address (sizeAlign M t).1), s)

def structFields : Llvm → List Llvm
  | .struct fields => fields
  | .named _ (.struct fields) => fields
  | _ => []

/-- `getelementptr inbounds t, ptr address, i32 0, i32 index` -/
def getelementptr (t : Llvm) (address index : Nat) : Nat := address + fieldOffset M 0 (structFields t) index

def constant (bytes n : Nat) : Val := .scalar (bytesOf bytes n)

def pointer (address : Nat) : Val := constant M.pointer address

mutual

def zeroinitializer : Llvm → Val
  | .array count element => .agg (List.replicate count (zeroinitializer element))
  | .struct fields => .agg (zeroinitializers fields)
  | .named _ body => zeroinitializer body
  | t@(.int _) | t@.float | t@.double | t@.ptr | t@(.vector ..) => constant (sizeAlign M t).1 0

def zeroinitializers : List Llvm → List Val
  | [] => []
  | field :: fields => zeroinitializer field :: zeroinitializers fields

end

/-- `icmp slt i64 value, 0` -/
def negative (value : Val) : Option Bool := (number value.bytes).map (9223372036854775808 ≤ ·)

/-- `icmp eq ptr value, null` -/
def isNull (value : Val) : Option Bool := (number value.bytes).map (· = 0)

/-- `select i1 condition, i32 yes, i32 no`. -/
def select (condition : Option Bool) (yes no : Nat) : Val :=
  match condition with
  | some true => constant 4 yes
  | some false => constant 4 no
  | none => .scalar (List.replicate 4 none)

/-- `zext` to `i32` -/
def zext (value : Val) : Val :=
  match number value.bytes with
  | some n => constant 4 n
  | none => .scalar (List.replicate 4 none)

end Instructions

namespace CheckedModule

variable (m : CheckedModule) (M : Machine) (depth : Nat)

def ty (ty : Ty) : Option Llvm := (m.layouts depth).llvm ty

def unionLayout : Ty → Option UnionLayout
  | .union id args => m.workOutUnionLayout (m.layouts depth) id args
  | _ => none

def spill (ty : Ty) (value : Val) : Emit Nat := do
  let llvm ← m.ty depth ty
  let slot ← alloca M llvm
  store M llvm value slot
  return slot

def nullary : Niche → Val
  | .negativeLength => .agg [pointer M 0, constant 8 18446744073709551615]
  | .nullPointer => pointer M 0
  | .nullDescriptor => .agg [pointer M 0, pointer M 0]

def markLive (ty : Ty) (value : Val) : Val :=
  match m.dropFlag ty with
  | some flag => value.setField flag (constant 1 1)
  | none => value

def emptyCase : Ty → Option Nat
  | .union id _ =>
    if (m.types.union id).userDrop then none
    else (m.types.union id).cases.findIdx? fun (_, payload) => payload.isNone
  | _ => none

def nodeRegion (ty : Ty) : Option Llvm := do
  match ← m.unionLayout depth ty with
  | .enum => return .int 8
  | .common payload => m.ty depth payload
  | .general unit units => return area unit units
  | .niche .. => none

def nodeType (ty : Ty) : Option Llvm := do
  return .struct [.ptr, .ptr, .ptr, .int 32, ← m.nodeRegion depth ty]

def recursiveConstruct (ty : Ty) (case : Nat) (payload : Option (Val × Llvm)) (node drop clone : Nat) : Emit Val := do
  if m.emptyCase ty = some case then return pointer M 0
  let body ← m.nodeType depth ty
  store M .ptr (pointer M 0) (getelementptr M body node 0)
  store M .ptr (pointer M drop) (getelementptr M body node 1)
  store M .ptr (pointer M clone) (getelementptr M body node 2)
  store M (.int 32) (constant 4 case) (getelementptr M body node 3)
  if let some (value, type) := payload then store M type value (getelementptr M body node 4)
  return pointer M node

def address (value : Val) : Option Nat := number value.bytes

def recursiveTag (ty : Ty) (node : Val) : Emit Val := do
  let body ← m.nodeType depth ty
  match m.emptyCase ty with
  | some case =>
    if ← isNull node then return constant 4 case
    else load M (.int 32) (getelementptr M body (← address node) 3)
  | none => load M (.int 32) (getelementptr M body (← address node) 3)

/-! ### All unions -/

def payloadPointer (ty : Ty) (slot : Nat) : Emit Nat := do
  if m.recursive ty then
    let node ← load M .ptr slot
    return getelementptr M (← m.nodeType depth ty) (← address node) 4
  match ← m.unionLayout depth ty with
  | .niche .. => return slot
  | _ => return getelementptr M (← m.ty depth ty) slot 1

def constructValue (ty : Ty) (case : Nat) (payload : Option (Val × Llvm)) (node drop clone : Nat) : Emit Val := do
  if m.recursive ty then return ← m.recursiveConstruct M depth ty case payload node drop clone
  let layout ← m.unionLayout depth ty
  match layout with
  | .niche niche .. =>
    match payload with
    | some (value, _) => return value
    | none => return nullary M niche
  | .enum => return constant (m.tagWidth ty) case
  | _ =>
    let llvm ← m.ty depth ty
    let tagged := (zeroinitializer M llvm).setField 0 (constant (m.tagWidth ty) case)
    let tagged := m.markLive ty tagged
    match payload with
    | none => return tagged
    | some (value, type) =>
      match layout with
      | .common _ => return tagged.setField 1 value
      | _ =>
        let slot ← m.spill M depth ty tagged
        store M type value (← m.payloadPointer M depth ty slot)
        load M llvm slot

def nicheTag (niche : Niche) (field : Val) (nullary full : Nat) : Val :=
  match niche with
  | .negativeLength => select (negative field) nullary full
  | .nullPointer | .nullDescriptor => select (isNull field) nullary full

def tagValue (ty : Ty) (union : Val) : Emit Val := do
  if m.recursive ty then return ← m.recursiveTag M depth ty union
  match ← m.unionLayout depth ty with
  | .niche niche _ nullary full =>
    let field := match niche with
      | .negativeLength => union.field 1
      | .nullPointer => union
      | .nullDescriptor => union.field 0
    return nicheTag niche field nullary full
  | .enum => return zext union
  | _ => return zext (union.field 0)

def tagType (ty : Ty) : Llvm := .int (8 * m.tagWidth ty)

def loadTag (ty : Ty) (slot : Nat) : Emit Val := do
  if m.recursive ty then
    let node ← load M .ptr slot
    return ← m.recursiveTag M depth ty node
  match ← m.unionLayout depth ty with
  | .niche niche _ nullary full =>
    match niche with
    | .negativeLength =>
      let llvm ← m.ty depth ty
      return nicheTag niche (← load M (.int 64) (getelementptr M llvm slot 1)) nullary full
    | .nullPointer | .nullDescriptor => return nicheTag niche (← load M .ptr slot) nullary full
  | _ => return zext (← load M (m.tagType ty) slot)

def payloadValue (ty : Ty) (union : Val) (payload : Ty) : Emit Val := do
  let type ← m.ty depth payload
  if m.recursive ty then
    let body ← m.nodeType depth ty
    return ← load M type (getelementptr M body (← address union) 4)
  match ← m.unionLayout depth ty with
  | .enum => failure
  | .common _ => return union.field 1
  | .general .. =>
    let slot ← m.spill M depth ty union
    load M type (← m.payloadPointer M depth ty slot)
  | .niche .. => return union

end CheckedModule

end Tsuzuri.Layout
