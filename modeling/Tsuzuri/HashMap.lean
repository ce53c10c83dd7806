import Tsuzuri.LinearProbing

/-!
# Hash maps (`std/HashMap.tz`)

The entries stand in a dense vector; `slots` is a table with linear probing that holds their indices, and -1 in an
empty slot. The lengths of the vectors are unbounded.
-/

namespace Tsuzuri

open FaultVec LinearProbing

/-- The `Eq` and `Hash` instances of a key type. -/
structure KeyOps (κ : Type) where
  eq : κ → κ → Bool
  hash : κ → UInt64

/-- `Eq` is an equivalence and equal keys have equal hashes. -/
structure KeyOps.Lawful {κ : Type} (ops : KeyOps κ) : Prop where
  refl : ∀ a, ops.eq a a = true
  symm : ∀ a b, ops.eq a b = true → ops.eq b a = true
  trans : ∀ a b c, ops.eq a b = true → ops.eq b c = true → ops.eq a c = true
  hash_eq : ∀ a b, ops.eq a b = true → ops.hash a = ops.hash b

structure HashMap.Entry (κ ν : Type) where
  hash : Int
  key : κ
  value : ν

structure HashMap (κ ν : Type) where
  entries : List (HashMap.Entry κ ν)
  slots : List Int
  key0 : UInt64
  key1 : UInt64
  keyed : Bool

namespace HashMap

variable {κ ν : Type}

def asI64 (word : UInt64) : Int :=
  word.toBitVec.toInt

def rotateLeft (word count : UInt64) : UInt64 :=
  (word <<< count) ||| (word >>> (64 - count))

def mix (hash : UInt64) : Int :=
  let first := (hash ^^^ (hash >>> 33)) * 0xff51afd7ed558ccd
  let second := (first ^^^ (first >>> 33)) * 0xc4ceb9fe1a85ec53
  asI64 (second ^^^ (second >>> 33))

structure SipState where
  v0 : UInt64
  v1 : UInt64
  v2 : UInt64
  v3 : UInt64

def sipRound (state : SipState) : SipState :=
  let a0 := state.v0 + state.v1
  let a1 := rotateLeft state.v1 13 ^^^ a0
  let a2 := state.v2 + state.v3
  let a3 := rotateLeft state.v3 16 ^^^ a2
  let b0 := rotateLeft a0 32 + a3
  let b3 := rotateLeft a3 21 ^^^ b0
  let b2 := a2 + a1
  let b1 := rotateLeft a1 17 ^^^ b2
  { v0 := b0, v1 := b1, v2 := rotateLeft b2 32, v3 := b3 }

/-- SipHash-1-3 of one word under the key `key0`, `key1`. -/
def sip13 (key0 key1 message : UInt64) : UInt64 :=
  let start : SipState :=
    { v0 := key0 ^^^ 0x736f6d6570736575, v1 := key1 ^^^ 0x646f72616e646f6d,
      v2 := key0 ^^^ 0x6c7967656e657261, v3 := key1 ^^^ 0x7465646279746573 }
  let first := sipRound { start with v3 := start.v3 ^^^ message }
  let second := sipRound { first with v0 := first.v0 ^^^ message, v3 := first.v3 ^^^ 0x0800000000000000 }
  let state := { second with v0 := second.v0 ^^^ 0x0800000000000000, v2 := second.v2 ^^^ 0xff }
  let final := sipRound (sipRound (sipRound state))
  final.v0 ^^^ final.v1 ^^^ final.v2 ^^^ final.v3

def splitMix (seed : UInt64) : UInt64 :=
  let state := seed + 0x9e3779b97f4a7c15
  let first := (state ^^^ (state >>> 30)) * 0xbf58476d1ce4e5b9
  let second := (first ^^^ (first >>> 27)) * 0x94d049bb133111eb
  second ^^^ (second >>> 31)

/-- The hash that the map keeps for a key, without the assertion of `hash_of`. -/
def keyHash (ops : KeyOps κ) (map : HashMap κ ν) (key : κ) : Int :=
  if map.keyed then asI64 (sip13 map.key0 map.key1 (ops.hash key)) else mix (ops.hash key)

def hashOf (ops : KeyOps κ) (map : HashMap κ ν) (key : κ) : Exec Int := do
  assert (ops.eq key key)
  .ok (keyHash ops map key)

def tableSize (count : Int) : Exec Int := do
  assert (0 ≤ count && count ≤ 1152921504606846976)
  loop 64 (fun size => if size < 2 * count then .ok (.go (size * 2)) else .ok (.leave size)) 8

def emptySlots (size : Int) : List Int :=
  List.replicate size.toNat (-1)

def locate (slots : List Int) (hash index : Int) : Exec Int :=
  scan slots (fun value => .ok (value == index)) (Int.land hash (slots.length - 1))

/-- The loop of `rebuild` over the entries from `index` on. -/
def rebuildFrom (slots : List Int) (index : Int) : List (Entry κ ν) → Exec (List Int)
  | [] => .ok slots
  | entry :: rest => do
    let position ← locate slots entry.hash (-1)
    let slots ← FaultVec.set position index slots
    rebuildFrom slots (index + 1) rest

def rebuild (entries : List (Entry κ ν)) (size : Int) : Exec (List Int) :=
  rebuildFrom (emptySlots size) 0 entries

/-- Whether a probe for `key` stops at a slot: it is empty, or its entry has the key. -/
def probeStop (ops : KeyOps κ) (map : HashMap κ ν) (key : κ) (hash value : Int) : Exec Bool :=
  if 0 ≤ value then do
    let entry ← index map.entries value
    .ok (entry.hash == hash && ops.eq entry.key key)
  else .ok true

def probe (ops : KeyOps κ) (map : HashMap κ ν) (key : κ) (hash : Int) : Exec Int :=
  scan map.slots (probeStop ops map key hash) (Int.land hash (map.slots.length - 1))

def find (ops : KeyOps κ) (map : HashMap κ ν) (key : κ) : Exec Int := do
  let hash ← hashOf ops map key
  if map.slots.length = 0 then .ok (-1)
  else do
    let position ← probe ops map key hash
    index map.slots position

def empty : HashMap κ ν :=
  { entries := [], slots := [], key0 := 0, key1 := 0, keyed := false }

def withCapacity (count : Int) : Exec (HashMap κ ν) := do
  let size ← tableSize count
  if count = 0 then .ok empty
  else .ok { entries := [], slots := emptySlots size, key0 := 0, key1 := 0, keyed := false }

def withSeed (seed : UInt64) : HashMap κ ν :=
  { entries := [], slots := [], key0 := splitMix seed,
    key1 := splitMix (seed + 0x9e3779b97f4a7c15), keyed := true }

def withCapacityAndSeed (count : Int) (seed : UInt64) : Exec (HashMap κ ν) := do
  let size ← tableSize count
  if count = 0 then .ok (withSeed seed)
  else .ok { entries := [], slots := emptySlots size, key0 := splitMix seed,
             key1 := splitMix (seed + 0x9e3779b97f4a7c15), keyed := true }

def length (map : HashMap κ ν) : Int :=
  map.entries.length

def containsKey (ops : KeyOps κ) (key : κ) (map : HashMap κ ν) : Exec Bool := do
  let found ← find ops map key
  .ok (0 ≤ found)

def get (ops : KeyOps κ) (key : κ) (map : HashMap κ ν) : Exec (Option ν) := do
  let found ← find ops map key
  if 0 ≤ found then do
    let entry ← index map.entries found
    .ok (some entry.value)
  else .ok none

/-- `to_array`, which is also the order of `iter`, `fold`, `keys` and `values`. -/
def toArray (map : HashMap κ ν) : List (κ × ν) :=
  map.entries.map fun entry => (entry.key, entry.value)

/-! ## Insertion and removal -/

def found (ops : KeyOps κ) (map : HashMap κ ν) (key : κ) (hash : Int) : Exec Int :=
  if map.slots.length = 0 then .ok (-1)
  else do
    let position ← probe ops map key hash
    index map.slots position

def grow (map : HashMap κ ν) : Exec (List Int) :=
  let size : Int := map.slots.length
  if 2 * (length map + 1) > size then rebuild map.entries (if size = 0 then 8 else size * 2)
  else .ok map.slots

def insert (ops : KeyOps κ) (key : κ) (value : ν) (map : HashMap κ ν) : Exec (HashMap κ ν) := do
  let hash ← hashOf ops map key
  let count := length map
  let target ← found ops map key hash
  if 0 ≤ target then do
    let swapped ← swap target (count - 1) map.entries
    match pop swapped with
    | (remaining, some old) => do
      let replacement := { old with value }
      let entries ← swap target (count - 1) (remaining ++ [replacement])
      .ok { map with entries }
    | (_, none) => .error .unreachable
  else do
    let grown ← grow map
    let position ← locate grown hash (-1)
    let slots ← FaultVec.set position count grown
    .ok { map with entries := map.entries ++ [{ hash, key, value }], slots }

def unlinkStep (entries : List (Entry κ ν)) (mask : Int) :
    List Int × Int × Int → Exec (Turn (List Int × Int × Int) (List Int))
  | (current, hole, position) => do
    let value ← index current position
    if 0 ≤ value then do
      let entry ← index entries value
      let ideal := Int.land entry.hash mask
      if Int.land (position - hole) mask ≤ Int.land (position - ideal) mask then do
        let moved ← FaultVec.set hole value current
        .ok (.go (moved, position, Int.land (position + 1) mask))
      else .ok (.go (current, hole, Int.land (position + 1) mask))
    else do
      let closed ← FaultVec.set hole (-1) current
      .ok (.leave closed)

def unlink (entries : List (Entry κ ν)) (slots : List Int) (start : Int) : Exec (List Int) :=
  let mask : Int := slots.length - 1
  loop (slots.length + 1) (unlinkStep entries mask) (slots, start, Int.land (start + 1) mask)

def relink (entries : List (Entry κ ν)) (unlinked : List Int) (target last : Int) : Exec (List Int) :=
  if target = last then .ok unlinked
  else do
    let entry ← index entries last
    let position ← locate unlinked entry.hash last
    FaultVec.set position target unlinked

def removeRef (ops : KeyOps κ) (key : κ) (map : HashMap κ ν) : Exec (HashMap κ ν) := do
  let hash ← hashOf ops map key
  let count := length map
  if count = 0 then .ok map
  else do
    let slot ← probe ops map key hash
    let target ← index map.slots slot
    if target < 0 then .ok map
    else do
      let last := count - 1
      let unlinked ← unlink map.entries map.slots slot
      let slots ← relink map.entries unlinked target last
      let swapped ← swap target last map.entries
      .ok { map with entries := (pop swapped).1, slots }

/-! ## Runs -/

/-- The constructors that make a map without asking the operating system. -/
inductive Maker where
  | empty
  | withCapacity (count : Int)
  | withSeed (seed : UInt64)
  | withCapacityAndSeed (count : Int) (seed : UInt64)

def Maker.make : Maker → Exec (HashMap κ ν)
  | .empty => .ok HashMap.empty
  | .withCapacity count => HashMap.withCapacity count
  | .withSeed seed => .ok (HashMap.withSeed seed)
  | .withCapacityAndSeed count seed => HashMap.withCapacityAndSeed count seed

inductive Op (κ ν : Type) where
  | insert (key : κ) (value : ν)
  | remove (key : κ)
  | get (key : κ)
  | containsKey (key : κ)
  | length
  | toArray

/-- What an operation shows to the program. -/
inductive Output (κ ν : Type) where
  | done
  | value (value : Option ν)
  | flag (flag : Bool)
  | count (count : Int)
  | entries (entries : List (κ × ν))

def step (ops : KeyOps κ) (map : HashMap κ ν) : Op κ ν → Exec (HashMap κ ν × Output κ ν)
  | .insert key value => do
    let next ← insert ops key value map
    .ok (next, .done)
  | .remove key => do
    let next ← removeRef ops key map
    .ok (next, .done)
  | .get key => do
    let value ← get ops key map
    .ok (map, .value value)
  | .containsKey key => do
    let flag ← containsKey ops key map
    .ok (map, .flag flag)
  | .length => .ok (map, .count (length map))
  | .toArray => .ok (map, .entries (toArray map))

def run (ops : KeyOps κ) (map : HashMap κ ν) : List (Op κ ν) → Exec (HashMap κ ν × List (Output κ ν))
  | [] => .ok (map, [])
  | op :: rest => do
    let (next, output) ← step ops map op
    let (final, outputs) ← run ops next rest
    .ok (final, output :: outputs)

end HashMap

end Tsuzuri
