import Tsuzuri.FaultVec

/-!
# Generational arenas (`std/Arena.tz`)

An arena keeps its values dense and names them by handles.
-/

namespace Tsuzuri

open FaultVec

/-- In use, `position` is the dense index of the value and `generation` that of its handle. -/
structure Arena.Slot where
  position : Int
  generation : Int
deriving DecidableEq

structure Arena (α : Type) where
  id : Int
  values : List α
  owners : List Int
  slots : List Arena.Slot
  free : Int
deriving DecidableEq

structure Arena.Handle where
  arena : Int
  index : Int
  generation : Int
deriving DecidableEq

namespace Arena

variable {α : Type}

def empty (id : Int) : Arena α :=
  { id, values := [], owners := [], slots := [], free := -1 }

def length (arena : Arena α) : Int :=
  arena.values.length

def position (arena : Arena α) (handle : Handle) : Int :=
  if handle.arena = arena.id then
    match FaultVec.get handle.index arena.slots with
    | some slot => if slot.generation = handle.generation then slot.position else -1
    | none => -1
  else -1

def contains (handle : Handle) (arena : Arena α) : Bool :=
  0 ≤ position arena handle

def get (handle : Handle) (arena : Arena α) : Exec (Option α) :=
  let target := position arena handle
  if 0 ≤ target then do
    let value ← index arena.values target
    .ok (some value)
  else .ok none

def at' (handle : Handle) (arena : Arena α) : Exec α := do
  let target := position arena handle
  assert (0 ≤ target)
  index arena.values target

def insert (value : α) (arena : Arena α) : Exec (Arena α × Handle) := do
  let nextPosition : Int := arena.values.length
  if arena.free < 0 then
    let slotIndex : Int := arena.slots.length
    let values ← push value arena.values
    let owners ← push slotIndex arena.owners
    let slots ← push { position := nextPosition, generation := 0 } arena.slots
    .ok ({ arena with values, owners, slots }, { arena := arena.id, index := slotIndex, generation := 0 })
  else
    let slot ← force (FaultVec.get arena.free arena.slots)
    let generation ← checked (-1 - slot.generation)
    let values ← push value arena.values
    let owners ← push arena.free arena.owners
    let slots ← FaultVec.set arena.free { position := nextPosition, generation } arena.slots
    .ok ({ arena with values, owners, slots, free := slot.position },
      { arena := arena.id, index := arena.free, generation })

/-- The slot that `remove` leaves behind: the head of the free list, or retired at the last generation. -/
def vacatedSlot (free : Int) (handle : Handle) : Exec Slot :=
  if handle.generation = i64Max then .ok { position := -1, generation := -1 }
  else do
    let generation ← checked (-2 - handle.generation)
    .ok { position := free, generation }

def remove (handle : Handle) (arena : Arena α) : Exec (Arena α × Option α) := do
  let target := position arena handle
  if target < 0 then .ok (arena, none)
  else
    let last ← checked (arena.values.length - 1)
    let moved ← index arena.owners last
    let movedSlot ← force (FaultVec.get moved arena.slots)
    -- the moved value's slot is relinked before the handle's slot is vacated, which also covers
    -- removing the last value
    let relinked ← FaultVec.set moved { position := target, generation := movedSlot.generation } arena.slots
    let vacant ← vacatedSlot arena.free handle
    let vacated ← FaultVec.set handle.index vacant relinked
    let values ← swap target last arena.values
    match pop values with
    | (remaining, some value) =>
      let owners ← swap target last arena.owners
      .ok ({ arena with
        values := remaining, owners := (pop owners).1, slots := vacated,
        free := if handle.generation = i64Max then arena.free else handle.index }, some value)
    | (_, none) => .error .unreachable

def update (handle : Handle) (change : α → α) (arena : Arena α) : Exec (Arena α) := do
  let target := position arena handle
  assert (0 ≤ target)
  let last ← checked (arena.values.length - 1)
  let values ← swap target last arena.values
  match pop values with
  | (remaining, some value) =>
    let changed ← push (change value) remaining
    let values ← swap target last changed
    .ok { arena with values }
  | (_, none) => .error .unreachable

def handleAt (arena : Arena α) (dense : Int) : Exec Handle := do
  let slotIndex ← index arena.owners dense
  let slot ← index arena.slots slotIndex
  .ok { arena := arena.id, index := slotIndex, generation := slot.generation }

/-! ## Runs -/

inductive Op (α : Type) where
  | insert (value : α)
  | remove (handle : Handle)
  | update (handle : Handle) (change : α → α)

def step (arena : Arena α) : Op α → Exec (Arena α × Option Handle)
  | .insert value => do
    let (next, handle) ← insert value arena
    .ok (next, some handle)
  | .remove handle => do
    let (next, _) ← remove handle arena
    .ok (next, none)
  | .update handle change => do
    let next ← update handle change arena
    .ok (next, none)

def run (arena : Arena α) : List (Op α) → Exec (Arena α)
  | [] => .ok arena
  | op :: ops => do
    let (next, _) ← step arena op
    run next ops

def Op.handle? : Op α → Option Handle
  | .insert _ => none
  | .remove handle => some handle
  | .update handle _ => some handle

mutual

/-- The arenas that operations with issued handles produce. -/
inductive Reachable (α : Type) : Arena α → Prop where
  | empty (id : Int) : Reachable α (Arena.empty id)
  | step {arena next : Arena α} {op : Op α} {made : Option Handle} :
      Reachable α arena → (∀ handle, op.handle? = some handle → Issued α handle) →
      Arena.step arena op = .ok (next, made) → Reachable α next

/-- The handles that an insertion into some arena of the same element type returned. -/
inductive Issued (α : Type) : Handle → Prop where
  | insert {arena next : Arena α} {value : α} {handle : Handle} :
      Reachable α arena → Arena.insert value arena = .ok (next, handle) → Issued α handle

end

end Arena

end Tsuzuri
