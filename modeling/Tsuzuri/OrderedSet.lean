import Tsuzuri.Chunked

/-!
# The ordered set (`std/Set.tz`)

`Set` keeps keys in the chunks of `Tsuzuri.Chunked`.
-/

namespace Tsuzuri.OrderedSet

open FaultVec Chunked

variable {κ : Type}

def bulkFill : Int := 384

def empty : Chunked κ := Chunked.empty

def singleton (key : κ) : Chunked κ := Chunked.singleton key

section Operations

variable (ord : KeyOrder κ)

def insert (key : κ) (set : Chunked κ) : Exec (Chunked κ) :=
  insertWith ord id (fun _ _ => .ok set) key set

def remove (key : κ) (set : Chunked κ) : Exec (Chunked κ) :=
  Chunked.remove ord id key set

def contains (key : κ) (set : Chunked κ) : Exec Bool :=
  Chunked.contains ord id key set

def toArray (set : Chunked κ) : Exec (List κ) := do
  let output ← withCapacity set.length
  .ok (output ++ Chunked.toArray set)

def invariantsHold (set : Chunked κ) : Exec Bool :=
  Chunked.invariantsHold ord id set

def compareKeys (left right : κ) : Exec Int := do
  assert (ord.eq left left && ord.eq right right)
  .ok (if ord.lt left right then -1 else if ord.lt right left then 1 else 0)

end Operations

def chunkList (set : Chunked κ) : Exec (List (List κ)) :=
  if set.length = 0 then .ok [] else ChunkVec.insertAt set.rest 0 set.head

def refill (chunks : List (List κ)) (keys : List κ) : List (List κ) × List κ :=
  if 0 < keys.length then (chunks, keys)
  else
    match pop chunks with
    | (rest, some chunk) => (rest, chunk)
    | (rest, none) => (rest, keys)

def fromChunks (chunks : List (List κ)) (total : Int) : Exec (Chunked κ) :=
  if total = 0 then .ok { head := [], rest := [], length := 0 }
  else do
    let (others, first) ← ChunkVec.removeAt chunks 0
    .ok { head := first, rest := others, length := total }

/-! ## Union -/

structure Merge (κ : Type) where
  leftChunks : List (List κ)
  rightChunks : List (List κ)
  leftKeys : List κ
  rightKeys : List κ
  finished : List (List κ)
  current : List κ
  total : Int

section Union

variable (ord : KeyOrder κ)

def lastOrder (leftKeys rightKeys : List κ) : Exec Int :=
  if leftKeys.length = 0 then .ok (-1)
  else if rightKeys.length = 0 then .ok 1
  else do
    let left ← FaultVec.index leftKeys (leftKeys.length - 1)
    let right ← FaultVec.index rightKeys (rightKeys.length - 1)
    compareKeys ord left right

def takeLast (keys current : List κ) : Exec (List κ × List κ) := do
  let (remaining, value) := pop keys
  let key ← force value
  assert (ord.eq key key)
  .ok (remaining, current ++ [key])

/-- The greater of the last keys moves to `current`: the left one when they are the same. -/
def takeGreater (order : Int) (leftKeys rightKeys current : List κ) : Exec (List κ × List κ × List κ) :=
  if 0 ≤ order then do
    let (leftKeys, current) ← takeLast ord leftKeys current
    .ok (leftKeys, rightKeys, current)
  else do
    let (rightKeys, current) ← takeLast ord rightKeys current
    .ok (leftKeys, rightKeys, current)

def flushReversed (finished : List (List κ)) (current : List κ) : Exec (List (List κ) × List κ) :=
  if current.length = bulkFill then do
    let chunk ← ChunkVec.reverse current
    let current ← withCapacity bulkFill
    .ok (finished ++ [chunk], current)
  else .ok (finished, current)

def unionStep (state : Merge κ) : Exec (Turn (Merge κ) (Merge κ)) := do
  let (leftChunks, leftKeys) := refill state.leftChunks state.leftKeys
  let (rightChunks, rightKeys) := refill state.rightChunks state.rightKeys
  if leftKeys.length = 0 ∧ rightKeys.length = 0 then
    .ok (.leave { state with leftChunks, rightChunks, leftKeys, rightKeys })
  else do
    let order ← lastOrder ord leftKeys rightKeys
    let (leftKeys, rightKeys, current) ← takeGreater ord order leftKeys rightKeys state.current
    let rightKeys := if order = 0 then (pop rightKeys).1 else rightKeys
    let (finished, current) ← flushReversed state.finished current
    .ok (.go { leftChunks, rightChunks, leftKeys, rightKeys, finished, current,
               total := state.total + 1 })

/-- What is left in `current` becomes the last chunk of `finished`. -/
def finishReversed (finished : List (List κ)) (current : List κ) : Exec (List (List κ)) :=
  if 0 < current.length then do
    let chunk ← ChunkVec.reverse current
    .ok (finished ++ [chunk])
  else .ok finished

def union (left right : Chunked κ) : Exec (Chunked κ) := do
  let leftCount := left.length
  let rightCount := right.length
  assert (decide (leftCount ≤ i64Max - rightCount))
  let leftChunks ← chunkList left
  let rightChunks ← chunkList right
  let current ← withCapacity (if leftCount + rightCount < bulkFill then leftCount + rightCount else bulkFill)
  let state ← loop ((leftCount + rightCount).toNat + 1) (unionStep ord)
    { leftChunks, rightChunks, leftKeys := [], rightKeys := [], finished := [], current, total := 0 }
  let finished ← finishReversed state.finished state.current
  let chunks ← ChunkVec.reverse finished
  fromChunks chunks state.total

end Union

/-! ## Intersection and difference -/

def keyAt (set : Chunked κ) (chunk offset : Int) : Exec κ :=
  if chunk = 0 then FaultVec.index set.head offset
  else do
    let keys ← FaultVec.index set.rest (chunk - 1)
    FaultVec.index keys offset

def chunkSize (set : Chunked κ) (chunk : Int) : Exec Int :=
  if chunk = 0 then .ok set.head.length
  else do
    let keys ← FaultVec.index set.rest (chunk - 1)
    .ok keys.length

/-- A position in a set: the number of keys before it, its chunk and its offset there. -/
structure Cursor where
  index : Int
  chunk : Int
  offset : Int

def advance (set : Chunked κ) (cursor : Cursor) : Exec Cursor := do
  let size ← chunkSize set cursor.chunk
  if cursor.offset + 1 < size then
    .ok { index := cursor.index + 1, chunk := cursor.chunk, offset := cursor.offset + 1 }
  else .ok { index := cursor.index + 1, chunk := cursor.chunk + 1, offset := 0 }

def advanceWithin (set : Chunked κ) (cursor : Cursor) : Exec Cursor :=
  if cursor.index + 1 < set.length then advance set cursor
  else .ok { cursor with index := cursor.index + 1 }

structure Walk (κ : Type) where
  left : Cursor
  right : Cursor
  finished : List (List κ)
  current : List κ
  total : Int

section Select

variable (ord : KeyOrder κ)

def selectOrder (left right : Chunked κ) (state : Walk κ) : Exec Int := do
  let keys ← chunkOf left state.left.chunk
  let key ← FaultVec.index keys state.left.offset
  assert (ord.eq key key)
  if right.length ≤ state.right.index then .ok (-1)
  else do
    let other ← chunkOf right state.right.chunk
    let otherKey ← FaultVec.index other state.right.offset
    compareKeys ord key otherKey

def flush (finished : List (List κ)) (current : List κ) : Exec (List (List κ) × List κ) :=
  if current.length = bulkFill then do
    let next ← withCapacity bulkFill
    .ok (finished ++ [current], next)
  else .ok (finished, current)

def keep (left : Chunked κ) (state : Walk κ) : Exec (Walk κ) := do
  let key ← keyAt left state.left.chunk state.left.offset
  let (finished, current) ← flush state.finished (state.current ++ [key])
  .ok { state with finished, current, total := state.total + 1 }

def passLeft (left : Chunked κ) (includeEqual : Bool) (order : Int) (state : Walk κ) : Exec (Walk κ) :=
  if order ≤ 0 then do
    let state ← if decide (order = 0) = includeEqual then keep left state else .ok state
    let cursor ← advance left state.left
    .ok { state with left := cursor }
  else .ok state

def passRight (right : Chunked κ) (order : Int) (state : Walk κ) : Exec (Walk κ) :=
  if 0 ≤ order then do
    let cursor ← advanceWithin right state.right
    .ok { state with right := cursor }
  else .ok state

def selectStep (left right : Chunked κ) (includeEqual : Bool) (state : Walk κ) : Exec (Turn (Walk κ) (Walk κ)) :=
  if state.left.index < left.length then do
    let order ← selectOrder ord left right state
    let state ← passLeft left includeEqual order state
    let state ← passRight right order state
    .ok (.go state)
  else .ok (.leave state)

def select (left right : Chunked κ) (includeEqual : Bool) : Exec (Chunked κ) := do
  let leftCount := left.length
  let rightCount := right.length
  let capacity := if includeEqual ∧ rightCount < leftCount then rightCount else leftCount
  let current ← withCapacity (if capacity < bulkFill then capacity else bulkFill)
  let state ← loop ((leftCount + rightCount).toNat + 1) (selectStep ord left right includeEqual)
    { left := ⟨0, 0, 0⟩, right := ⟨0, 0, 0⟩, finished := [], current, total := 0 }
  let finished :=
    if 0 < state.current.length then state.finished ++ [state.current] else state.finished
  fromChunks finished state.total

def intersect (left right : Chunked κ) : Exec (Chunked κ) :=
  select ord left right true

def difference (left right : Chunked κ) : Exec (Chunked κ) :=
  select ord left right false

end Select

inductive SetExpr (κ : Type) where
  | empty
  | singleton (key : κ)
  | insert (key : κ) (keys : SetExpr κ)
  | remove (key : κ) (keys : SetExpr κ)
  | union (left right : SetExpr κ)
  | intersect (left right : SetExpr κ)
  | difference (left right : SetExpr κ)

def SetExpr.eval (ord : KeyOrder κ) : SetExpr κ → Exec (Chunked κ)
  | .empty => .ok OrderedSet.empty
  | .singleton key => .ok (OrderedSet.singleton key)
  | .insert key keys => do
    let keys ← keys.eval ord
    OrderedSet.insert ord key keys
  | .remove key keys => do
    let keys ← keys.eval ord
    OrderedSet.remove ord key keys
  | .union left right => do
    let left ← left.eval ord
    let right ← right.eval ord
    OrderedSet.union ord left right
  | .intersect left right => do
    let left ← left.eval ord
    let right ← right.eval ord
    OrderedSet.intersect ord left right
  | .difference left right => do
    let left ← left.eval ord
    let right ← right.eval ord
    OrderedSet.difference ord left right

end Tsuzuri.OrderedSet
