import Tsuzuri.ChunkVec

/-!
# Ordered collections in chunks (`std/Map.tz`, `std/Set.tz`)

`Map` and `Set` keep their elements in ascending order in the chunks `head` and `rest`. The two files differ only in
what an element is: `key` gives its key.
-/

namespace Tsuzuri

open FaultVec

/-- The `Eq` and `Ord` instances of a key type. -/
structure KeyOrder (κ : Type) where
  eq : κ → κ → Bool
  lt : κ → κ → Bool

/-- `Ord.lt` is a strict order whose incomparable keys are interchangeable, and `Eq.eq` is reflexive. -/
structure KeyOrder.Lawful {κ : Type} (ord : KeyOrder κ) : Prop where
  eq_refl : ∀ a, ord.eq a a = true
  irrefl : ∀ a, ord.lt a a = false
  trans : ∀ a b c, ord.lt a b = true → ord.lt b c = true → ord.lt a c = true
  cotrans : ∀ a b c, ord.lt a b = true → ord.lt a c = true ∨ ord.lt c b = true

structure Chunked (α : Type) where
  head : List α
  rest : List (List α)
  length : Int
deriving DecidableEq

namespace Chunked

variable {α κ : Type}

def maxChunk : Int := 512

def mergeLimit : Int := 256

def empty : Chunked α :=
  { head := [], rest := [], length := 0 }

def singleton (item : α) : Chunked α :=
  { head := [item], rest := [], length := 1 }

def chunkTotal (chunks : Chunked α) : Int :=
  if chunks.length = 0 then 0 else 1 + chunks.rest.length

def chunkOf (chunks : Chunked α) (index : Int) : Exec (List α) :=
  if index = 0 then .ok chunks.head else FaultVec.index chunks.rest (index - 1)

section Search

variable (ord : KeyOrder κ) (key : α → κ)

def chunkBelow (chunks : Chunked α) (target : κ) (middle : Int) : Exec Bool := do
  let chunk ← chunkOf chunks middle
  let last ← FaultVec.index chunk (chunk.length - 1)
  assert (ord.eq (key last) (key last))
  .ok (ord.lt (key last) target)

def entryBelow (entries : List α) (target : κ) (middle : Int) : Exec Bool := do
  let item ← FaultVec.index entries middle
  assert (ord.eq (key item) (key item))
  .ok (ord.lt (key item) target)

/-- Whether the element at `start` of a chunk has the key. -/
def hasKeyAt (entries : List α) (target : κ) (start : Int) : Exec Bool :=
  if start < entries.length then do
    let item ← FaultVec.index entries start
    .ok (!ord.lt target (key item))
  else .ok false

def locate (chunks : Chunked α) (target : κ) : Exec (Int × Int) := do
  assert (ord.eq target target)
  let total := chunkTotal chunks
  if total = 0 then .ok (0, -1)
  else do
    let low ← bisect (total.toNat + 1) (chunkBelow ord key chunks target) 0 (total - 1)
    let entries ← chunkOf chunks low
    let start ← bisect (entries.length + 1) (entryBelow ord key entries target) 0 entries.length
    let present ← hasKeyAt ord key entries target start
    .ok (low, if present then start else -1 - start)

def beyondLast (chunks : Chunked α) (target : κ) : Exec Bool := do
  assert (ord.eq target target)
  if chunks.length = 0 then .ok false
  else do
    let entries ← chunkOf chunks (chunkTotal chunks - 1)
    let last ← FaultVec.index entries (entries.length - 1)
    assert (ord.eq (key last) (key last))
    .ok (ord.lt (key last) target)

end Search

/-! ## Changing chunks -/

def takeChunk (chunks : Chunked α) (index : Int) : Exec (Chunked α × List α) :=
  if index = 0 then .ok ({ chunks with head := [] }, chunks.head)
  else do
    let (others, chunk) ← ChunkVec.take chunks.rest (index - 1)
    .ok ({ chunks with rest := others }, chunk)

def putChunk (chunks : Chunked α) (index : Int) (chunk : List α) (count : Int) : Exec (Chunked α) :=
  if index = 0 then .ok { chunks with head := chunk, length := count }
  else do
    let rest ← ChunkVec.put chunks.rest (index - 1) chunk
    .ok { chunks with rest, length := count }

def splitChunk (entries : List α) (offset : Int) (item : α) : Exec (List α × List α) := do
  let middle : Int := (entries.length : Int) / 2
  let (left, right) ← ChunkVec.splitOff entries middle
  if offset ≤ middle then do
    let left ← ChunkVec.insertAt left offset item
    .ok (left, right)
  else do
    let right ← ChunkVec.insertAt right (offset - middle) item
    .ok (left, right)

/-- `add_entry` and `add_key`. -/
def addEntry (chunks : Chunked α) (chunk offset : Int) (item : α) : Exec (Chunked α) := do
  let count := chunks.length
  if count = 0 then .ok { head := [item], rest := [], length := 1 }
  else do
    let total := chunkTotal chunks
    let entries ← chunkOf chunks chunk
    let size : Int := entries.length
    if size < maxChunk then do
      let (hole, entries) ← takeChunk chunks chunk
      let entries ← ChunkVec.insertAt entries offset item
      putChunk hole chunk entries (count + 1)
    else if chunk = total - 1 ∧ offset = size then
      .ok { chunks with rest := chunks.rest ++ [[item]], length := count + 1 }
    else do
      let (hole, entries) ← takeChunk chunks chunk
      let (left, right) ← splitChunk entries offset item
      let restored ← putChunk hole chunk left (count + 1)
      let rest ← ChunkVec.insertAt restored.rest chunk right
      .ok { restored with rest, length := count + 1 }

/-- `insert`, with what it does when the element at a chunk and an offset has the key. -/
def insertWith (ord : KeyOrder κ) (key : α → κ) (present : Int → Int → Exec (Chunked α)) (item : α)
    (chunks : Chunked α) : Exec (Chunked α) := do
  let beyond ← beyondLast ord key chunks (key item)
  if beyond then do
    let chunk := chunkTotal chunks - 1
    let entries ← chunkOf chunks chunk
    addEntry chunks chunk entries.length item
  else do
    let (chunk, offset) ← locate ord key chunks (key item)
    if 0 ≤ offset then present chunk offset
    else addEntry chunks chunk (-1 - offset) item

def mergeNext (chunks : Chunked α) (index : Int) : Exec (Chunked α) := do
  let count := chunks.length
  let (others, tail) ← ChunkVec.removeAt chunks.rest index
  let (hole, entries) ← takeChunk { chunks with rest := others } index
  let entries ← ChunkVec.join entries tail
  putChunk hole index entries count

def mergesBefore (chunks : Chunked α) (index size : Int) : Exec Bool :=
  if 0 < index then do
    let entries ← chunkOf chunks (index - 1)
    .ok (decide ((entries.length : Int) + size ≤ mergeLimit))
  else .ok false

def mergesAfter (chunks : Chunked α) (index size : Int) : Exec Bool :=
  if index + 1 < chunkTotal chunks then do
    let entries ← chunkOf chunks (index + 1)
    .ok (decide (size + entries.length ≤ mergeLimit))
  else .ok false

def shrink (chunks : Chunked α) (index : Int) : Exec (Chunked α) := do
  let entries ← chunkOf chunks index
  let size : Int := entries.length
  let before ← mergesBefore chunks index size
  if before then mergeNext chunks (index - 1)
  else do
    let after ← mergesAfter chunks index size
    if after then mergeNext chunks index
    else .ok chunks

def deleteChunk (chunks : Chunked α) (index : Int) : Exec (Chunked α) := do
  let count := chunks.length - 1
  if index = 0 then
    if chunks.rest.length = 0 then .ok { head := [], rest := [], length := 0 }
    else do
      let (others, first) ← ChunkVec.removeAt chunks.rest 0
      .ok { head := first, rest := others, length := count }
  else do
    let (others, _) ← ChunkVec.removeAt chunks.rest (index - 1)
    .ok { head := chunks.head, rest := others, length := count }

def remove (ord : KeyOrder κ) (key : α → κ) (target : κ) (chunks : Chunked α) : Exec (Chunked α) := do
  let (chunk, offset) ← locate ord key chunks target
  if 0 ≤ offset then do
    let count := chunks.length
    let entries ← chunkOf chunks chunk
    if entries.length = 1 then deleteChunk chunks chunk
    else do
      let (hole, entries) ← takeChunk chunks chunk
      let (remaining, _) ← ChunkVec.removeAt entries offset
      let smaller ← putChunk hole chunk remaining (count - 1)
      shrink smaller chunk
  else .ok chunks

/-! ## Reading -/

def contains (ord : KeyOrder κ) (key : α → κ) (target : κ) (chunks : Chunked α) : Exec Bool := do
  let (_, offset) ← locate ord key chunks target
  .ok (decide (0 ≤ offset))

def get (ord : KeyOrder κ) (key : α → κ) (target : κ) (chunks : Chunked α) : Exec (Option α) := do
  let (chunk, offset) ← locate ord key chunks target
  if 0 ≤ offset then do
    let entries ← chunkOf chunks chunk
    let item ← FaultVec.index entries offset
    .ok (some item)
  else .ok none

/-- The loop of `append_pairs`, `append_keys` and `append_values`. -/
def appendItems (output entries : List α) : List α :=
  entries.foldl (fun result item => result ++ [item]) output

/-- The elements in order, as `to_array` collects them. -/
def toArray (chunks : Chunked α) : List α :=
  chunks.rest.foldl appendItems (appendItems [] chunks.head)

/-- The loop of `fold` over `remaining` chunks from `chunk` on. -/
def foldFrom {σ : Type} (folder : σ → α → σ) (chunks : Chunked α) : Nat → Int → σ → Exec σ
  | 0, _, state => .ok state
  | remaining + 1, chunk, state => do
    let entries ← chunkOf chunks chunk
    foldFrom folder chunks remaining (chunk + 1) (entries.foldl folder state)

def fold {σ : Type} (folder : σ → α → σ) (initial : σ) (chunks : Chunked α) : Exec σ :=
  foldFrom folder chunks (chunkTotal chunks).toNat 0 initial

section Invariants

variable (ord : KeyOrder κ) (key : α → κ)

def ascending : List α → Bool
  | a :: b :: rest => ord.lt (key a) (key b) && ascending (b :: rest)
  | _ => true

/-- What `invariants_hold` asks of a chunk and the one before it. -/
def boundary (chunks : Chunked α) (chunk : Int) (entries : List α) : Exec Bool :=
  if 0 < chunk then do
    let before ← chunkOf chunks (chunk - 1)
    let apart := decide (mergeLimit < (before.length : Int) + entries.length)
    if 0 < entries.length then do
      let last ← FaultVec.index before (before.length - 1)
      let first ← FaultVec.index entries 0
      .ok (apart && ord.lt (key last) (key first))
    else .ok apart
  else .ok true

def invariantsFrom (chunks : Chunked α) : Nat → Int → Bool × Int → Exec (Bool × Int)
  | 0, _, state => .ok state
  | remaining + 1, chunk, (valid, sum) => do
    let entries ← chunkOf chunks chunk
    let sized := decide (1 ≤ entries.length) && decide ((entries.length : Int) ≤ maxChunk)
    let apart ← boundary ord key chunks chunk entries
    invariantsFrom chunks remaining (chunk + 1)
      (valid && sized && apart && ascending ord key entries, sum + entries.length)

def invariantsHold (chunks : Chunked α) : Exec Bool := do
  let start := decide (0 < chunks.length) ||
    (decide (chunks.head.length = 0) && decide (chunks.rest.length = 0))
  let (valid, sum) ← invariantsFrom ord key chunks (chunkTotal chunks).toNat 0 (start, 0)
  .ok (valid && decide (sum = chunks.length))

end Invariants

end Chunked

end Tsuzuri
