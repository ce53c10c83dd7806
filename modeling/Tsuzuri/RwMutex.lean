import Mathlib.Algebra.Group.Nat.Defs
import Tsuzuri.ParkingLot

/-!
# RwMutex

Many readers or one writer, in one word: bits 0 to 31 count the readers, bits 32 to 62 the writers that wait, and
bit 63 says that a writer holds it.
-/

namespace Tsuzuri.RwMutex

open Parking ParkingLot Transition

def WRITER : Nat := 1 <<< 63

def WAITER : Nat := 1 <<< 32

def WAITERS : Nat := WRITER - WAITER

def READERS : Nat := WAITER - 1

@[irreducible] def wrap (word : Nat) : Nat := word % 2 ^ 64

/-- What a party holds of a lock. -/
inductive Hold where
  | free
  | read
  | write
deriving DecidableEq

inductive Op where
  | readLock
  | readUnlock
  | writeLock
  | writeUnlock

/-- The points of the operations, each before an atomic operation, a wait or a wake. -/
inductive Code where
  | again (hold : Hold)
  | readLoad
  | readTake (s : Nat)
  | readWait (s : Nat)
  | readUnlock
  | readWake
  | writeLoad (counted : Bool)
  | writeTake (s : Nat) (counted : Bool)
  | writeCount (s : Nat)
  | writeWait (s : Nat)
  | giveUp
  | writeUnlock
  | writeWake
deriving DecidableEq

/-- A `G` that holds the lock in some mode is not let in again. -/
def start : Hold → Op → Option Code
  | .free, .readLock => some .readLoad
  | .free, .writeLock => some (.writeLoad false)
  | hold, .readLock => some (.again hold)
  | hold, .writeLock => some (.again hold)
  | .read, .readUnlock => some .readUnlock
  | .write, .writeUnlock => some .writeUnlock
  | _, _ => none

def instr : Code → Instr Code Hold
  | .again hold => .atomic fun word => [(word, .ends hold 1)]
  | .readLoad => .atomic fun s =>
    [(s, .goto (if s &&& (WRITER ||| WAITERS) = 0 then .readTake s else .readWait s))]
  | .readTake s => .atomic (exchange s (wrap (s + 1)) (.ends .read 0) (.goto .readLoad))
  | .readWait s => .wait s .readLoad (.ends .free 2)
  | .readUnlock => .atomic fun word =>
    let s := wrap (word + 2 ^ 64 - 1)
    [(s, if s &&& READERS = 0 ∧ s &&& WAITERS ≠ 0 then .goto .readWake else .ends .free 0)]
  | .readWake => .wake none (.ends .free 0)
  | .writeLoad counted => .atomic fun s =>
    [(s, .goto (if s &&& (WRITER ||| READERS) = 0 then .writeTake s counted
      else if counted then .writeWait s else .writeCount s))]
  | .writeTake s counted => .atomic (exchange s ((s ||| WRITER) - if counted then WAITER else 0)
      (.ends .write 0) (.goto (.writeLoad counted)))
  | .writeCount s => .atomic (exchange s (wrap (s + WAITER)) (.goto (.writeWait (wrap (s + WAITER))))
      (.goto (.writeLoad false)))
  | .writeWait s => .wait s (.writeLoad true) (.goto .giveUp)
  | .giveUp => .atomic fun word => [(wrap (word + 2 ^ 64 - WAITER), .ends .free 2)]
  | .writeUnlock => .atomic fun word => [(word &&& (2 ^ 64 - 1 - WRITER), .goto .writeWake)]
  | .writeWake => .wake none (.ends .free 0)

abbrev rwMutex : Prim where
  Idle := Hold
  Op := Op
  Code := Code
  start := start
  instr := instr

end Tsuzuri.RwMutex
