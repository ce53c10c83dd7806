import Tsuzuri.RwMutex

/-!
# Mutex, Once, WaitGroup, Cond and Semaphore

The operations on each kind of word, and the calls of a `G`, which run operations one after the other and keep the
list of the locks that it holds.
-/

namespace Tsuzuri.Sync

open Parking ParkingLot Transition
open RwMutex (wrap rwMutex Hold)

/-! ## Mutex -/

namespace Mutex

inductive Op where
  | lock
  | unlock
deriving DecidableEq

/-- The points of the operations. -/
inductive Code where
  | tryLock (held : Bool)
  | spin (held : Bool) (n : Nat)
  | spinTake (held : Bool) (n : Nat)
  | exchange (held : Bool)
  | wait (held : Bool)
  | unlock
  | wake
deriving DecidableEq

def start : Bool → Op → Option Code
  | held, .lock => some (.tryLock held)
  | true, .unlock => some .unlock
  | false, .unlock => none

def SPINS : Nat := 32

def respin (held : Bool) (n : Nat) : Code := if n + 1 < SPINS then .spin held (n + 1) else .exchange held

def instr : Code → Instr Code Bool
  | .tryLock held => .atomic fun word =>
    if word = 0 then [(1, .ends true 0)] else [(word, .goto (.spin held 0))]
  | .spin held n => .atomic fun word => [(word, .goto (if word = 0 then .spinTake held n else respin held n))]
  | .spinTake held n => .atomic (Parking.exchange 0 1 (.ends true 0) (.goto (respin held n)))
  | .exchange held => .atomic fun word => [(2, if word = 0 then .ends true 0 else .goto (.wait held))]
  | .wait held => .wait 2 (.exchange held) (.ends held 2)
  | .unlock => .atomic fun word => [(0, if word = 2 then .goto .wake else .ends false 0)]
  | .wake => .wake (some 1) (.ends false 0)

end Mutex

abbrev mutex : Prim where
  Idle := Bool
  Op := Mutex.Op
  Code := Mutex.Code
  start := Mutex.start
  instr := Mutex.instr

namespace Once

structure Caller where
  begun : Nat
  running : Bool
  passed : Bool
deriving DecidableEq

inductive Op where
  | begin
  | done
deriving DecidableEq

inductive Code where
  | load (c : Caller)
  | take (c : Caller)
  | wait (c : Caller)
  | store (c : Caller)
  | wake (c : Caller)
deriving DecidableEq

def start (c : Caller) : Op → Option Code
  | .begin => some (.load c)
  | .done => if c.running then some (.store c) else none

def instr : Code → Instr Code Caller
  | .load c => .atomic fun s =>
    [(s, if s = 2 then .ends { c with passed := true } 0 else .goto (if s = 0 then .take c else .wait c))]
  | .take c => .atomic (exchange 0 1 (.ends { c with begun := c.begun + 1, running := true } 1) (.goto (.load c)))
  | .wait c => .wait 1 (.load c) (.ends c 2)
  | .store c => .atomic fun _ => [(2, .goto (.wake { c with running := false }))]
  | .wake c => .wake none (.ends c 0)

end Once

abbrev once : Prim where
  Idle := Once.Caller
  Op := Once.Op
  Code := Once.Code
  start := Once.start
  instr := Once.instr

namespace WaitGroup

inductive Op where
  | add (delta : UInt64)
  | wait
deriving DecidableEq

inductive Code where
  | add (delta : UInt64)
  | wake
  | load
  | wait (v : Nat)
deriving DecidableEq

def start (_ : Unit) : Op → Option Code
  | .add delta => some (.add delta)
  | .wait => some .load

def instr : Code → Instr Code Unit
  | .add delta => .atomic fun word =>
    let v := wrap (word + delta.toNat)
    [(v, if 2 ^ 63 ≤ v then .ends () 1 else if v = 0 then .goto .wake else .ends () 0)]
  | .wake => .wake none (.ends () 0)
  | .load => .atomic fun v => [(v, if v = 0 then .ends () 0 else .goto (.wait v))]
  | .wait v => .wait v .load (.ends () 2)

end WaitGroup

abbrev waitGroup : Prim where
  Idle := Unit
  Op := WaitGroup.Op
  Code := WaitGroup.Code
  start := WaitGroup.start
  instr := WaitGroup.instr

namespace Cond

inductive Op where
  | wait (observed : Nat)
  | wake (count : Option Nat)
deriving DecidableEq

inductive Code where
  | wait (observed : Nat)
  | woken (observed : Nat)
  | add (count : Option Nat)
  | wake (count : Option Nat)
deriving DecidableEq

def start (_ : Unit) : Op → Option Code
  | .wait observed => some (.wait observed)
  | .wake count => some (.add count)

def instr : Code → Instr Code Unit
  | .wait observed => .wait observed (.woken observed) (.ends () 1)
  | .woken _ => .atomic fun word => [(word, .ends () 0)]
  | .add count => .atomic fun word => [(wrap (word + 1), .goto (.wake count))]
  | .wake count => .wake count (.ends () 0)

end Cond

abbrev cond : Prim where
  Idle := Unit
  Op := Cond.Op
  Code := Cond.Code
  start := Cond.start
  instr := Cond.instr

namespace Semaphore

inductive Op where
  | acquire (weight : Nat) (block : Bool)
  | release (weight : Nat)
deriving DecidableEq

/-- The points of the operations. -/
inductive Code where
  | load (net : Int) (weight : Nat) (block : Bool)
  | take (net : Int) (weight : Nat) (block : Bool) (s : Nat)
  | wait (net : Int) (weight s : Nat)
  | releaseLoad (net : Int) (weight : Nat)
  | releaseTake (net : Int) (weight s : Nat)
  | wake (net : Int)
deriving DecidableEq

def start (capacity : UInt64) (net : Int) : Op → Option Code
  | .acquire weight block => if weight ≤ capacity.toNat then some (.load net weight block) else none
  | .release weight => if weight ≤ capacity.toNat then some (.releaseLoad net weight) else none

def check (capacity : UInt64) (net : Int) (weight s : Nat) : Next Code Int :=
  if wrap (capacity.toNat + 2 ^ 64 - s) < weight then .ends net 1 else .goto (.releaseTake net weight s)

def instr (capacity : UInt64) : Code → Instr Code Int
  | .load net weight block => .atomic fun s =>
    [(s, if weight ≤ s then .goto (.take net weight block s)
      else if block then .goto (.wait net weight s) else .ends net 1)]
  | .take net weight block s => .atomic
      (exchange s (s - weight) (.ends (net + weight) 0) (.goto (.load net weight block)))
  | .wait net weight s => .wait s (.load net weight true) (.ends net 2)
  | .releaseLoad net weight => .atomic fun s => [(s, check capacity net weight s)]
  | .releaseTake net weight s => .atomic fun word =>
    exchange s (wrap (s + weight)) (.goto (.wake (net - weight))) (check capacity net weight word) word
  | .wake net => .wake none (.ends net 0)

end Semaphore

abbrev semaphore (capacity : UInt64) : Prim where
  Idle := Int
  Op := Semaphore.Op
  Code := Semaphore.Code
  start := Semaphore.start capacity
  instr := Semaphore.instr capacity

inductive Kind where
  | mutex
  | mutex64
  | rwMutex
  | once
  | waitGroup
  | cond
  | semaphore (capacity : UInt64)
deriving DecidableEq

abbrev prim : Kind → Prim
  | .mutex => mutex
  | .mutex64 => mutex
  | .rwMutex => rwMutex
  | .once => once
  | .waitGroup => waitGroup
  | .cond => cond
  | .semaphore capacity => semaphore capacity

def fresh : (k : Kind) → (prim k).Idle
  | .mutex => false
  | .mutex64 => false
  | .rwMutex => Hold.free
  | .once => ⟨0, false, false⟩
  | .waitGroup => ()
  | .cond => ()
  | .semaphore _ => (0 : Int)

def made : Kind → Nat
  | .semaphore capacity => capacity.toNat
  | _ => 0

inductive HeldKind where
  | mutex
  | read
  | write
deriving DecidableEq

/-- An entry of the list of the held locks: a word, and its kind in the low bits. -/
structure Held where
  word : Nat
  kind : HeldKind
deriving DecidableEq

def heldHas (held : List Held) (word : Nat) : Bool := held.any (·.word = word)

def heldPush (held : List Held) (e : Held) : List Held := held ++ [e]

def heldPop (held : List Held) (word : Nat) : List Held := (held.reverse.eraseP (·.word = word)).reverse

def lockOp : HeldKind → (k : Kind) → Option (prim k).Op
  | .mutex, .mutex => some Mutex.Op.lock
  | .read, .rwMutex => some RwMutex.Op.readLock
  | .write, .rwMutex => some RwMutex.Op.writeLock
  | _, _ => none

def unlockOp : HeldKind → (k : Kind) → Option (prim k).Op
  | .mutex, .mutex => some Mutex.Op.unlock
  | .read, .rwMutex => some RwMutex.Op.readUnlock
  | .write, .rwMutex => some RwMutex.Op.writeUnlock
  | _, _ => none

def waitOp (observed : Nat) : (k : Kind) → Option (prim k).Op
  | .cond => some (Cond.Op.wait observed)
  | _ => none

def plainOp : (k : Kind) → (prim k).Op → Bool
  | .mutex, _ => false
  | .rwMutex, _ => false
  | .cond, .wait _ => false
  | _, _ => true

/-! ## Calls -/

/-- The calls of the runtime. `depth` is a value of `tsuzuri_tz_held_depth`. -/
inductive Call (kind : Nat → Kind) where
  | lock (e : Held)
  | unlock (e : Held)
  | plain (addr : Nat) (op : (prim (kind addr)).Op)
  | condWait (sequence mutex observed : Nat)
  | heldRestore (depth : Nat)

/-- What a call does after the operation that it runs. -/
inductive Task where
  | locking (e : Held)
  | ending
  | condUnlocking (sequence mutex observed : Nat)
  | condWaiting (mutex : Nat)
  | condLocking (mutex : Nat) (doomed : Bool)
  | restoring (depth : Nat) (before : List Held)

inductive Event (G : Type) where
  | returned (g : G) (status : Nat)
  | took (g : G) (e : Held)
  | gave (g : G) (e : Held)
  | restored (g : G) (depth : Nat) (before after : List Held)
deriving DecidableEq

structure State (G : Type) (kind : Nat → Kind) where
  lot : Lot G kind prim
  held : G → List Held
  task : G → Option Task

inductive Action (G : Type) (kind : Nat → Kind) where
  | call (g : G) (c : Call kind)
  | run (g : G) (choice : Nat)
  | doom (g : G)

variable {G : Type} [DecidableEq G] {kind : Nat → Kind}

namespace State

variable (s : State G kind)

def setTask (g : G) (task : Option Task) : State G kind := { s with task := Function.update s.task g task }

def setHeld (g : G) (held : List Held) : State G kind := { s with held := Function.update s.held g held }

def start (thread : G → Bool) (g : G) (addr : Nat) (op : (prim (kind addr)).Op) (task : Task) : Option (State G kind) :=
  (s.lot.step thread (.start g addr op)).map fun r => { s with lot := r.1 }.setTask g (some task)

def ends (g : G) (status : Nat) : State G kind × List (Event G) := (s.setTask g none, [.returned g status])

/-- What the call gives where the `G` holds the lock, and how it goes on else. -/
def lock (thread : G → Bool) (g : G) (e : Held) (again : Nat) (task : Task) : Option (State G kind × List (Event G)) :=
  if heldHas (s.held g) e.word then some (s.ends g again)
  else do
    let op ← lockOp e.kind (kind e.word)
    return (← s.start thread g e.word op task, [])

def locked (g : G) (e : Held) (status result : Nat) : State G kind × List (Event G) :=
  if status = 0 then ((s.setHeld g (heldPush (s.held g) e)).setTask g none, [.took g e, .returned g result])
  else s.ends g result

/-- `tsuzuri_tz_mutex32_unlock`, `tsuzuri_tz_rw_read_unlock`, `tsuzuri_tz_rw_write_unlock`. -/
def unlock (thread : G → Bool) (g : G) (e : Held) (task : Task) : Option (State G kind × List (Event G)) := do
  let op ← unlockOp e.kind (kind e.word)
  return (← (s.setHeld g (heldPop (s.held g) e.word)).start thread g e.word op task, [.gave g e])

/-- The loop of `tsuzuri_tz_held_restore`. -/
def restore (thread : G → Bool) (g : G) (depth : Nat) (before : List Held) : Option (State G kind × List (Event G)) :=
  match (s.held g).getLast? with
  | some e =>
    if depth < (s.held g).length then s.unlock thread g e (.restoring depth before)
    else some (s.setTask g none, [.restored g depth before (s.held g)])
  | none => some (s.setTask g none, [.restored g depth before (s.held g)])

def call (thread : G → Bool) (g : G) : Call kind → Option (State G kind × List (Event G))
  | .lock e => s.lock thread g e 1 (.locking e)
  | .unlock e => s.unlock thread g e .ending
  | .plain addr op => if plainOp (kind addr) op then (s.start thread g addr op .ending).map (·, []) else none
  | .condWait sequence mutex observed => do
    let _ ← waitOp observed (kind sequence)
    s.unlock thread g ⟨mutex, .mutex⟩ (.condUnlocking sequence mutex observed)
  | .heldRestore depth => s.restore thread g depth (s.held g)

def resume (thread : G → Bool) (g : G) (status : Nat) : Task → Option (State G kind × List (Event G))
  | .locking e => some (s.locked g e status status)
  | .ending => some (s.ends g status)
  | .condUnlocking sequence mutex observed => do
    let op ← waitOp observed (kind sequence)
    return (← s.start thread g sequence op (.condWaiting mutex), [])
  | .condWaiting mutex =>
    let doomed := decide (status ≠ 0)
    s.lock thread g ⟨mutex, .mutex⟩ (if doomed then 2 else 1) (.condLocking mutex doomed)
  | .condLocking mutex doomed => some (s.locked g ⟨mutex, .mutex⟩ status (if doomed then 2 else status))
  | .restoring depth before => s.restore thread g depth before

def step (thread : G → Bool) (s : State G kind) : Action G kind → Option (State G kind × List (Event G))
  | .call g c => if (s.task g).isNone then s.call thread g c else none
  | .run g choice => do
    let (lot, es) ← s.lot.step thread (.run g choice)
    match es with
    | [] => return ({ s with lot := lot }, [])
    | (_, status) :: _ => ({ s with lot := lot } : State G kind).resume thread g status (← s.task g)
  | .doom g => (s.lot.step thread (.doom g)).map fun r => ({ s with lot := r.1 }, [])

end State

def untouched : State G kind where
  lot := .untouched (fun addr => made (kind addr)) fun addr => fresh (kind addr)
  held _ := []
  task _ := none

end Tsuzuri.Sync
