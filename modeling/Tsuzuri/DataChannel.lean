import Mathlib.Data.Finset.Image
import Mathlib.Logic.Function.Basic
import Tsuzuri.Ring
import Tsuzuri.Transition

/-!
# DataChannel

A bounded channel of the tzroutine runtime.
-/

namespace Tsuzuri.DataChannel

/-- The queues of waiters. -/
inductive Side where
  | receivers
  | senders
deriving DecidableEq

abbrev Item (size : Nat) := Vector UInt8 size

/-- The block of a channel: its header, and its ring of slots. -/
structure Dchan (G : Type) (size : Nat) where
  capacity : Nat
  head : Nat
  count : Nat
  senders : Nat
  receivers : Nat
  owners : Nat
  waiters : Side → List G
  slots : Nat → Item size

inductive Op (size : Nat) where
  | send (item : Item size)
  | recv
deriving DecidableEq

def Op.side {size : Nat} : Op size → Side
  | .send _ => .senders
  | .recv => .receivers

/-- How a section ends. -/
inductive Outcome (size : Nat) where
  | returns (status : Nat) (item : Option (Item size))
  | waits

variable {G H : Type} {size : Nat} [DecidableEq G]

/-! ## The sections under the lock -/

namespace Dchan

variable (c : Dchan G size)

def slot (offset : Nat) : Nat := (c.head + offset) % c.capacity

def setWaiters (side : Side) (queue : List G) : Dchan G size :=
  { c with waiters := Function.update c.waiters side queue }

def wake (side : Side) (all : Bool) : Dchan G size × List G :=
  match c.waiters side with
  | [] => (c, [])
  | first :: rest =>
    if all then (c.setWaiters side [], first :: rest) else (c.setWaiters side rest, [first])

def enqueue (side : Side) (g : G) : Dchan G size := c.setWaiters side (c.waiters side ++ [g])

def unlink (side : Side) (g : G) : Dchan G size × Bool :=
  (c.setWaiters side ((c.waiters side).erase g), decide (g ∈ c.waiters side))

/-- `memcpy(slot(count), item, item_size)`, and one item more -/
def push (item : Item size) : Dchan G size :=
  { c with
    slots := if size ≠ 0 then Function.update c.slots (c.slot c.count) item else c.slots
    count := c.count + 1 }

def pop : Dchan G size := { c with head := (c.head + 1) % c.capacity, count := c.count - 1 }

def send (g : G) (item : Item size) : Dchan G size × List G × Outcome size :=
  if c.receivers = 0 then (c, [], .returns 1 none)
  else if c.count < c.capacity then
    let (c, woken) := (c.push item).wake .receivers false
    (c, woken, .returns 0 none)
  else (c.enqueue .senders g, [], .waits)

/-- A round of `tsuzuri_channel_recv`. -/
def recv (g : G) : Dchan G size × List G × Outcome size :=
  if 0 < c.count then
    let item := c.slots (c.slot 0)
    let (c, woken) := c.pop.wake .senders false
    (c, woken, .returns 0 (some item))
  else if c.senders = 0 then (c, [], .returns 1 none)
  else (c.enqueue .receivers g, [], .waits)

def round (g : G) : Op size → Dchan G size × List G × Outcome size
  | .send item => c.send g item
  | .recv => c.recv g

def cloneSender : Dchan G size := { c with senders := c.senders + 1, owners := c.owners + 1 }

def close (kind : Side) : Dchan G size × List G × Bool :=
  let c := { c with owners := c.owners - 1 }
  match kind with
  | .senders =>
    let c := { c with senders := c.senders - 1 }
    let (d, woken) := if c.senders = 0 then c.wake .receivers true else (c, [])
    (d, woken, decide (c.owners = 0))
  | .receivers =>
    let c := { c with receivers := c.receivers - 1 }
    let (d, woken) := if c.receivers = 0 then c.wake .senders true else (c, [])
    (d, woken, decide (c.owners = 0))

end Dchan

/-! ## The parties -/

inductive Pc where
  | entry
  | parked
  | woken
  | doomed
deriving DecidableEq

structure Call (H : Type) (size : Nat) where
  handle : H
  op : Op size
  pc : Pc

/-- A channel, the calls in progress, and the handles that are open. -/
structure State (G H : Type) (size : Nat) where
  chan : Dchan G size
  calls : G → Option (Call H size)
  handles : Side → Finset H

inductive Act (G H : Type) (size : Nat) where
  | call (g : G) (handle : H) (op : Op size)
  | run (g : G)
  | doom (g : G)
  | clone (handle fresh : H)
  | close (kind : Side) (handle : H)

/-- What the callers see. -/
inductive Event (G : Type) (size : Nat) where
  | returned (g : G) (op : Op size) (status : Nat) (item : Option (Item size))
  | closed (last : Bool)
deriving DecidableEq

/-- `tzr_ready` of the waiters; one that the detector woke before is not changed. -/
def ready (woken : List G) (calls : G → Option (Call H size)) (g : G) : Option (Call H size) :=
  if g ∈ woken then
    (calls g).map fun call => if call.pc = .parked then { call with pc := .woken } else call
  else calls g

namespace State

variable (s : State G H size)

def setCall (g : G) (call : Option (Call H size)) : State G H size :=
  { s with calls := Function.update s.calls g call }

/-- A round of the call of `g`. -/
def round (g : G) (call : Call H size) : State G H size × List (Event G size) :=
  let (chan, woken, outcome) := s.chan.round g call.op
  let s := { s with chan := chan, calls := ready woken s.calls }
  match outcome with
  | .returns status item => (s.setCall g none, [.returned g call.op status item])
  | .waits => (s.setCall g (some { call with pc := .parked }), [])

def cancel (g : G) (call : Call H size) : State G H size × List (Event G size) :=
  let (chan, queued) := s.chan.unlink call.op.side g
  let s := { s with chan := chan }
  if queued then (s.setCall g none, [.returned g call.op 2 none])
  else (s.setCall g (some { call with pc := .woken }), [])

end State

/-- The steps. `thread` says which parties are threads, which alone the detector wakes. -/
def State.step [Fintype G] [DecidableEq H] (thread : G → Bool) (s : State G H size) :
    Act G H size → Option (State G H size × List (Event G size))
  | .call g handle op =>
    if s.calls g = none ∧ handle ∈ s.handles op.side then
      some (s.setCall g (some ⟨handle, op, .entry⟩), [])
    else none
  | .run g => do
    let call ← s.calls g
    match call.pc with
    | .entry | .woken => some (s.round g call)
    | .parked => none
    | .doomed => some (s.cancel g call)
  | .doom g => do
    let call ← s.calls g
    if call.pc = .parked ∧ thread g then some (s.setCall g (some { call with pc := .doomed }), [])
    else none
  | .clone handle fresh =>
    if handle ∈ s.handles .senders ∧ fresh ∉ s.handles .senders then
      some ({ s with
        chan := s.chan.cloneSender
        handles := Function.update s.handles .senders (insert fresh (s.handles .senders)) }, [])
    else none
  | .close kind handle =>
    if handle ∈ s.handles kind ∧ ∀ g, ∀ call ∈ s.calls g, call.handle = handle → call.op.side ≠ kind then
      let (chan, woken, last) := s.chan.close kind
      some ({
        chan := chan
        calls := ready woken s.calls
        handles := Function.update s.handles kind ((s.handles kind).erase handle) }, [.closed last])
    else none

/-- `DataChannel.bounded`: an empty channel with one handle of either kind. -/
def bounded (capacity : Nat) (slots : Nat → Item size) (sender receiver : H) : State G H size where
  chan := ⟨capacity, 0, 0, 1, 1, 2, fun _ => [], slots⟩
  calls := fun _ => none
  handles
    | .senders => {sender}
    | .receivers => {receiver}

end Tsuzuri.DataChannel
