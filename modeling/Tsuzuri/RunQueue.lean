import Tsuzuri.Transition
import Tsuzuri.StealRing

/-!
# The run queues of the scheduler

Each P has a ring of `G`s, that the M on it pushes to and every M pops from, and a slot for the `G` to run next; the
global queue is under the lock of the scheduler.
-/

namespace Tsuzuri.RunQueue

open StealRing

/-- The slots of a ring (`TZR_RUNQ`). -/
def runqSlots : Nat := 256

/-- The takes from `runnext` in a row before the ring gets a turn. -/
def runnextTurns : Nat := 61

def word (k : Nat) : UInt32 := UInt32.ofNat k

/-- `tail - head` -/
def gap (tail head : Nat) : Nat := (word tail - word head).toNat

/-- The queue of a P. -/
structure Runq (G : Type) where
  ring : Counted G
  runnext : Option G
  streak : Nat

namespace Runq

variable {G : Type}

/-- `runq[k % TZR_RUNQ]` -/
def load (q : Runq G) (k : Nat) : G := q.ring.slots (word k % 256).toNat

def store (q : Runq G) (k : Nat) (g : G) : Runq G :=
  { q with ring := { q.ring with slots := Function.update q.ring.slots (word k % 256).toNat g } }

def publish (q : Runq G) (tail : Nat) : Runq G := { q with ring := { q.ring with tail := tail } }

/-- Moves the head from `head` to `head + n`, if it is still there. -/
def claim (q : Runq G) (head n : Nat) : Option (Runq G) :=
  if word q.ring.head = word head then some { q with ring := q.ring.advance n } else none

def takeNext [DecidableEq G] (q : Runq G) (g : G) : Option (Runq G) :=
  if q.runnext = some g then some { q with runnext := none } else none

end Runq

/-! ## Where an M is -/

/-- In `tzr_runqput`. -/
inductive PutPc (G : Type)
  | next (g : G)
  | head (g : G)
  | tail (g : G) (head : Nat)
  | store (g : G) (tail : Nat)
  | publish (g : G) (tail : Nat)
  -- tzr_runqput_slow
  | read (g : G) (head tail : Nat) (batch : List G)
  | reload (g : G)

/-- In `tzr_runqget`. -/
inductive GetPc (G : Type)
  | next
  | take (g : G)
  | head
  | tail (head : Nat)
  | slot (head : Nat)
  | claim (head : Nat) (g : G)
  | last
  | lastTake (g : G)

/-- In `tzr_runqsteal`, at the queue of the victim. -/
inductive StealPc (G : Type)
  | head
  | tail (head : Nat)
  | next
  | take (g : G)
  | read (head n : Nat) (batch : List G)

/-- In `tzr_runqsteal`, with a batch, at the M's own queue. -/
inductive KeepPc (G : Type)
  | tail (batch : List G)
  | store (g : G) (tail : Nat) (batch : List G) (stored : Nat)

/-- `out`: the M runs a `G` or none, or is no M of the scheduler. -/
inductive Pc (G P : Type)
  | out
  | put (at' : PutPc G)
  | spill (batch : List G)
  | get (at' : GetPc G)
  | size (max : Int)
  | global (max : Int)
  | search
  | steal (victim : P) (stealNext : Bool) (at' : StealPc G)
  | keep (at' : KeepPc G)

/-- How an M goes on: at another place, or out of the search with a `G`. -/
inductive Next (G P : Type)
  | goto (pc : Pc G P)
  | found (g : G)

section Queue

variable {G P : Type}

/-- `tzr_runqput`, `tzr_runqput_slow` -/
def runqput (q : Runq G) : PutPc G → Runq G × Next G P
  | .next g => ({ q with runnext := some g }, .goto (match q.runnext with
      | none => .out
      | some old => .put (.head old)))
  | .head g => (q, .goto (.put (.tail g q.ring.head)))
  | .tail g head => (q, .goto (.put (
      if gap q.ring.tail head < runqSlots then .store g q.ring.tail else .read g head q.ring.tail [])))
  | .store g tail => (q.store tail g, .goto (.put (.publish g tail)))
  | .publish _ tail => (q.publish (tail + 1), .goto .out)
  | .read g head tail batch =>
    if batch.length < gap tail head / 2 then
      (q, .goto (.put (.read g head tail (batch ++ [q.load (head + batch.length)]))))
    else
      match q.claim head (gap tail head / 2) with
      | some q => (q, .goto (.spill (batch ++ [g])))
      | none => (q, .goto (.put (.reload g)))
  | .reload g => (q, .goto (.put (.store g q.ring.tail)))

/-- `tzr_runqget`. `ok`: a weak exchange that could succeed does. -/
def runqget [DecidableEq G] (q : Runq G) (ok : Bool) : GetPc G → Runq G × Next G P
  | .next =>
    if q.streak < runnextTurns then
      match q.runnext with
      | some g => (q, .goto (.get (.take g)))
      | none => ({ q with streak := 0 }, .goto (.get .head))
    else ({ q with streak := 0 }, .goto (.get .head))
  | .take g =>
    match q.takeNext g with
    | some q => ({ q with streak := q.streak + 1 }, .found g)
    | none => ({ q with streak := 0 }, .goto (.get .head))
  | .head => (q, .goto (.get (.tail q.ring.head)))
  | .tail head => (q, .goto (.get (if word q.ring.tail = word head then .last else .slot head)))
  | .slot head => (q, .goto (.get (.claim head (q.load head))))
  | .claim head g =>
    match if ok then q.claim head 1 else none with
    | some q => (q, .found g)
    | none => (q, .goto (.get .head))
  | .last =>
    match q.runnext with
    | some g => (q, .goto (.get (.lastTake g)))
    | none => (q, .goto (.size 0))
  | .lastTake g =>
    match q.takeNext g with
    | some q => (q, .found g)
    | none => (q, .goto (.size 0))

/-- `tzr_runqsteal` up to the claim of a batch, on the queue of `victim`. -/
def runqsteal [DecidableEq G] (victim : P) (stealNext : Bool) (q : Runq G) (ok : Bool) : StealPc G → Runq G × Next G P
  | .head => (q, .goto (.steal victim stealNext (.tail q.ring.head)))
  | .tail head =>
    let n := gap q.ring.tail head
    let n := n - n / 2
    if n = 0 then (q, .goto (if stealNext then .steal victim stealNext .next else .search))
    else if n > runqSlots / 2 then (q, .goto (.steal victim stealNext .head))
    else (q, .goto (.steal victim stealNext (.read head n [])))
  | .next =>
    match q.runnext with
    | some g => (q, .goto (.steal victim stealNext (.take g)))
    | none => (q, .goto .search)
  | .take g =>
    match q.takeNext g with
    | some q => (q, .found g)
    | none => (q, .goto .search)
  | .read head n batch =>
    if batch.length < n then
      (q, .goto (.steal victim stealNext (.read head n (batch ++ [q.load (head + batch.length)]))))
    else
      match if ok then q.claim head n else none with
      | some q => (q, .goto (.keep (.tail batch)))
      | none => (q, .goto (.steal victim stealNext .head))

/-- The end of `tzr_runqsteal`: the last of the batch is to run, the others go to the thief's ring. -/
def runqkeep (q : Runq G) : KeepPc G → Runq G × Next G P
  | .tail batch =>
    match batch.getLast? with
    | none => (q, .goto .search)
    | some g => (q, if batch.dropLast = [] then .found g else .goto (.keep (.store g q.ring.tail batch.dropLast 0)))
  | .store g tail batch stored =>
    match batch[stored]? with
    | some more => (q.store (tail + stored) more, .goto (.keep (.store g tail batch (stored + 1))))
    | none => (q.publish (tail + batch.length), .found g)

/-- What must not happen in a section under the lock of the scheduler. -/
inductive Event
  | slow
  | null
 

/-- `tzr_runqput` with the lock held. -/
def runqputLocked (q : Runq G) (g : G) : Runq G × List Event :=
  if gap q.ring.tail q.ring.head < runqSlots then ((q.store q.ring.tail g).publish (q.ring.tail + 1), [])
  else (q, [.slow])

/-- The `G`s after the first that `tzr_globrunqget` takes. -/
def globrunqmore : Nat → List G → Runq G → List G × Runq G × List Event
  | 0, global, q => (global, q, [])
  | _ + 1, [], q => ([], q, [.null])
  | n + 1, more :: global, q =>
    let (q, es) := runqputLocked q more
    let (global, q, es') := globrunqmore n global q
    (global, q, es ++ es')

/-- How many `G`s `tzr_globrunqget` takes of `size`. -/
def globrunqCount (nprocs : Nat) (size max : Int) : Int :=
  let n := size.tdiv nprocs + 1
  let n := if n > size then size else n
  let n := if max > 0 ∧ n > max then max else n
  if n > (runqSlots / 2 : Nat) then (runqSlots / 2 : Nat) else n

end Queue

/-! ## The system -/

/-- `waiting`: the `G`s that are not runnable and that no M runs. -/
structure State (G P M : Type) where
  runq : P → Runq G
  global : List G
  size : Int
  has : M → Option P
  curg : M → Option G
  pc : M → Pc G P
  waiting : G → Bool

/-- `step`: the M takes its next step. -/
inductive Act (G P M : Type)
  | step (m : M) (ok : Bool)
  | ready (m : M) (g : G)
  | yield (m : M)
  | park (m : M)
  | find (m : M) (globalFirst : Bool)
  | steal (m : M) (victim : P) (stealNext : Bool)
  | giveUp (m : M)
  | acquire (m : M) (p : P)
  | release (m : M)

section System

variable {G P M : Type} [DecidableEq G] [DecidableEq P] [DecidableEq M]

namespace State

def init (slots : P → Nat → G) : State G P M where
  runq p := ⟨⟨0, 0, slots p⟩, none, 0⟩
  global := []
  size := 0
  has _ := none
  curg _ := none
  pc _ := .out
  waiting _ := true

def goto (s : State G P M) (m : M) (pc : Pc G P) : State G P M :=
  { s with pc := Function.update s.pc m pc }

def found (s : State G P M) (m : M) (g : G) : State G P M :=
  { s with pc := Function.update s.pc m .out, curg := Function.update s.curg m (some g) }

def next (s : State G P M) (m : M) : Next G P → State G P M
  | .goto pc => s.goto m pc
  | .found g => s.found m g

def setRunq (s : State G P M) (p : P) (q : Runq G) : State G P M :=
  { s with runq := Function.update s.runq p q }

def globrunqput (s : State G P M) (g : G) : State G P M :=
  { s with global := s.global ++ [g], size := s.size + 1 }

def globrunqget [Fintype P] (s : State G P M) (p : P) (max : Int) : Option G × State G P M × List Event :=
  if s.size = 0 then (none, s, [])
  else
    match s.global with
    | [] => (none, s, [.null])
    | g :: global =>
      let n := globrunqCount (Fintype.card P) s.size max
      let (global, q, es) := globrunqmore (n - 1).toNat global (s.runq p)
      (some g, { s.setRunq p q with global := global, size := s.size - n }, es)

/-- The M on `p` has taken from the global queue: it runs what it got, or goes on at `pc`. -/
def afterGlobal (m : M) (pc : Pc G P) : Option G × State G P M × List Event → State G P M × List Event
  | (some g, s, es) => (s.found m g, es)
  | (none, s, es) => (s.goto m pc, es)

end State

/-- The step of the M on `p` at its place. -/
def advance [Fintype P] (s : State G P M) (m : M) (p : P) (ok : Bool) : Option (State G P M × List Event) :=
  let at' (p : P) (r : Runq G × Next G P) := some ((s.setRunq p r.1).next m r.2, [])
  match s.pc m with
  | .out => none
  | .put pc => at' p (runqput (s.runq p) pc)
  | .spill batch => some ((batch.foldl State.globrunqput s).goto m .out, [])
  | .get pc => at' p (runqget (s.runq p) ok pc)
  | .size max => some (s.goto m (if s.size > 0 then .global max else if max = 1 then .get .next else .search), [])
  | .global max => some (State.afterGlobal m (if max = 1 then .get .next else .search) (s.globrunqget p max))
  | .search => none
  | .steal victim stealNext pc => at' victim (runqsteal victim stealNext (s.runq victim) ok pc)
  | .keep pc => at' p (runqkeep (s.runq p) pc)

def step [Fintype P] [Fintype M] (s : State G P M) : Act G P M → Option (State G P M × List Event)
  | .step m ok => do
    let p ← s.has m
    advance s m p ok
  | .ready m g =>
    match s.pc m, s.waiting g with
    | .out, true =>
      let s := { s with waiting := Function.update s.waiting g false }
      some (if (s.has m).isSome then s.goto m (.put (.next g)) else s.globrunqput g, [])
    | _, _ => none
  | .yield m =>
    match s.pc m, s.curg m with
    | .out, some g => some (({ s with curg := Function.update s.curg m none }).globrunqput g, [])
    | _, _ => none
  | .park m =>
    match s.pc m, s.curg m with
    | .out, some g => some ({ s with
        curg := Function.update s.curg m none, waiting := Function.update s.waiting g true }, [])
    | _, _ => none
  | .find m globalFirst =>
    match s.pc m, s.curg m, s.has m with
    | .out, none, some _ => some (s.goto m (if globalFirst then .size 1 else .get .next), [])
    | _, _, _ => none
  | .steal m victim stealNext =>
    match s.pc m with
    | .search => if s.has m = some victim then none else some (s.goto m (.steal victim stealNext .head), [])
    | _ => none
  | .giveUp m =>
    match s.pc m, s.has m with
    | .search, some p =>
      if s.size > 0 then some (State.afterGlobal m .out (s.globrunqget p 0))
      else some ({ s.goto m .out with has := Function.update s.has m none }, [])
    | _, _ => none
  | .acquire m p =>
    match s.pc m, s.has m with
    | .out, none =>
      if ∃ m', s.has m' = some p then none else some ({ s with has := Function.update s.has m (some p) }, [])
    | _, _ => none
  | .release m =>
    match s.pc m with
    | .out => some ({ s with has := Function.update s.has m none }, [])
    | _ => none

end System

end Tsuzuri.RunQueue
