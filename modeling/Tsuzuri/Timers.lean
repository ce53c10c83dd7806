import Tsuzuri.IndexedHeap
import Tsuzuri.Transition

/-!
# The timers of the runtime

The heap of the timers, the lists of the boundaries and every section under the timers' lock, each
as one step.
-/

namespace Tsuzuri.Clock

open IndexedHeap
open Function (update)

abbrev Record := Nat
abbrev Scope := Nat
abbrev Chan := Nat
abbrev Box := Nat

def int64Max : Int := 9223372036854775807

/-- What a timer does when it fires: `TZR_TIMER_WAKE` and the others. -/
inductive TimerKind
  | wake | send | tick | func | ctx | net
  deriving DecidableEq

inductive TimerState
  | pending | fired | stopped | dormant
  deriving DecidableEq

/-- `tzr_timer`: a WAKE timer is part of a G, a NET timer of a wait and a CTX timer of a context. -/
structure Timer where
  when : Int
  period : Int
  kind : TimerKind
  state : TimerState
  handle : Bool
  chan : Chan
  box : Option Box
  scope : Option Scope

/-- What a thread still does after a section. -/
inductive Act
  | gone (n : Nat)
  | spawn (b : Box)
  | drop (b : Box)
  | unref (c : Chan)
  | free (t : Record)
  | expire (t : Record)
  | ctxUnref (t : Record)
  | takeBox (t : Record)
  | unpin (t : Record)
  | timerFree (t : Record)
 

/-- What can be observed of a step. -/
inductive Event
  | armed (t : Record)
  | fired (t : Record)
  | took (t : Record)
  | readied (t : Record)
  | timedOut (t : Record)
  | offered (t : Record) (now : Int)
  | ran (b : Box)
  | noFunction (t : Record)
  | dropped (b : Box)
  | stale (t : Record)
  | batch (run : Nat) (now : Int) (fired : List (Record × Int)) (ended : Bool)
  deriving DecidableEq

/-- `tzr_timers` with the memory that the records are in. -/
structure Timers where
  recs : Record → Timer
  live : Record → Bool
  held : Record → Nat
  refs : Record → Nat
  afterFunc : Record → Bool
  heap : Heap Record
  lists : Scope → List Record
  chanRefs : Chan → Nat
  made : Box → Bool
  ntimers : Int
  runs : Nat
  run : List Act
  todo : List (List Act)

def Timers.when (s : Timers) (t : Record) : Int := (s.recs t).when

def Timers.setRec (s : Timers) (t : Record) (r : Timer) : Timers :=
  { s with recs := update s.recs t r }

def Timers.heapPush (s : Timers) (t : Record) : Timers :=
  let s := s.setRec t { s.recs t with state := .pending }
  { s with heap := s.heap.push s.when t }

def Timers.heapRemove (s : Timers) (t : Record) : Timers :=
  { s with heap := s.heap.remove s.when t }

def deadline (now ns : Int) : Int :=
  if ns ≤ 0 then now else if now > int64Max - ns then int64Max else now + ns

def Timers.list (s : Timers) (t : Record) (scope : Scope) : Timers :=
  { s.setRec t { s.recs t with scope := some scope } with
    lists := update s.lists scope (t :: s.lists scope) }

def Timers.unlist (s : Timers) (t : Record) : Timers :=
  match (s.recs t).scope with
  | none => s
  | some scope =>
    { s.setRec t { s.recs t with scope := none } with
      lists := update s.lists scope ((s.lists scope).erase t) }

/-- `tzr_timer_take`: 0 when the timer was not waiting, 1 when it was dormant and 2 when it
pended. -/
def Timers.take (s : Timers) (t : Record) : Timers × Nat :=
  let taken := match (s.recs t).state with
    | .pending => 2
    | .dormant => 1
    | _ => 0
  let s := if taken = 2 then s.heapRemove t else s
  if taken = 0 then (s, 0)
  else
    let s := s.setRec t { s.recs t with state := .stopped }
    (if (s.recs t).kind ≠ .func then s.unlist t else s, taken)

def goneActs (taken : Nat) : List Act := if taken = 2 then [.gone 1] else []

def tookEvents (t : Record) (taken : Nat) : List Event := if taken = 2 then [.took t] else []

def dropActs (box : Option Box) : List Act :=
  match box with
  | some b => [.drop b]
  | none => []

def Timers.heapRecords (s : Timers) : List Record := (List.range s.heap.count).map s.heap.item

/-- The records of the list that `t` is in. -/
def Timers.neighbours (s : Timers) (t : Record) : List Record :=
  match (s.recs t).scope with
  | none => []
  | some scope => s.lists scope

def Timers.stale (s : Timers) (ts : List Record) : List Event :=
  (ts.filter fun t => !s.live t).map .stale

/-- The records that a section about `t` may reach. -/
def Timers.reach (s : Timers) (t : Record) : List Record :=
  t :: s.heapRecords ++ s.neighbours t

def Timers.alloc (s : Timers) (t : Record) (r : Timer) (held refs : Nat) : Timers :=
  { s.setRec t r with
    live := update s.live t true
    held := update s.held t held
    refs := update s.refs t refs
    afterFunc := update s.afterFunc t false }

def Timers.dealloc (s : Timers) (t : Record) : Timers :=
  { s with live := update s.live t false }

def Timers.later (s : Timers) (acts : List Act) : Timers := { s with todo := acts :: s.todo }

/-- `tzr_heap_push` and the count of the timer. -/
def Timers.arm (s : Timers) (t : Record) : Timers :=
  { s.heapPush t with ntimers := s.ntimers + 1 }

/-- The section of `tsuzuri_tz_sleep`. -/
def Timers.sleep (s : Timers) (t : Record) (now ns : Int) : Timers :=
  (s.alloc t
    { when := deadline now ns, period := 0, kind := .wake, state := .pending, handle := false, chan := 0
      box := none, scope := none } 1 1).arm t

/-- The first section under the timers' lock of `tzr_netpoll_wait`. -/
def Timers.netWait (s : Timers) (t : Record) (now timeout : Int) : Timers :=
  (s.alloc t
    { when := deadline now timeout, period := 0, kind := .net, state := .pending, handle := false, chan := 0
      box := none, scope := none } 1 1).arm t

def Timers.timerArm (s : Timers) (t : Record) (scope : Scope) (dormant : Bool) : Timers :=
  let s := s.list t scope
  if dormant then s.setRec t { s.recs t with state := .dormant } else s.arm t

/-- `tsuzuri_tz_timer_new`: the record of `tzr_timer_record`, armed. -/
def Timers.timerNew (s : Timers) (t : Record) (c : Chan) (now ns period : Int) (kind : TimerKind)
    (handle : Bool) (box : Option Box) (scope : Scope) : Timers :=
  let owners := if handle then 1 else 0
  let s := { s with
    chanRefs := update s.chanRefs c (if handle then 1 else 2)
    made := match box with
      | some b => update s.made b true
      | none => s.made }
  (s.alloc t
    { when := deadline now ns, period := period, kind := kind, state := .pending, handle := handle, chan := c
      box := box, scope := none } owners owners).timerArm t scope false

/-- The timer of `tsuzuri_tz_ctx_after`, dormant. -/
def Timers.ctxAfter (s : Timers) (t : Record) (c : Chan) (now : Int) (box : Box) (scope : Scope) :
    Timers :=
  let s := { s with
    chanRefs := update s.chanRefs c 1
    made := update s.made box true }
  let s := s.alloc t
    { when := deadline now int64Max, period := 0, kind := .func, state := .pending, handle := true, chan := c
      box := some box, scope := none } 1 1
  Timers.timerArm { s with afterFunc := update s.afterFunc t true } t scope true

/-- `tsuzuri_tz_ctx_new`: references of the handle and of the timer. -/
def Timers.ctxNew (s : Timers) (t : Record) (when : Int) (scope : Scope) : Timers :=
  (s.alloc t
    { when := when, period := 0, kind := .ctx, state := .stopped, handle := false, chan := 0
      box := none, scope := none } 1 2).timerArm t scope false

/-- The section of `tsuzuri_tz_timer_stop`. -/
def Timers.timerStop (s : Timers) (t : Record) : Timers × List Event :=
  let (s', taken) := s.take t
  (s'.later (goneActs taken), s.stale (s.reach t) ++ tookEvents t taken)

/-- The section of `tsuzuri_tz_timer_reset`. -/
def Timers.timerReset (s : Timers) (t : Record) (now ns : Int) (scope : Scope) : Timers × List Event :=
  if (s.recs t).kind = .func ∧ (s.recs t).box = none then (s, s.stale [t])
  else
    let (s', taken) := s.take t
    let s' := s'.unlist t
    let r := s'.recs t
    let s' := s'.setRec t { r with
      when := deadline now ns
      period := if r.kind = .tick then ns else r.period }
    let s' := (s'.list t scope).heapPush t
    ({ s' with ntimers := if taken ≠ 2 then s'.ntimers + 1 else s'.ntimers },
      s.stale (s.reach t ++ s.lists scope) ++ tookEvents t taken ++ [.armed t])

def Timers.timerWake (s : Timers) (t : Record) (now : Int) : Timers × List Event :=
  if (s.recs t).state = .dormant then
    ((s.setRec t { s.recs t with when := now }).arm t, s.stale (s.reach t) ++ [.armed t])
  else (s, s.stale [t])

def Timers.timerFree (s : Timers) (t : Record) : Timers × List Event × List Act :=
  let (s', taken) := s.take t
  let s' := s'.unlist t
  let r := s'.recs t
  (s'.setRec t { r with box := none }, s.stale (s.reach t) ++ tookEvents t taken,
    goneActs taken ++ dropActs r.box ++ [.unref r.chan, .free t])

def Timers.settle (s : Timers) (scope : Scope) : Timers × List Event :=
  match s.lists scope with
  | [] => (s, [])
  | t :: _ =>
    let (s', taken) := s.take t
    let s' := s'.unlist t
    let r := s'.recs t
    let expired := if r.kind = .ctx ∧ taken ≠ 0 then [Act.ctxUnref t] else []
    let owned := if r.handle = true ∨ r.kind = .ctx then [] else [.unref r.chan, .free t]
    ((s'.setRec t { r with box := none }).later (goneActs taken ++ expired ++ dropActs r.box ++ owned),
      s.stale (s.reach t ++ s.lists scope) ++ tookEvents t taken)

/-- The variables of a section of `tzr_timers_run`. -/
structure Batch where
  s : Timers
  gone : Nat
  spawn : Option (Option Box)
  expired : Option Record
  fired : List (Record × Int)
  events : List Event

/-- The condition of the loop of `tzr_timers_run`. -/
def Batch.due (b : Batch) (now : Int) : Prop :=
  0 < b.s.heap.count ∧ b.s.when (b.s.heap.item 0) ≤ now ∧ b.spawn = none ∧ b.expired = none

instance Batch.decidableDue (b : Batch) (now : Int) : Decidable (b.due now) :=
  inferInstanceAs (Decidable (_ ∧ _ ∧ _ ∧ _))

def nextTick (r : Timer) (now : Int) : Int :=
  let when := if r.when > int64Max - r.period then int64Max else r.when + r.period
  if when ≤ now then deadline now r.period else when

def Batch.pop (b : Batch) : Batch :=
  let top := b.s.heap.item 0
  let r := b.s.recs top
  { b with
    s := (b.s.heapRemove top).setRec top { r with state := .fired }
    gone := b.gone + 1
    fired := b.fired ++ [(top, r.when)]
    events := b.events ++ b.s.stale (b.s.reach top) ++ [.fired top] }

def Batch.fire (b : Batch) (top : Record) (r : Timer) (now : Int) : TimerKind → Batch
  | .wake => { b with events := b.events ++ [.readied top] }
  | .net => { b with events := b.events ++ [.timedOut top] }
  | .send =>
    let s := b.s.unlist top
    { b with
      s := if r.handle = true then s
        else { s.dealloc top with chanRefs := update s.chanRefs r.chan (s.chanRefs r.chan - 1) }
      events := b.events ++ [.offered top now] }
  | .tick =>
    if r.handle = false ∧ b.s.chanRefs r.chan = 1 then
      let s := b.s.unlist top
      { b with s := { s.dealloc top with chanRefs := update s.chanRefs r.chan 0 } }
    else
      { b with
        s := (b.s.setRec top { b.s.recs top with when := nextTick r now }).heapPush top
        gone := b.gone - 1
        events := b.events ++ [.offered top now, .armed top] }
  | .ctx => { b with s := b.s.unlist top, expired := some top }
  | .func =>
    { b with
      s := (b.s.setRec top { b.s.recs top with box := none }).unlist top
      spawn := some r.box
      events := b.events ++ if r.box = none then [.noFunction top] else [] }

/-- One round of the loop of `tzr_timers_run`. -/
def Batch.round (b : Batch) (now : Int) : Batch :=
  let top := b.s.heap.item 0
  let r := b.s.recs top
  b.pop.fire top r now r.kind

/-- The loop of `tzr_timers_run`, and whether it came to its end. -/
def Batch.loop (now : Int) : Nat → Batch → Batch × Bool
  | 0, b => (b, decide ¬ b.due now)
  | fuel + 1, b => if b.due now then Batch.loop now fuel (b.round now) else (b, true)

def Batch.acts (b : Batch) : List Act :=
  match b.spawn, b.expired with
  | some (some box), _ => [.spawn box, .gone b.gone]
  | some none, _ => [.gone b.gone]
  | none, some t => [.expire t, .gone b.gone]
  | none, none => [.gone b.gone]

def Batch.start (s : Timers) : Batch :=
  { s := s, gone := 0, spawn := none, expired := none, fired := [], events := [] }

def Batch.continues (b : Batch) : Bool := b.spawn.isSome || b.expired.isSome

/-- A section of `tzr_timers_run`. -/
def Timers.timersRun (s : Timers) (now : Int) : Timers × List Event :=
  let (b, ended) := Batch.loop now s.heap.count (Batch.start s)
  ({ b.s with
      run := b.acts
      runs := if b.continues then s.runs else s.runs + 1 },
    b.events ++ [.batch s.runs now b.fired ended])

def Timers.perform (s : Timers) : Act → Timers × List Event × List Act
  | .gone n => ({ s with ntimers := s.ntimers - n }, [], [])
  | .spawn b => (s, [.ran b], [])
  | .drop b => (s, [.dropped b], [])
  | .unref c => ({ s with chanRefs := update s.chanRefs c (s.chanRefs c - 1) }, [], [])
  | .free t => (s.dealloc t, s.stale [t], [])
  | .expire t => (s, s.stale [t], [.ctxUnref t])
  | .ctxUnref t =>
    let s' := { s with refs := update s.refs t (s.refs t - 1) }
    (if s.refs t = 1 then s'.dealloc t else s', s.stale [t], [])
  | .takeBox t =>
    (s.setRec t { s.recs t with box := none }, s.stale [t], dropActs (s.recs t).box ++ [.unpin t])
  | .unpin t =>
    ({ s with refs := update s.refs t (s.refs t - 1) }, s.stale [t], if s.refs t = 1 then [.timerFree t] else [])
  | .timerFree t => s.timerFree t

/-- A step: a section under the timers' lock, or an act of a thread. -/
inductive Action
  | sleep (t : Record) (now ns : Int)
  | leave (t : Record)
  | netWait (t : Record) (now timeout : Int)
  | netDone (t : Record)
  | timerNew (t : Record) (c : Chan) (now ns period : Int) (kind : TimerKind) (handle : Bool)
      (box : Option Box) (scope : Scope)
  | ctxAfter (t : Record) (c : Chan) (now : Int) (box : Box) (scope : Scope)
  | ctxNew (t : Record) (when : Int) (scope : Scope)
  | stop (t : Record)
  | reset (t : Record) (now ns : Int) (scope : Scope)
  | drop (t : Record)
  | pin (t : Record)
  | wake (t : Record) (now : Int)
  | freeAfter (t : Record)
  | hold (t : Record)
  | release (t : Record)
  | disarm (t : Record)
  | chan (c : Chan) (refs : Nat)
  | settle (scope : Scope)
  | timersRun (now : Int)
  | runAct
  | act (k : Nat)

def Timers.owns (s : Timers) (t : Record) : Prop := 0 < s.held t ∧ (s.recs t).handle = true

instance Timers.decidableOwns (s : Timers) (t : Record) : Decidable (s.owns t) :=
  inferInstanceAs (Decidable (_ ∧ _))

/-- A tick has a positive period, and a function comes with a handle and is handed over once. -/
def Timers.newOk (s : Timers) (kind : TimerKind) (period : Int) (handle : Bool) (box : Option Box) :
    Bool :=
  match kind, box with
  | .send, none => true
  | .tick, none => decide (0 < period)
  | .func, some b => handle && !s.made b
  | _, _ => false

def Timers.give (s : Timers) (t : Record) : Timers :=
  { s with held := update s.held t (s.held t - 1) }

/-- One section or one act. `timersRun` takes a clock below `INT64_MAX`, where no saturated deadline is due, and the
unpin that ends a cancel is the one of `freeAfter`. -/
def Timers.step (s : Timers) : Action → Option (Timers × List Event)
  | .sleep t now ns =>
    if s.live t = true ∨ ns ≤ 0 then none
    else some (s.sleep t now ns, s.stale s.heapRecords ++ [.armed t])
  | .leave t =>
    if 0 < s.held t ∧ (s.recs t).kind = .wake ∧ (s.recs t).state = .fired then
      some (((s.give t).dealloc t), s.stale [t])
    else none
  | .netWait t now timeout =>
    if s.live t = true then none else some (s.netWait t now timeout, s.stale s.heapRecords ++ [.armed t])
  | .netDone t =>
    if 0 < s.held t ∧ (s.recs t).kind = .net then
      let (s', taken) := s.take t
      some ((({ s'.give t with refs := update s'.refs t 0 }).later (goneActs taken ++ [Act.free t])),
        s.stale (s.reach t) ++ tookEvents t taken)
    else none
  | .timerNew t c now ns period kind handle box scope =>
    if s.live t = true ∨ s.newOk kind period handle box = false then none
    else some (s.timerNew t c now ns period kind handle box scope,
      s.stale (s.heapRecords ++ s.lists scope) ++ [.armed t])
  | .ctxAfter t c now box scope =>
    if s.live t = true ∨ s.made box = true then none
    else some (s.ctxAfter t c now box scope, s.stale (s.lists scope))
  | .ctxNew t when scope =>
    if s.live t = true then none
    else some (s.ctxNew t when scope, s.stale (s.heapRecords ++ s.lists scope) ++ [.armed t])
  | .stop t => if s.owns t then some (s.timerStop t) else none
  | .reset t now ns scope =>
    if s.owns t ∧ s.afterFunc t = false ∧ ((s.recs t).kind = .tick → 0 < ns) then
      some (s.timerReset t now ns scope)
    else none
  | .drop t =>
    if s.owns t ∧ s.afterFunc t = false then
      some (Timers.later { s.give t with refs := update s.refs t 0 } [.timerFree t], [])
    else none
  | .pin t =>
    if s.owns t ∧ s.afterFunc t = true then
      some ({ s with
        held := update s.held t (s.held t + 1)
        refs := update s.refs t (s.refs t + 1) }, s.stale [t])
    else none
  | .wake t now => if s.owns t ∧ s.afterFunc t = true then some (s.timerWake t now) else none
  | .freeAfter t =>
    if s.owns t ∧ s.afterFunc t = true then
      let (s', taken) := s.take t
      some ((s'.give t).later (goneActs taken ++ [Act.takeBox t]), s.stale (s.reach t) ++ tookEvents t taken)
    else none
  | .hold t =>
    if 0 < s.held t ∧ (s.recs t).kind = .ctx then
      some ({ s with
        held := update s.held t (s.held t + 1)
        refs := update s.refs t (s.refs t + 1) }, s.stale [t])
    else none
  | .release t =>
    if 0 < s.held t ∧ (s.recs t).kind = .ctx then some ((s.give t).later [.ctxUnref t], []) else none
  | .disarm t =>
    if 0 < s.held t ∧ (s.recs t).kind = .ctx then
      let (s', taken) := s.take t
      some (s'.later (goneActs taken ++ if taken ≠ 0 then [Act.ctxUnref t] else []),
        s.stale (s.reach t) ++ tookEvents t taken)
    else none
  | .chan c refs => some ({ s with chanRefs := update s.chanRefs c refs }, [])
  | .settle scope => some (s.settle scope)
  | .timersRun now => if s.run = [] ∧ now < int64Max then some (s.timersRun now) else none
  | .runAct =>
    match s.run with
    | [] => none
    | a :: rest =>
      let (s', es, next) := s.perform a
      some ({ s' with run := next ++ rest, todo := s.todo }, es)
  | .act k =>
    match s.todo[k]? with
    | some (a :: rest) =>
      let (s', es, next) := s.perform a
      some ({ s' with run := s.run, todo := s.todo.set k (next ++ rest) }, es)
    | _ => none

def Timers.initial : Timers where
  recs _ := { when := 0, period := 0, kind := .wake, state := .stopped, handle := false, chan := 0
              box := none, scope := none }
  live _ := false
  held _ := 0
  refs _ := 0
  afterFunc _ := false
  heap := { item := fun _ => 0, place := fun _ => 0, count := 0 }
  lists _ := []
  chanRefs _ := 0
  made _ := false
  ntimers := 0
  runs := 0
  run := []
  todo := []

end Tsuzuri.Clock
