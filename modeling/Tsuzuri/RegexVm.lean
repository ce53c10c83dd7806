import Tsuzuri.RegexProgram
import Tsuzuri.Utf16

/-!
# Running a pattern (`std/Regex.tz`)

The virtual machine goes over the scalars of a text with a list of threads in the order of their
priority. A slot holds an offset, or -1.
-/

namespace Tsuzuri.Regex

open FaultVec (Exec Turn loop)
open Json (Str)

/-- A `string` or a `utf8string`. -/
inductive Input where
  | utf16 (text : Str)
  | utf8 (bytes : List Nat)

namespace Input

def length : Input → Nat
  | utf16 text => text.length
  | utf8 bytes => bytes.length

def isContinuation (bytes : List Nat) (index : Nat) : Bool :=
  bytes[index]?.any fun byte => byte &&& 192 = 128

def scalar8 (bytes : List Nat) (index : Nat) : Exec (Option (Nat × Nat)) :=
  if bytes.length ≤ index then .ok none
  else if isContinuation bytes index then .error .bounds
  else
    match Unicode.firstScalar (bytes.drop index) with
    | some c => .ok (some (c, (Unicode.encode8 c).length))
    | none => .error .bounds

def before16 (text : Str) (index : Nat) : Option Nat :=
  if index = 0 then none
  else
    (unit text (index - 1)).map fun low =>
      if isLow low && 2 ≤ index && (unit text (index - 2)).any isHigh then
        ((unit text (index - 2)).getD 0 - 55296) * 1024 + low - 56320 + 65536
      else low

/-- Where the scalar starts whose last byte is at `start` or before. -/
def scalarStart (bytes : List Nat) : Nat → Nat
  | 0 => 0
  | start + 1 => if isContinuation bytes (start + 1) then scalarStart bytes start else start + 1

def before8 (bytes : List Nat) (index : Nat) : Exec (Option Nat) :=
  if index = 0 ∨ bytes.length < index then .ok none
  else do
    let found ← scalar8 bytes (scalarStart bytes (index - 1))
    .ok (found.map Prod.fst)

def scalar (input : Input) (index : Nat) : Exec (Option (Nat × Nat)) :=
  match input with
  | utf16 text => .ok (scalar16 text index)
  | utf8 bytes => scalar8 bytes index

def before (input : Input) (index : Nat) : Exec (Option Nat) :=
  match input with
  | utf16 text => .ok (before16 text index)
  | utf8 bytes => before8 bytes index

def boundary (input : Input) (index : Int) : Bool :=
  match input with
  | utf16 text =>
    0 ≤ index && index ≤ text.length && !(0 < index && (unit text index.toNat).any isLow &&
        (unit text (index.toNat - 1)).any isHigh)
  | utf8 bytes =>
    0 ≤ index && index ≤ bytes.length && (index = bytes.length || !isContinuation bytes index.toNat)

end Input

def inClass (re : Program) (id code : Nat) : Exec Bool := do
  let ranges ← FaultVec.index re.classes id
  .ok (holdsScalar ranges code)

/-- Assertion `kind` holds between two scalars, none at the ends of the text. -/
def holds (re : Program) (kind word : Nat) (prev next : Option Nat) : Exec Bool :=
  if kind = 0 then .ok prev.isNone
  else if kind = 1 then .ok next.isNone
  else if kind = 2 then .ok (prev.isNone || prev = some 10)
  else if kind = 3 then .ok (next.isNone || next = some 10)
  else do
    let left ← match prev with
      | some code => inClass re word code
      | none => .ok false
    let right ← match next with
      | some code => inClass re word code
      | none => .ok false
    .ok ((left != right) = (kind = 4))

def consumes (re : Program) (instr : Instr) (code : Option Nat) : Exec Bool :=
  match code with
  | none => .ok false
  | some code =>
    match instr with
    | .char operand => .ok (code = operand)
    | .cls id => inClass re id code
    | .any => .ok true
    | .anyNoNewline => .ok (code ≠ 10)
    | _ => .ok false

abbrev Slots := List Int

/-- A sparse set of instructions in their order and the slots of the threads. -/
structure ThreadList where
  dense : List Nat
  sparse : List Nat
  table : List Slots

structure Workspace where
  steps : Nat
  current : ThreadList
  next : ThreadList
  work : Slots
  best : Slots

def emptyThreads (count slots : Nat) : ThreadList :=
  { dense := List.replicate count 0
    sparse := List.replicate count 0
    table := List.replicate count (List.replicate slots 0) }

def workspace (re : Program) (slots : Nat) : Workspace :=
  let threads := emptyThreads re.code.length slots
  { steps := 0
    current := threads
    next := threads
    work := List.replicate slots 0
    best := List.replicate slots 0 }

/-! ## Adding a thread -/

inductive Entry where
  | explore (pc : Nat)
  | restore (slot : Nat) (old : Int)

/-- The state of the loop of `add_thread`. -/
structure Adding where
  threads : ThreadList
  size : Nat
  work : Slots
  steps : Nat
  stack : List Entry

def pushEntries (re : Program) (entries stack : List Entry) : Exec (List Entry) :=
  if entries.length + stack.length ≤ 2 * re.code.length + 1 then .ok (entries.reverse ++ stack)
  else .error .bounds

def isListed (threads : ThreadList) (size target : Nat) : Exec Bool := do
  let seen ← FaultVec.index threads.sparse target
  if size ≤ seen then .ok false
  else do
    let listed ← FaultVec.index threads.dense seen
    .ok (listed = target)

def listThread (threads : ThreadList) (size target : Nat) : Exec ThreadList := do
  let sparse ← FaultVec.set target size threads.sparse
  let dense ← FaultVec.set size target threads.dense
  .ok { threads with sparse, dense }

/-- Between which scalars, and at which offset, a thread is added. -/
structure Place where
  pos : Nat
  prev : Option Nat
  next : Option Nat

def explore (re : Program) (slots : Nat) (place : Place) (s : Adding) (target : Nat) : Exec Adding := do
  match ← FaultVec.index re.code target with
  | .jump goal => do
    let stack ← pushEntries re [.explore goal] s.stack
    .ok { s with stack }
  | .split first second => do
    let stack ← pushEntries re [.explore second, .explore first] s.stack
    .ok { s with stack }
  | .save slot =>
    if slot < slots then do
      let old ← FaultVec.index s.work slot
      let work ← FaultVec.set slot (place.pos : Int) s.work
      let stack ← pushEntries re [.restore slot old, .explore (target + 1)] s.stack
      .ok { s with work, stack }
    else do
      let stack ← pushEntries re [.explore (target + 1)] s.stack
      .ok { s with stack }
  | .assert kind word => do
    if ← holds re kind word place.prev place.next then do
      let stack ← pushEntries re [.explore (target + 1)] s.stack
      .ok { s with stack }
    else .ok s
  | _ => do
    let table ← FaultVec.set target s.work s.threads.table
    .ok { s with threads := { s.threads with table } }

def addTurn (re : Program) (slots : Nat) (place : Place) (s : Adding) : Exec (Turn Adding Adding) :=
  match s.stack with
  | [] => .ok (.leave s)
  | .restore slot old :: stack => do
    let work ← FaultVec.set slot old s.work
    .ok (.go { s with work, stack })
  | .explore target :: stack => do
    let s := { s with stack }
    if ← isListed s.threads s.size target then .ok (.go s)
    else do
      let threads ← listThread s.threads s.size target
      let s ← explore re slots place { s with threads, size := s.size + 1, steps := s.steps + 1 } target
      .ok (.go s)

/-- The thread at `start` and those that it reaches without input, in their order, with the slots and the steps. -/
def addThread (re : Program) (slots : Nat) (threads : ThreadList) (length start : Nat) (place : Place)
    (work : Slots) : Exec Adding := do
  let stack ← pushEntries re [.explore start] []
  loop (3 * re.code.length + 3) (addTurn re slots place) { threads, size := length, work, steps := 0, stack }

/-! ## The search -/

/-- What a pass over the current threads leaves. -/
structure Pass where
  ws : Workspace
  length : Nat
  matched : Bool

def pass (re : Program) (slots : Nat) (code : Option Nat) (place : Place) : Nat → Nat → Workspace → Nat → Exec Pass
  | 0, _, ws, length => .ok { ws, length, matched := false }
  | remaining + 1, position, ws, length => do
    let target ← FaultVec.index ws.current.dense position
    let ws := { ws with steps := ws.steps + 1 }
    match ← FaultVec.index re.code target with
    | .match_ => do
      let best ← FaultVec.index ws.current.table target
      .ok { ws := { ws with best }, length, matched := true }
    | instr => do
      if ← consumes re instr code then do
        let work ← FaultVec.index ws.current.table target
        let added ← addThread re slots ws.next length (target + 1) place work
        pass re slots code place remaining (position + 1)
          { ws with next := added.threads, work := added.work, steps := ws.steps + added.steps }
          added.size
      else pass re slots code place remaining (position + 1) ws length

/-- The state of the loop of `search`. -/
structure Machine where
  ws : Workspace
  length : Nat
  matched : Bool
  pos : Nat
  prev : Option Nat
  here : Option (Nat × Nat)

def addStart (re : Program) (slots start : Nat) (m : Machine) : Exec (Workspace × Nat) :=
  if !m.matched && (m.pos = start || !re.anchored) then do
    let place : Place := { pos := m.pos, prev := m.prev, next := m.here.map Prod.fst }
    let work := List.replicate slots (-1)
    let added ← addThread re slots m.ws.current m.length 0 place work
    .ok ({ m.ws with
      current := added.threads, work := added.work, steps := m.ws.steps + added.steps }, added.size)
  else .ok (m.ws, m.length)

/-- One turn of the loop of `search`. -/
def searchTurn (re : Program) (input : Input) (slots start : Nat) (first : Bool) (m : Machine) :
    Exec (Turn Machine (Bool × Workspace)) := do
  let (ws, length) ← addStart re slots start m
  if length = 0 then .ok (.leave (m.matched, ws))
  else do
    let code := m.here.map Prod.fst
    let next_pos := match m.here with
      | some (_, width) => m.pos + width
      | none => m.pos
    let after ← match m.here with
      | some _ => input.scalar next_pos
      | none => .ok none
    let place : Place := { pos := next_pos, prev := code, next := after.map Prod.fst }
    let done ← pass re slots code place length 0 ws 0
    let matched := m.matched || done.matched
    if (done.matched && first) || code.isNone then .ok (.leave (matched, done.ws))
    else
      .ok (.go {
        ws := { done.ws with current := done.ws.next, next := done.ws.current }
        length := done.length
        matched := matched
        pos := next_pos
        prev := code
        here := after })

def search (re : Program) (input : Input) (ws : Workspace) (start slots : Nat) (first : Bool) :
    Exec (Bool × Workspace) := do
  let prev ← input.before start
  let here ← input.scalar start
  loop (input.length + 2) (searchTurn re input slots start first)
    { ws, length := 0, matched := false, pos := start, prev, here }

def locate (re : Program) (input : Input) (start : Int) : Exec (Option (Int × Int)) :=
  if !input.boundary start then .ok none
  else do
    let (found, ws) ← search re input (workspace re 2) start.toNat 2 false
    if found then do
      let first ← FaultVec.index ws.best 0
      let last ← FaultVec.index ws.best 1
      .ok (some (first, last))
    else .ok none

def groupSpans (best : Slots) : Nat → Nat → Exec (List (Int × Int))
  | 0, _ => .ok []
  | count + 1, group => do
    let first ← FaultVec.index best (2 * group : Nat)
    let last ← FaultVec.index best (2 * group + 1 : Nat)
    let rest ← groupSpans best count (group + 1)
    .ok ((if first < 0 ∨ last < 0 then (-1, -1) else (first, last)) :: rest)

def spansOf (re : Program) (input : Input) : Exec (Option (List (Int × Int))) := do
  let slots := 2 * (re.groups + 1)
  let (found, ws) ← search re input (workspace re slots) 0 slots false
  if found then do
    let spans ← groupSpans ws.best (re.groups + 1) 0
    .ok (some spans)
  else .ok none

def matchesFrom (re : Program) (input : Input) (slots : Nat) : Nat → Workspace → Nat → List Slots → Exec (List Slots)
  | 0, _, _, _ => .error .diverged
  | fuel + 1, ws, start, output => do
    let (found, ws) ← search re input ws start slots false
    if found then do
      let output := output ++ [ws.best]
      let first ← FaultVec.index ws.best 0
      let last ← FaultVec.index ws.best 1
      if first < last then matchesFrom re input slots fuel ws last.toNat output
      else if input.length ≤ last then .ok output
      else do
        match ← input.scalar last.toNat with
        | some (_, width) => matchesFrom re input slots fuel ws (last.toNat + width) output
        | none => .error .bounds
    else .ok output

def allMatches (re : Program) (input : Input) (slots : Nat) : Exec (List Slots) :=
  matchesFrom re input slots (input.length + 2) (workspace re slots) 0 []

def spans : List Slots → Exec (List (Int × Int))
  | [] => .ok []
  | m :: ms => do
    let first ← FaultVec.index m 0
    let last ← FaultVec.index m 1
    let rest ← spans ms
    .ok ((first, last) :: rest)

def isMatch (re : Program) (text : Str) : Exec Bool := do
  let (found, _) ← search re (.utf16 text) (workspace re 0) 0 0 true
  .ok found

def find (re : Program) (text : Str) : Exec (Option (Int × Int)) :=
  locate re (.utf16 text) 0

def findAt (re : Program) (start : Int) (text : Str) : Exec (Option (Int × Int)) :=
  locate re (.utf16 text) start

def findAll (re : Program) (text : Str) : Exec (List (Int × Int)) := do
  let found ← allMatches re (.utf16 text) 2
  spans found

def captures (re : Program) (text : Str) : Exec (Option (List (Int × Int))) :=
  spansOf re (.utf16 text)

def searchSteps (re : Program) (text : Str) : Exec Nat := do
  let (_, ws) ← search re (.utf16 text) (workspace re 2) 0 2 false
  .ok ws.steps

def isMatchUtf8 (re : Program) (text : List Nat) : Exec Bool := do
  let (found, _) ← search re (.utf8 text) (workspace re 0) 0 0 true
  .ok found

def findUtf8 (re : Program) (text : List Nat) : Exec (Option (Int × Int)) :=
  locate re (.utf8 text) 0

def findAtUtf8 (re : Program) (start : Int) (text : List Nat) : Exec (Option (Int × Int)) :=
  locate re (.utf8 text) start

def findAllUtf8 (re : Program) (text : List Nat) : Exec (List (Int × Int)) := do
  let found ← allMatches re (.utf8 text) 2
  spans found

def capturesUtf8 (re : Program) (text : List Nat) : Exec (Option (List (Int × Int))) :=
  spansOf re (.utf8 text)

end Tsuzuri.Regex
