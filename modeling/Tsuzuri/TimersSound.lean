import Tsuzuri.TimersParts

/-!
# What every section and every act keeps

`Kept` says what a record in use has to do with those that hold it, the acts that will use or free it, and the heap.
-/

namespace Tsuzuri.Clock

open IndexedHeap List

section Measures

def owed : Act → Nat
  | .gone n => n
  | _ => 0

/-- The references to the context of `t` that the act lets go of. -/
def ctxTokens (t : Record) : Act → Nat
  | .expire u | .ctxUnref u => if u = t then 1 else 0
  | _ => 0

/-- The pins of the AfterFunc of `t` that the act lets go of. -/
def pins (t : Record) : Act → Nat
  | .unpin u => if u = t then 1 else 0
  | _ => 0

/-- The pin of the AfterFunc of `t` that the act still has. -/
def takes (t : Record) : Act → Nat
  | .takeBox u => if u = t then 1 else 0
  | _ => 0

def frees (t : Record) : Act → Nat
  | .free u => if u = t then 1 else 0
  | _ => 0

def timerFrees (t : Record) : Act → Nat
  | .timerFree u => if u = t then 1 else 0
  | _ => 0

def handed (b : Box) : Act → Nat
  | .spawn b' => if b' = b then 1 else 0
  | .drop b' => if b' = b then 1 else 0
  | _ => 0

end Measures

/-- What the acts to be done will do to a record: let go of a reference or a pin, take its box, free it. -/
structure Claims where
  ctx : Nat
  pin : Nat
  take : Nat
  free : Nat
  timerFree : Nat

def claims (t : Record) (acts : List Act) : Claims where
  ctx := total (ctxTokens t) acts
  pin := total (pins t) acts
  take := total (takes t) acts
  free := total (frees t) acts
  timerFree := total (timerFrees t) acts

/-- A record in use, beside those that hold it and the acts to be done. `owner` says who frees it: whoever lets go of
the last reference, a `timer_free` or a free that is to be done, or its own firing when it has no handle. -/
structure Kept (r : Timer) (held refs : Nat) (after : Bool) (c : Claims) : Prop where
  counts : refs = held + c.ctx + c.pin + c.take + if r.kind = .ctx ∧ r.state = .pending then 1 else 0
  owner : (0 < refs ∧ c.free = 0 ∧ c.timerFree = 0) ∨ (refs = 0 ∧ c.free = 0 ∧ c.timerFree = 1 ∧ r.handle = true) ∨
    (refs = 0 ∧ c.free = 1 ∧ c.timerFree = 0 ∧ r.state ≠ .pending ∧ r.state ≠ .dormant ∧ r.scope = none ∧
      r.box = none ∧ r.kind ≠ .ctx) ∨
    (refs = 0 ∧ c.free = 0 ∧ c.timerFree = 0 ∧ r.handle = false ∧ (r.kind = .send ∨ r.kind = .tick) ∧
      r.state = .pending)
  frame : r.kind = .wake ∨ r.kind = .net → r.handle = false ∧ r.scope = none
  inner : r.kind = .ctx → r.handle = false
  loose : r.kind = .send ∨ r.kind = .tick → r.handle = false → refs = 0
  boxed : r.box ≠ none → r.kind = .func
  func : r.kind = .func → r.handle = true ∧ (r.state = .pending ∨ r.state = .dormant → r.box ≠ none)
  dormant : r.state = .dormant → r.kind = .func ∧ after = true
  tick : r.kind = .tick → 0 < r.period
  single : after = false → r.kind ≠ .ctx → refs ≤ 1
  ctxs : 0 < c.ctx → r.kind = .ctx
  pinned : 0 < c.pin + c.take → after = true
  after : after = true → r.kind = .func
  taken : 0 < c.take → r.state ≠ .pending ∧ r.state ≠ .dormant
  idle : r.kind ≠ .func → r.state ≠ .pending → r.scope = none

/-- A record that is not in use. -/
structure Unused (held : Nat) (c : Claims) : Prop where
  held : held = 0
  ctx : c.ctx = 0
  pin : c.pin = 0
  take : c.take = 0
  free : c.free = 0
  timerFree : c.timerFree = 0

def Timers.KeptAt (s : Timers) (t : Record) : Prop :=
  if s.live t = true then Kept (s.recs t) (s.held t) (s.refs t) (s.afterFunc t) (claims t s.acts)
  else Unused (s.held t) (claims t s.acts)

structure Timers.Inv (s : Timers) : Prop where
  heapOk : s.HeapOk
  listsOk : s.ListsOk
  counted : s.ntimers = s.heap.count + total owed s.acts
  kept : ∀ t, s.KeptAt t

def Timers.Holds (s : Timers) (t : Record) (b : Box) : Prop :=
  s.live t = true ∧ (s.recs t).box = some b

/-- A function belongs to one record until it is handed over, and from then on it has been run or dropped, as `done`
counts, or one act will do so. -/
structure Timers.BoxesOk (s : Timers) (done : Box → Nat) : Prop where
  one : ∀ {b t u}, s.Holds t b → s.Holds u b → t = u
  held : ∀ {b t}, s.Holds t b → s.made b = true ∧ done b + total (handed b) s.acts = 0
  gone : ∀ {b}, s.made b = true → (∀ t, ¬ s.Holds t b) → done b + total (handed b) s.acts = 1
  unmade : ∀ {b}, s.made b = false → done b + total (handed b) s.acts = 0

def doneBy (b : Box) : List Event → Nat
  | [] => 0
  | .ran b' :: es => (if b' = b then 1 else 0) + doneBy b es
  | .dropped b' :: es => (if b' = b then 1 else 0) + doneBy b es
  | _ :: es => doneBy b es

/-- The timer `t` goes into the heap only from outside, and out of it only from inside. -/
def armStep (t : Record) (armed : Bool) : Event → Option Bool
  | .armed u => if u = t then (if armed then none else some true) else some armed
  | .fired u | .took u => if u = t then (if armed then some false else none) else some armed
  | _ => some armed

/-- The events of `t`, one after the other, from in or out of the heap. -/
def armFold (t : Record) : Bool → List Event → Option Bool
  | armed, [] => some armed
  | armed, e :: es => (armStep t armed e).bind fun armed' => armFold t armed' es

def InOrder : List (Record × Int) → Prop
  | [] => True
  | [_] => True
  | p :: q :: ps => p.2 ≤ q.2 ∧ InOrder (q :: ps)

def Event.Clean : Event → Prop
  | .stale _ => False
  | .noFunction _ => False
  | .batch _ now ts ended => ended = true ∧ InOrder ts ∧ ∀ p ∈ ts, p.2 ≤ now
  | _ => True

structure StepOk (s s' : Timers) (es : List Event) : Prop where
  inv : s'.Inv
  trace : ∀ t, armFold t (decide (s.Pends t)) es = some (decide (s'.Pends t))
  boxes : ∀ done, s.BoxesOk done → s'.BoxesOk fun b => done b + doneBy b es
  clean : ∀ e ∈ es, e.Clean

section Basics

variable {s s' : Timers} {t : Record}

theorem armFold_append (t : Record) (es es' : List Event) : ∀ armed : Bool,
    armFold t armed (es ++ es') = (armFold t armed es).bind fun armed' => armFold t armed' es' := by
  induction es with
  | nil => exact fun _ => rfl
  | cons e es ih =>
    intro armed
    simp only [cons_append, armFold]
    cases armStep t armed e with
    | none => rfl
    | some armed' => exact ih armed'

theorem doneBy_append (b : Box) (es es' : List Event) : doneBy b (es ++ es') = doneBy b es + doneBy b es' := by
  induction es with
  | nil => simp [doneBy]
  | cons e es ih => cases e <;> simp [doneBy, ih, Nat.add_assoc]

theorem Timers.Inv.keptLive (h : s.Inv) (hlive : s.live t = true) :
    Kept (s.recs t) (s.held t) (s.refs t) (s.afterFunc t) (claims t s.acts) := by
  have hk := h.kept t
  rwa [Timers.KeptAt, if_pos hlive] at hk

theorem Timers.Inv.unused (h : s.Inv) (hdead : s.live t = false) : Unused (s.held t) (claims t s.acts) := by
  have hk := h.kept t
  rwa [Timers.KeptAt, if_neg (by simp [hdead])] at hk

theorem Timers.Inv.live_of_held (h : s.Inv) (hheld : 0 < s.held t) : s.live t = true := by
  by_contra hdead
  have := (h.unused (by simpa using hdead)).held
  omega

theorem Timers.Inv.live_of_claim (h : s.Inv) (hclaim : 0 < (claims t s.acts).ctx + (claims t s.acts).pin +
    (claims t s.acts).take + (claims t s.acts).free + (claims t s.acts).timerFree) : s.live t = true := by
  by_contra hdead
  have hu := h.unused (by simpa using hdead)
  have := hu.ctx
  have := hu.pin
  have := hu.take
  have := hu.free
  have := hu.timerFree
  omega

theorem stale_nil {ts : List Record} (h : ∀ t ∈ ts, s.live t = true) : s.stale ts = [] := by
  unfold Timers.stale
  rw [filter_eq_nil_iff.2 fun t ht => by simp [h t ht]]
  rfl

theorem Timers.Inv.live_heap (h : s.Inv) : ∀ t ∈ s.heapRecords, s.live t = true := by
  intro t ht
  obtain ⟨i, hi, rfl⟩ := mem_map.1 ht
  exact ((h.heapOk.pends _).1 ⟨i, mem_range.1 hi, rfl⟩).1

theorem Timers.Inv.live_list (h : s.Inv) (scope : Scope) : ∀ t ∈ s.lists scope, s.live t = true :=
  fun _ ht => ((h.listsOk.listed scope _).1 ht).1

theorem Timers.Inv.live_reach (h : s.Inv) (hlive : s.live t = true) : ∀ u ∈ s.reach t, s.live u = true := by
  intro u hu
  rw [Timers.reach, cons_append, mem_cons, mem_append] at hu
  rcases hu with rfl | hu | hu
  · exact hlive
  · exact h.live_heap u hu
  · unfold Timers.neighbours at hu
    split at hu
    · cases hu
    · exact h.live_list _ u hu

theorem Timers.Inv.stale_reach (h : s.Inv) (hlive : s.live t = true) : s.stale (s.reach t) = [] :=
  stale_nil (h.live_reach hlive)

theorem Timers.Inv.stale_reach_append (h : s.Inv) (hlive : s.live t = true) (scope : Scope) :
    s.stale (s.reach t ++ s.lists scope) = [] :=
  stale_nil fun u hu => (mem_append.1 hu).elim (h.live_reach hlive u) (h.live_list scope u)

theorem Timers.Inv.stale_one (hlive : s.live t = true) : s.stale [t] = [] :=
  stale_nil fun u hu => by rwa [mem_singleton.1 hu]

/-- A state whose records but `t` are as they were. -/
structure Others (s s' : Timers) (t : Record) : Prop where
  recs : ∀ u ≠ t, s'.recs u = s.recs u
  live : ∀ u ≠ t, s'.live u = s.live u
  held : ∀ u ≠ t, s'.held u = s.held u
  refs : ∀ u ≠ t, s'.refs u = s.refs u
  afterFunc : ∀ u ≠ t, s'.afterFunc u = s.afterFunc u
  acts : ∀ u ≠ t, claims u s'.acts = claims u s.acts

theorem Timers.Inv.of_others (h : s.Inv) (ho : Others s s' t) (heapOk : s'.HeapOk) (listsOk : s'.ListsOk)
    (counted : s'.ntimers = s'.heap.count + total owed s'.acts) (here : s'.KeptAt t) : s'.Inv where
  heapOk := heapOk
  listsOk := listsOk
  counted := counted
  kept u := by
    by_cases hut : u = t
    · exact hut ▸ here
    · have hk := h.kept u
      unfold Timers.KeptAt at hk ⊢
      rwa [ho.recs u hut, ho.live u hut, ho.held u hut, ho.refs u hut, ho.afterFunc u hut, ho.acts u hut]

theorem Timers.BoxesOk.congr {done : Box → Nat} {es : List Event} (h : s.BoxesOk done)
    (hholds : ∀ u b, s'.Holds u b ↔ s.Holds u b) (hmade : s'.made = s.made)
    (hacts : ∀ b, doneBy b es + total (handed b) s'.acts = total (handed b) s.acts) :
    s'.BoxesOk fun b => done b + doneBy b es := by
  have hsum : ∀ b, done b + doneBy b es + total (handed b) s'.acts = done b + total (handed b) s.acts := by
    intro b
    rw [Nat.add_assoc, hacts]
  constructor
  · exact fun ht hu => h.one ((hholds _ _).1 ht) ((hholds _ _).1 hu)
  · intro b u hu
    rw [hmade, hsum]
    exact h.held ((hholds _ _).1 hu)
  · intro b hb hnone
    rw [hsum]
    exact h.gone (hmade ▸ hb) fun u hu => hnone u ((hholds _ _).2 hu)
  · intro b hb
    rw [hsum]
    exact h.unmade (hmade ▸ hb)

theorem Timers.BoxesOk.move {done : Box → Nat} {es : List Event} (h : s.BoxesOk done)
    (hhere : ∀ b, ¬ s'.Holds t b) (hothers : ∀ u ≠ t, ∀ b, s'.Holds u b ↔ s.Holds u b) (hmade : s'.made = s.made)
    (hacts : ∀ b, doneBy b es + total (handed b) s'.acts =
      total (handed b) s.acts + if (s.recs t).box = some b then 1 else 0) (hlive : s.live t = true) :
    s'.BoxesOk fun b => done b + doneBy b es := by
  have hsum : ∀ b, done b + doneBy b es + total (handed b) s'.acts =
      done b + total (handed b) s.acts + if (s.recs t).box = some b then 1 else 0 := by
    intro b
    have := hacts b
    omega
  have hback : ∀ {u b}, s'.Holds u b → u ≠ t ∧ s.Holds u b := by
    intro u b hu
    have hut : u ≠ t := fun e => hhere b (e ▸ hu)
    exact ⟨hut, (hothers u hut b).1 hu⟩
  constructor
  · exact fun ht hu => h.one (hback ht).2 (hback hu).2
  · intro b u hu
    obtain ⟨hut, hu⟩ := hback hu
    obtain ⟨hm, hz⟩ := h.held hu
    rw [hmade, hsum, hz, if_neg fun e => hut (h.one hu ⟨hlive, e⟩)]
    exact ⟨hm, rfl⟩
  · intro b hb hnone
    rw [hsum]
    by_cases hbox : (s.recs t).box = some b
    · rw [if_pos hbox, (h.held ⟨hlive, hbox⟩).2]
    · rw [if_neg hbox]
      refine h.gone (hmade ▸ hb) fun u hu => ?_
      by_cases hut : u = t
      · exact hbox (hut ▸ hu.2)
      · exact hnone u ((hothers u hut b).2 hu)
  · intro b hb
    rw [hsum, h.unmade (hmade ▸ hb)]
    rw [if_neg]
    intro hbox
    have := (h.held ⟨hlive, hbox⟩).1
    rw [hmade] at hb
    simp [hb] at this

theorem StepOk.trans {s s' s'' : Timers} {es es' : List Event} (h : StepOk s s' es)
    (h' : StepOk s' s'' es') : StepOk s s'' (es ++ es') where
  inv := h'.inv
  trace t := by
    rw [armFold_append, h.trace t]
    exact h'.trace t
  boxes done hok := by
    have hsum : (fun b => done b + doneBy b (es ++ es')) = fun b => done b + doneBy b es + doneBy b es' := by
      funext b
      rw [doneBy_append, Nat.add_assoc]
    rw [hsum]
    exact h'.boxes _ (h.boxes done hok)
  clean e he := (mem_append.1 he).elim (h.clean e) (h'.clean e)

end Basics

end Tsuzuri.Clock
