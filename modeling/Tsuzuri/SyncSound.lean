import Tsuzuri.SyncWords

/-!
# The sync types are safe and lose no wake-up

After every run of the calls the words keep their invariants (`WordInv`), and the list of the held locks of each `G`
names the locks that it holds (`Agrees`).
-/

namespace Tsuzuri.Sync

open Parking ParkingLot Transition List Option
open Function (update_of_ne update_self)
open RwMutex (wrap rwMutex Hold)

/-! ## What an operation takes -/

def holds : (k : Kind) → (prim k).Idle ⊕ (prim k).Code → Option HeldKind
  | .mutex, .inl true => some .mutex
  | .rwMutex, .inl .read => some .read
  | .rwMutex, .inl .write => some .write
  | _, _ => none

def Mutex.Takes : Option HeldKind → Mutex.Code → Prop
  | some .mutex, .tryLock held => held = false
  | some .mutex, .spin held _ => held = false
  | some .mutex, .spinTake held _ => held = false
  | some .mutex, .exchange held => held = false
  | some .mutex, .wait held => held = false
  | none, .unlock => True
  | none, .wake => True
  | _, _ => False

def rwTakes : Option HeldKind → RwMutex.Code → Prop
  | some .read, .readLoad => True
  | some .read, .readTake _ => True
  | some .read, .readWait _ => True
  | some .write, .writeLoad _ => True
  | some .write, .writeTake _ _ => True
  | some .write, .writeCount _ => True
  | some .write, .writeWait _ => True
  | some .write, .giveUp => True
  | none, .readUnlock => True
  | none, .readWake => True
  | none, .writeUnlock => True
  | none, .writeWake => True
  | _, _ => False

/-- An operation that ends with status 0 has taken `o`, and nothing otherwise. -/
def Takes : (k : Kind) → Option HeldKind → (prim k).Code → Prop
  | .mutex, o, code => Mutex.Takes o code
  | .rwMutex, o, code => rwTakes o code
  | _, o, _ => o = none

def Lands (k : Kind) (o : Option HeldKind) : Next (prim k).Code (prim k).Idle → Prop
  | .goto code => Takes k o code
  | .ends i status => holds k (.inl i) = if status = 0 then o else none

def InstrLands (k : Kind) (o : Option HeldKind) : Instr (prim k).Code (prim k).Idle → Prop
  | .atomic effect => ∀ word out, out ∈ effect word → Lands k o out.2
  | .wait _ next doomed => Takes k o next ∧ Lands k o doomed
  | .wake _ next => Lands k o next

def Unlisted (k : Kind) : Prop := (∀ p, holds k p = none) ∧ ∀ o code, Takes k o code ↔ o = none

variable {k : Kind} {o : Option HeldKind} {code : (prim k).Code} {hk : HeldKind} {op : (prim k).Op}
  {i : (prim k).Idle} {held : List Held}

theorem unlisted (hmutex : k ≠ .mutex) (hrw : k ≠ .rwMutex) : Unlisted k := by
  cases k with
  | mutex => exact absurd rfl hmutex
  | rwMutex => exact absurd rfl hrw
  | _ => exact ⟨fun _ => rfl, fun _ _ => Iff.rfl⟩

theorem Unlisted.lands (h : Unlisted k) (next : Next (prim k).Code (prim k).Idle) : Lands k none next := by
  cases next with
  | goto code => exact (h.2 none code).mpr rfl
  | ends i status =>
    change holds k (.inl i) = _
    rw [h.1]
    split <;> rfl

theorem Unlisted.instrLands (h : Unlisted k) (instr : Instr (prim k).Code (prim k).Idle) : InstrLands k none instr := by
  cases instr with
  | atomic effect => exact fun _ _ _ => h.lands _
  | wait expected next doomed => exact ⟨(h.2 none next).mpr rfl, h.lands doomed⟩
  | wake count next => exact h.lands next

theorem lands_exchange {expected desired : Nat} {done failed : Next (prim k).Code (prim k).Idle}
    (hdone : Lands k o done) (hfailed : Lands k o failed) :
    ∀ word out, out ∈ exchange expected desired done failed word → Lands k o out.2 := by
  intro word out hout
  rcases mem_exchange hout with ⟨-, -, h⟩ | ⟨-, h⟩
  · rwa [h]
  · rwa [h]

theorem Mutex.takes_instr {code : Mutex.Code} (h : Mutex.Takes o code) : InstrLands .mutex o (Mutex.instr code) := by
  have hrespin : ∀ n, Mutex.Takes (some .mutex) (Mutex.respin false n) := by
    intro n
    unfold Mutex.respin
    split <;> rfl
  rcases o with - | (- | - | -)
  · cases code with
    | unlock =>
      intro word out hout
      obtain rfl := mem_singleton.mp hout
      by_cases htwo : word = 2
      · rw [if_pos htwo]
        trivial
      · rw [if_neg htwo]
        rfl
    | wake => exact rfl
    | _ => exact h.elim
  · cases code with
    | tryLock held =>
      obtain rfl : held = false := h
      intro word out hout
      rcases Mutex.mem_tryLock (show Mutex.instr (.tryLock false) = _ from rfl) hout with ⟨-, -, h⟩ | ⟨-, h⟩ <;>
        rw [h] <;> rfl
    | spin held n =>
      obtain rfl : held = false := h
      intro word out hout
      obtain rfl := mem_singleton.mp hout
      by_cases hzero : word = 0
      · rw [if_pos hzero]
        rfl
      · rw [if_neg hzero]
        exact hrespin n
    | spinTake held n =>
      obtain rfl : held = false := h
      exact lands_exchange (k := .mutex) rfl (hrespin n)
    | exchange held =>
      obtain rfl : held = false := h
      intro word out hout
      obtain rfl := mem_singleton.mp hout
      by_cases hzero : word = 0
      · rw [if_pos hzero]
        rfl
      · rw [if_neg hzero]
        rfl
    | wait held =>
      obtain rfl : held = false := h
      exact ⟨rfl, rfl⟩
    | unlock => exact h.elim
    | wake => exact h.elim
  · exact h.elim
  · exact h.elim

theorem rwTakes_instr {code : RwMutex.Code} (h : rwTakes o code) : InstrLands .rwMutex o (RwMutex.instr code) := by
  rcases o with - | (- | - | -)
  · cases code with
    | readUnlock =>
      intro word out hout
      obtain rfl := mem_singleton.mp hout
      dsimp only
      split
      · trivial
      · rfl
    | readWake => exact rfl
    | writeUnlock =>
      intro word out hout
      obtain rfl := mem_singleton.mp hout
      trivial
    | writeWake => exact rfl
    | _ => exact h.elim
  · cases code <;> exact h.elim
  · cases code with
    | readLoad =>
      intro word out hout
      obtain rfl := mem_singleton.mp hout
      dsimp only
      split <;> trivial
    | readTake old => exact lands_exchange (k := .rwMutex) rfl trivial
    | readWait old => exact ⟨trivial, rfl⟩
    | _ => exact h.elim
  · cases code with
    | writeLoad counted =>
      intro word out hout
      obtain rfl := mem_singleton.mp hout
      dsimp only
      split
      · trivial
      · split <;> trivial
    | writeTake old counted => exact lands_exchange (k := .rwMutex) rfl trivial
    | writeCount old => exact lands_exchange (k := .rwMutex) trivial trivial
    | writeWait old => exact ⟨trivial, trivial⟩
    | giveUp =>
      intro word out hout
      obtain rfl := mem_singleton.mp hout
      rfl
    | _ => exact h.elim

theorem takes_instr (h : Takes k o code) : InstrLands k o ((prim k).instr code) := by
  by_cases hmutex : k = .mutex
  · subst hmutex
    exact Mutex.takes_instr h
  · by_cases hrw : k = .rwMutex
    · subst hrw
      exact rwTakes_instr h
    · obtain rfl := ((unlisted hmutex hrw).2 o code).mp h
      exact (unlisted hmutex hrw).instrLands _

def PhaseTakes (k : Kind) (o : Option HeldKind) : Phase (prim k) → Prop
  | .idle _ => False
  | .run code => Takes k o code
  | .parked next doomed => Takes k o next ∧ Lands k o doomed
  | .doomed next doomed => Takes k o next ∧ Lands k o doomed

theorem phaseTakes_ready {phase : Phase (prim k)} (h : PhaseTakes k o phase) : PhaseTakes k o phase.ready := by
  cases phase with
  | parked next doomed => exact h.1
  | _ => exact h

/-- An operation under way goes on, or ends with what it takes. -/
inductive Goes (k : Kind) (o : Option HeldKind) : Phase (prim k) → List Nat → Prop
  | on {phase} (takes : PhaseTakes k o phase) : Goes k o phase []
  | ends {i status} (takes : holds k (.inl i) = if status = 0 then o else none) : Goes k o (.idle i) [status]

theorem Goes.takes {phase : Phase (prim k)} (h : Goes k o phase []) : PhaseTakes k o phase := by
  cases h with
  | on takes => exact takes

theorem Goes.idle {phase : Phase (prim k)} {status : Nat} (h : Goes k o phase [status]) :
    ∃ i, phase = .idle i ∧ holds k (.inl i) = if status = 0 then o else none := by
  cases h with
  | ends takes => exact ⟨_, rfl, takes⟩

variable {G : Type} [DecidableEq G] {kind : Nat → Kind}

omit [DecidableEq G] in
theorem Lands.goes {next : Next (prim k).Code (prim k).Idle} (h : Lands k o next) (g : G) :
    Goes k o next.phase ((next.ended g).map Prod.snd) := by
  cases next with
  | goto code => exact .on h
  | ends i status => exact .ends h

variable {es : List (G × Nat)} {a : LotAct G kind prim} {addr : Nat}

theorem PhaseTakes.move {s t : Word (prim k) G} {g : G} (h : PhaseTakes k o (s.phase g))
    (hmove : Move s g t es) : Goes k o (t.phase g) (es.map Prod.snd) := by
  cases hmove with
  | start hphase hstart =>
    rw [hphase] at h
    exact h.elim
  | atomic hphase hinstr hmem =>
    rw [hphase] at h
    have hlands := takes_instr h
    rw [hinstr] at hlands
    rw [Word.set_self]
    exact (hlands _ _ hmem).goes g
  | park hphase hinstr hword =>
    rw [hphase] at h
    have hlands := takes_instr h
    rw [hinstr] at hlands
    rw [Word.set_self]
    exact .on hlands
  | pass hphase hinstr hword =>
    rw [hphase] at h
    have hlands := takes_instr h
    rw [hinstr] at hlands
    rw [Word.set_self]
    exact .on hlands.1
  | wake hphase hinstr =>
    rw [hphase] at h
    have hlands := takes_instr h
    rw [hinstr] at hlands
    rw [Word.set_self]
    exact Lands.goes hlands g
  | leave hphase hmem =>
    rw [hphase] at h
    rw [Word.set_self]
    exact h.2.goes g
  | late hphase hmem =>
    rw [hphase] at h
    rw [Word.set_self]
    exact .on h.1
  | doom hphase =>
    rw [hphase] at h
    rw [Word.set_self]
    exact .on h

theorem lock_starts (hop : lockOp hk k = some op) (hstart : (prim k).start i op = some code)
    (hfree : holds k (.inl i) = none) : Takes k (some hk) code := by
  cases hk with
  | mutex =>
    cases k with
    | mutex =>
      cases hop
      cases hstart
      cases i with
      | false => exact rfl
      | true => exact nomatch hfree
    | _ => exact nomatch hop
  | read =>
    cases k with
    | rwMutex =>
      cases hop
      cases i with
      | free =>
        cases hstart
        trivial
      | read => exact nomatch hfree
      | write => exact nomatch hfree
    | _ => exact nomatch hop
  | write =>
    cases k with
    | rwMutex =>
      cases hop
      cases i with
      | free =>
        cases hstart
        trivial
      | read => exact nomatch hfree
      | write => exact nomatch hfree
    | _ => exact nomatch hop

theorem unlock_starts (hop : unlockOp hk k = some op) (hstart : (prim k).start i op = some code) :
    holds k (.inl i) = some hk ∧ Takes k none code := by
  cases hk with
  | mutex =>
    cases k with
    | mutex =>
      cases hop
      cases i with
      | true =>
        cases hstart
        exact ⟨rfl, trivial⟩
      | false => exact nomatch hstart
    | _ => exact nomatch hop
  | read =>
    cases k with
    | rwMutex =>
      cases hop
      cases i with
      | read =>
        cases hstart
        exact ⟨rfl, trivial⟩
      | free | write => exact nomatch hstart
    | _ => exact nomatch hop
  | write =>
    cases k with
    | rwMutex =>
      cases hop
      cases i with
      | write =>
        cases hstart
        exact ⟨rfl, trivial⟩
      | free | read => exact nomatch hstart
    | _ => exact nomatch hop

theorem unlisted_of_plainOp (h : plainOp k op = true) : Unlisted k := by
  refine unlisted ?_ ?_
  · rintro rfl
    exact nomatch h
  · rintro rfl
    exact nomatch h

theorem unlisted_of_waitOp {observed : Nat} (h : waitOp observed k = some op) : Unlisted k := by
  refine unlisted ?_ ?_
  · rintro rfl
    exact nomatch h
  · rintro rfl
    exact nomatch h

/-! ## The list of the held locks -/

theorem heldHas_eq_true {word : Nat} : heldHas held word = true ↔ ∃ e ∈ held, e.word = word := by
  simp [heldHas]

theorem heldPop_eq (hnodup : (held.map (·.word)).Nodup) (word : Nat) :
    heldPop held word = held.filter (·.word ≠ word) := by
  unfold heldPop
  rw [reverse_eq_iff, ← filter_reverse]
  have hrev : (held.reverse.map (·.word)).Nodup := by
    rw [map_reverse]
    exact nodup_reverse.mpr hnodup
  generalize held.reverse = l at *
  induction l with
  | nil => rfl
  | cons e rest ih =>
    obtain ⟨hnot, hrest⟩ := nodup_cons.mp hrev
    by_cases hword : e.word = word
    · rw [eraseP_cons_of_pos (by simpa using hword), filter_cons_of_neg (by simpa using hword), filter_eq_self.mpr]
      intro x hx
      have hne : x.word ≠ word := fun heq => hnot (mem_map.mpr ⟨x, hx, heq.trans hword.symm⟩)
      simpa using hne
    · rw [eraseP_cons_of_neg (by simpa using hword), filter_cons_of_pos (by simpa using hword), ih hrest]

def ledger (g : G) (held : List Held) : Event G → List Held
  | .took x e => if x = g then held ++ [e] else held
  | .gave x e => if x = g then held.filter (· ≠ e) else held
  | _ => held

theorem holds_inr (code : (prim k).Code) : holds k (.inr code) = none := by
  cases k <;> rfl

def Task.lock : Task → Option Held
  | .locking e => some e
  | .condLocking mutex _ => some ⟨mutex, .mutex⟩
  | _ => none

/-- The list of a `G` names the locks that it holds, and its operation is one of its call. -/
structure Agrees (s : State G kind) (g : G) : Prop where
  nodup : ((s.held g).map (·.word)).Nodup
  held_iff : ∀ e, e ∈ s.held g ↔ holds (kind e.word) (s.lot.phase g e.word).place = some e.kind
  idle : s.task g = none → s.lot.busy g = none
  busy : ∀ task, s.task g = some task → ∃ addr, s.lot.busy g = some addr ∧ (∀ e, task.lock = some e → e.word = addr) ∧
    PhaseTakes (kind addr) (task.lock.map (·.kind)) (s.lot.phase g addr)
  restoring : ∀ depth before, s.task g = some (.restoring depth before) → (s.held g).take depth = before.take depth

/-- The `G` is between operations, and holds what its list says, and what it has just taken. -/
structure Ready (s : State G kind) (g : G) (taken : Option Held) : Prop where
  nodup : ((s.held g).map (·.word)).Nodup
  busy : s.lot.busy g = none
  held_iff : ∀ e, e ∈ s.held g ∨ taken = some e ↔ holds (kind e.word) (s.lot.phase g e.word).place = some e.kind
  fresh : ∀ e, taken = some e → ∀ x ∈ s.held g, x.word ≠ e.word

/-- What a step of a call does, apart from the operation that it ran: it may begin one. -/
structure Served (thread : G → Bool) (s : State G kind) (g : G) (t : State G kind) (es : List (Event G)) : Prop where
  lot : t.lot = s.lot ∨ ∃ addr op, s.lot.step thread (.start g addr op) = some (t.lot, [])
  agrees : Agrees t g
  ledger : t.held g = es.foldl (ledger g) (s.held g)
  others : ∀ x, x ≠ g → t.held x = s.held x ∧ t.task x = s.task x ∧ es.foldl (Sync.ledger x) (s.held x) = s.held x
  restored : ∀ x depth before after, .restored x depth before after ∈ es → after = before.take depth

section Calls

variable {thread : G → Bool} {s t : State G kind} {g : G} {es : List (Event G)}

theorem Ready.agrees (h : Ready s g none) : Agrees (s.setTask g none) g where
  nodup := h.nodup
  held_iff e := (or_iff_left nofun).symm.trans (h.held_iff e)
  idle _ := h.busy
  busy task htask := by simp [State.setTask] at htask
  restoring depth before htask := by simp [State.setTask] at htask

theorem Ready.ends (h : Ready s g none) (status : Nat) : Served thread s g (s.ends g status).1 (s.ends g status).2 where
  lot := .inl rfl
  agrees := h.agrees
  ledger := rfl
  others x hx := ⟨rfl, update_of_ne hx .., rfl⟩
  restored := by simp [State.ends]

variable {e : Held} {status addr : Nat} {task : Task}

theorem Ready.locked (h : Ready s g (if status = 0 then some e else none)) (result : Nat) :
    Served thread s g (s.locked g e status result).1 (s.locked g e status result).2 := by
  unfold State.locked
  by_cases hzero : status = 0
  · rw [if_pos hzero] at h ⊢
    refine ⟨.inl rfl, ⟨?_, fun x => ?_, fun _ => h.busy, fun task htask => ?_, fun _ _ htask => ?_⟩, ?_,
      fun x hx => ?_, ?_⟩
    · simp only [State.setTask, State.setHeld, update_self, heldPush, map_append]
      refine nodup_append.mpr ⟨h.nodup, nodup_singleton _, fun w hw y hy heq => ?_⟩
      obtain ⟨x, hx, rfl⟩ := mem_map.mp hw
      rw [map_singleton, mem_singleton] at hy
      exact h.fresh e rfl x hx (heq.trans hy)
    · have hiff := h.held_iff x
      simp only [State.setTask, State.setHeld, update_self, heldPush, mem_append, mem_singleton]
      rw [← hiff, Option.some.injEq, eq_comm (a := e)]
    · simp [State.setTask] at htask
    · simp [State.setTask] at htask
    · simp [State.setTask, State.setHeld, heldPush, Sync.ledger]
    · refine ⟨update_of_ne hx .., update_of_ne hx .., ?_⟩
      simp [Sync.ledger, Ne.symm hx]
    · simp
  · rw [if_neg hzero] at h ⊢
    exact h.ends result

theorem Agrees.start {op : (prim (kind addr)).Op} (hstart : s.start thread g addr op task = some t)
    (hnodup : ((s.held g).map (·.word)).Nodup) (hheld : ∀ e, e ∈ s.held g ↔
      e.word ≠ addr ∧ holds (kind e.word) (s.lot.phase g e.word).place = some e.kind)
    (hlock : ∀ e, task.lock = some e → e.word = addr)
    (htakes : ∀ i code, s.lot.phase g addr = .idle i → (prim (kind addr)).start i op = some code →
      Takes (kind addr) (task.lock.map (·.kind)) code)
    (hrestoring : ∀ depth before, task = .restoring depth before → (s.held g).take depth = before.take depth) :
    Agrees t g ∧ s.lot.step thread (.start g addr op) = some (t.lot, []) ∧ t.held = s.held ∧
      ∀ x, x ≠ g → t.task x = s.task x := by
  obtain ⟨⟨lot, es⟩, hstep, rfl⟩ := map_eq_some_iff.mp hstart
  obtain ⟨rfl, -, hbusy, ⟨i, code, hphase, hcode, hrun⟩, hother, -⟩ := start_busy hstep
  refine ⟨⟨hnodup, fun e => ?_, fun htask => ?_, fun task' htask => ?_, fun depth before htask => ?_⟩, hstep, rfl,
    fun x hx => update_of_ne hx ..⟩
  · rw [show (State.setTask { s with lot := lot } g (some task)).held = s.held from rfl, hheld e]
    by_cases hword : e.word = addr
    · subst hword
      refine iff_of_false (fun h => h.1 rfl) ?_
      change holds _ (lot.phase g e.word).place ≠ _
      rw [hrun]
      exact fun h => nomatch (holds_inr code).symm.trans h
    · change _ ↔ holds _ (lot.phase g e.word).place = _
      rw [hother e.word hword]
      exact and_iff_right hword
  · simp [State.setTask] at htask
  · obtain rfl : task = task' := by simpa [State.setTask] using htask
    refine ⟨addr, ?_, hlock, ?_⟩
    · change lot.busy g = _
      rw [hbusy, update_self]
    · change PhaseTakes _ _ (lot.phase g addr)
      rw [hrun]
      exact htakes i code hphase hcode
  · obtain rfl : task = .restoring depth before := by simpa [State.setTask] using htask
    exact hrestoring depth before rfl

theorem Ready.lock {again : Nat} (h : Ready s g none) (hlock : s.lock thread g e again task = some (t, es))
    (htask : task.lock = some e) : Served thread s g t es := by
  unfold State.lock at hlock
  by_cases hhas : heldHas (s.held g) e.word = true
  · rw [if_pos hhas] at hlock
    cases hlock
    exact h.ends again
  · rw [if_neg hhas] at hlock
    simp only [Option.bind_eq_bind, Option.bind_eq_some_iff, Option.pure_def, Option.some.injEq, Prod.mk.injEq] at hlock
    obtain ⟨op, hop, t', hstart, rfl, rfl⟩ := hlock
    have hnot : ∀ x ∈ s.held g, x.word ≠ e.word := fun x hx heq => hhas (heldHas_eq_true.mpr ⟨x, hx, heq⟩)
    have hiff : ∀ x, x ∈ s.held g ↔ holds (kind x.word) (s.lot.phase g x.word).place = some x.kind :=
      fun x => (or_iff_left nofun).symm.trans (h.held_iff x)
    have htakes : ∀ i code, s.lot.phase g e.word = .idle i → (prim (kind e.word)).start i op = some code →
        Takes (kind e.word) (task.lock.map (·.kind)) code := by
      intro i code hphase hcode
      rw [htask]
      refine lock_starts hop hcode ?_
      -- what the list does not name is not held
      cases hholds : holds (kind e.word) (.inl i) with
      | none => rfl
      | some hk =>
        refine absurd rfl (hnot ⟨e.word, hk⟩ ((hiff _).mpr ?_))
        rw [hphase]
        exact hholds
    obtain ⟨hagrees, hstep, hheld, hothers⟩ := Agrees.start hstart h.nodup
      (fun x => ⟨fun hx => ⟨hnot x hx, (hiff x).mp hx⟩, fun hx => (hiff x).mpr hx.2⟩)
      (fun x hx => congrArg Held.word (Option.some.inj (hx.symm.trans htask)))
      htakes (fun depth before hrestoring => by subst hrestoring; exact nomatch htask)
    exact ⟨.inr ⟨_, _, hstep⟩, hagrees, by rw [hheld]; rfl, fun x hx => ⟨by rw [hheld], hothers x hx, rfl⟩, by simp⟩

theorem Ready.plain {op : (prim (kind addr)).Op} (h : Ready s g none) (hunlisted : Unlisted (kind addr))
    (hstart : s.start thread g addr op task = some t) (htask : task.lock = none)
    (hrestoring : ∀ depth before, task ≠ .restoring depth before) : Served thread s g t [] := by
  have hiff : ∀ x, x ∈ s.held g ↔ holds (kind x.word) (s.lot.phase g x.word).place = some x.kind :=
    fun x => (or_iff_left nofun).symm.trans (h.held_iff x)
  obtain ⟨hagrees, hstep, hheld, hothers⟩ := Agrees.start hstart h.nodup (fun x => by
      refine ⟨fun hx => ⟨?_, (hiff x).mp hx⟩, fun hx => (hiff x).mpr hx.2⟩
      rintro rfl
      exact nomatch (hunlisted.1 _).symm.trans ((hiff x).mp hx))
    (fun x hx => nomatch htask.symm.trans hx)
    (fun i code _ _ => (hunlisted.2 _ _).mpr (by rw [htask]; rfl))
    (fun depth before heq => absurd heq (hrestoring depth before))
  exact ⟨.inr ⟨_, _, hstep⟩, hagrees, by rw [hheld]; rfl, fun x hx => ⟨by rw [hheld], hothers x hx, rfl⟩, by simp⟩

theorem Ready.unlock (h : Ready s g none) (hunlock : s.unlock thread g e task = some (t, es))
    (htask : task.lock = none) (hrestoring : ∀ depth before, task = .restoring depth before →
      ((s.held g).filter (·.word ≠ e.word)).take depth = before.take depth) : Served thread s g t es := by
  unfold State.unlock at hunlock
  simp only [Option.bind_eq_bind, Option.bind_eq_some_iff, Option.pure_def, Option.some.injEq, Prod.mk.injEq] at hunlock
  obtain ⟨op, hop, t', hstart, rfl, rfl⟩ := hunlock
  have hiff : ∀ x, x ∈ s.held g ↔ holds (kind x.word) (s.lot.phase g x.word).place = some x.kind :=
    fun x => (or_iff_left nofun).symm.trans (h.held_iff x)
  have hpop : heldPop (s.held g) e.word = (s.held g).filter (·.word ≠ e.word) := heldPop_eq h.nodup e.word
  have hself : (s.setHeld g (heldPop (s.held g) e.word)).held g = (s.held g).filter (·.word ≠ e.word) := by
    rw [← hpop]
    exact update_self ..
  obtain ⟨hagrees, hstep, hheld, hothers⟩ := Agrees.start hstart
    (by rw [hself]; exact h.nodup.sublist (filter_sublist.map _))
    (fun x => by
      rw [hself, mem_filter, hiff x, decide_eq_true_iff]
      exact and_comm)
    (fun x hx => nomatch htask.symm.trans hx)
    (fun i code _ hcode => by
      rw [htask]
      exact (unlock_starts hop hcode).2)
    (fun depth before heq => by
      rw [hself]
      exact hrestoring depth before heq)
  -- the entry of the word is the one of the lock that is given back
  have hentry : (s.held g).filter (·.word ≠ e.word) = (s.held g).filter (· ≠ e) := by
    obtain ⟨-, -, -, ⟨i, code, hphase, hcode, -⟩, -⟩ := start_busy hstep
    have hmem : e ∈ s.held g := by
      refine (hiff e).mpr ?_
      rw [show s.lot.phase g e.word = .idle i from hphase]
      exact (unlock_starts hop hcode).1
    refine filter_congr fun x hx => decide_eq_decide.mpr (not_congr ⟨fun hword => ?_, congrArg _⟩)
    exact inj_on_of_nodup_map h.nodup hx hmem hword
  refine ⟨.inr ⟨_, _, hstep⟩, hagrees, ?_, fun x hx => ⟨?_, hothers x hx, ?_⟩, by simp⟩
  · rw [hheld, hself, hentry]
    simp [Sync.ledger]
  · rw [hheld]
    exact update_of_ne hx ..
  · simp [Sync.ledger, Ne.symm hx]

theorem filter_last (hnodup : (held.map (·.word)).Nodup) (hlast : held.getLast? = some e) :
    held.filter (·.word ≠ e.word) = held.dropLast := by
  obtain ⟨init, rfl⟩ := getLast?_eq_some_iff.mp hlast
  rw [map_append, nodup_append] at hnodup
  rw [dropLast_concat, filter_append, filter_cons_of_neg (by simp), filter_nil, append_nil, filter_eq_self]
  intro x hx
  have hne := hnodup.2.2 x.word (mem_map_of_mem hx) e.word (mem_singleton.mpr rfl)
  simpa using hne

theorem Ready.restore {depth : Nat} {before : List Held} (h : Ready s g none)
    (hrestore : s.restore thread g depth before = some (t, es))
    (hbefore : (s.held g).take depth = before.take depth) : Served thread s g t es := by
  have hdone : (s.held g).length ≤ depth →
      Served thread s g (s.setTask g none) [.restored g depth before (s.held g)] := by
    intro hle
    refine ⟨.inl rfl, h.agrees, rfl, fun x hx => ⟨rfl, update_of_ne hx .., rfl⟩, ?_⟩
    intro x d b a hmem
    obtain ⟨rfl, rfl, rfl, rfl⟩ := Event.restored.inj (mem_singleton.mp hmem)
    rw [← hbefore, take_of_length_le hle]
  unfold State.restore at hrestore
  split at hrestore
  · rename_i e hlast
    split at hrestore
    · rename_i hlt
      refine h.unlock hrestore rfl fun d b heq => ?_
      obtain ⟨rfl, rfl⟩ := Task.restoring.inj heq
      rw [filter_last h.nodup hlast, ← hbefore, dropLast_eq_take, take_take]
      congr 1
      omega
    · rename_i hle
      cases hrestore
      exact hdone (Nat.le_of_not_lt hle)
  · rename_i hnone
    cases hrestore
    refine hdone ?_
    rw [getLast?_eq_none_iff.mp hnone]
    exact Nat.zero_le _

theorem Ready.call (h : Ready s g none) {c : Call kind} (hcall : s.call thread g c = some (t, es)) :
    Served thread s g t es := by
  cases c with
  | lock e => exact h.lock hcall rfl
  | unlock e => exact h.unlock hcall rfl nofun
  | plain addr op =>
    obtain ⟨hop, hcall⟩ := ite_none_right_eq_some.mp hcall
    obtain ⟨t', hstart, heq⟩ := map_eq_some_iff.mp hcall
    cases heq
    exact h.plain (unlisted_of_plainOp hop) hstart rfl nofun
  | condWait sequence mutex observed =>
    simp only [State.call, Option.bind_eq_bind, Option.bind_eq_some_iff] at hcall
    obtain ⟨-, -, hunlock⟩ := hcall
    exact h.unlock hunlock rfl nofun
  | heldRestore depth => exact h.restore hcall rfl

theorem Ready.resume (h : Ready s g (if status = 0 then task.lock else none))
    (hbefore : ∀ depth before, task = .restoring depth before → (s.held g).take depth = before.take depth)
    (hresume : s.resume thread g status task = some (t, es)) : Served thread s g t es := by
  have hnone : task.lock = none → Ready s g none := by
    intro hlock
    rwa [hlock, ite_self] at h
  cases task with
  | locking e =>
    obtain ⟨rfl, rfl⟩ := Prod.mk.inj (Option.some.inj hresume)
    exact h.locked status
  | ending =>
    cases hresume
    exact (hnone rfl).ends status
  | condUnlocking sequence mutex observed =>
    simp only [State.resume, Option.bind_eq_bind, Option.bind_eq_some_iff, Option.pure_def, Option.some.injEq,
      Prod.mk.injEq] at hresume
    obtain ⟨op, hop, t', hstart, rfl, rfl⟩ := hresume
    exact (hnone rfl).plain (unlisted_of_waitOp hop) hstart rfl nofun
  | condWaiting mutex => exact (hnone rfl).lock hresume rfl
  | condLocking mutex doomed =>
    obtain ⟨rfl, rfl⟩ := Prod.mk.inj (Option.some.inj hresume)
    exact h.locked _
  | restoring depth before => exact (hnone rfl).restore hresume (hbefore depth before rfl)

end Calls

/-! ## Steps -/

theorem PhaseTakes.holds_none {phase : Phase (prim k)} (h : PhaseTakes k o phase) : holds k phase.place = none := by
  cases phase with
  | idle i => exact h.elim
  | run code => exact holds_inr code
  | parked next doomed => exact holds_inr next
  | doomed next doomed => exact holds_inr next

section Steps

variable {thread : G → Bool} {s t : State G kind} {g x : G} {lot : Lot G kind prim}

omit [DecidableEq G] in
theorem Agrees.other (h : Agrees s x) (hheld : t.held x = s.held x) (htask : t.task x = s.task x)
    (hbusy : t.lot.busy x = s.lot.busy x)
    (hphase : ∀ addr, t.lot.phase x addr = s.lot.phase x addr ∨ t.lot.phase x addr = (s.lot.phase x addr).ready) :
    Agrees t x where
  nodup := by
    rw [hheld]
    exact h.nodup
  held_iff e := by
    have hplace : (t.lot.phase x e.word).place = (s.lot.phase x e.word).place := by
      rcases hphase e.word with heq | heq <;> rw [heq]
      exact Phase.place_ready _
    rw [hheld, hplace]
    exact h.held_iff e
  idle hnone := hbusy.trans (h.idle (htask.symm.trans hnone))
  busy task hsome := by
    obtain ⟨addr, haddr, hlock, htakes⟩ := h.busy task (htask.symm.trans hsome)
    refine ⟨addr, hbusy.trans haddr, hlock, ?_⟩
    rcases hphase addr with heq | heq <;> rw [heq]
    · exact htakes
    · exact phaseTakes_ready htakes
  restoring depth before hsome := by
    rw [hheld]
    exact h.restoring depth before (htask.symm.trans hsome)

theorem lot_others (hinv : LotInv s.lot) (hstep : s.lot.step thread a = some (lot, es)) (hx : x ≠ a.party)
    (addr : Nat) : lot.phase x addr = s.lot.phase x addr ∨ lot.phase x addr = (s.lot.phase x addr).ready := by
  obtain ⟨-, addr', a', hparty, -, hword, hother⟩ := step_word hinv hstep
  by_cases haddr : addr = addr'
  · subst haddr
    exact (step_move hword).phase_of_ne (by rwa [hparty])
  · have heq := congrFun (congrArg Word.phase (hother addr haddr)) x
    exact .inl heq

theorem Agrees.moved {task : Task} (h : Agrees s g) (htask : s.task g = some task)
    (hbusy : s.lot.busy g = some addr) (hmove : Move (s.lot.word addr) g (lot.word addr) es)
    (hother : ∀ other, other ≠ addr → lot.word other = s.lot.word other)
    (hends : (es = [] ∧ lot.busy g = s.lot.busy g) ∨ ∃ status, es = [(g, status)] ∧ lot.busy g = none) :
    (es = [] ∧ Agrees { s with lot := lot } g) ∨ ∃ status, es = [(g, status)] ∧
      Ready { s with lot := lot } g (if status = 0 then task.lock else none) := by
  obtain ⟨addr', haddr, hlock, htakes⟩ := h.busy task htask
  obtain rfl := Option.some.inj (hbusy.symm.trans haddr)
  have hgoes := PhaseTakes.move (s := s.lot.word addr) htakes hmove
  have hsame : ∀ e : Held, e.word ≠ addr → lot.phase g e.word = s.lot.phase g e.word :=
    fun e he => congrFun (congrArg Word.phase (hother e.word he)) g
  have hnot : ∀ e ∈ s.held g, e.word ≠ addr := by
    rintro e he rfl
    cases htakes.holds_none.symm.trans ((h.held_iff e).mp he)
  rcases hends with ⟨rfl, hbusy'⟩ | ⟨status, rfl, hbusy'⟩
  · refine .inl ⟨rfl, ?_⟩
    have htakes' : PhaseTakes (kind addr) (task.lock.map (·.kind)) (lot.phase g addr) := hgoes.takes
    refine ⟨h.nodup, fun e => ?_, fun hnone => ?_, fun task' htask' => ?_, h.restoring⟩
    · by_cases he : e.word = addr
      · refine iff_of_false (fun hmem => hnot e hmem he) fun hholds => ?_
        subst he
        cases htakes'.holds_none.symm.trans hholds
      · change _ ↔ holds _ (lot.phase g e.word).place = _
        rw [hsame e he]
        exact h.held_iff e
    · cases htask.symm.trans hnone
    · obtain rfl := Option.some.inj (htask.symm.trans htask')
      exact ⟨addr, hbusy'.trans hbusy, hlock, htakes'⟩
  · refine .inr ⟨status, rfl, ?_⟩
    obtain ⟨i, hphase, hholds⟩ : ∃ i, lot.phase g addr = .idle i ∧
        holds (kind addr) (.inl i) = if status = 0 then task.lock.map (·.kind) else none := hgoes.idle
    refine ⟨h.nodup, hbusy', fun e => ?_, fun e he x hx hword => ?_⟩
    · by_cases he : e.word = addr
      · subst he
        change _ ↔ holds _ (lot.phase g e.word).place = _
        rw [hphase, show (Phase.idle i).place = .inl i from rfl, hholds, or_iff_right fun hmem => hnot e hmem rfl]
        by_cases hzero : status = 0
        · rw [if_pos hzero, if_pos hzero, map_eq_some_iff]
          constructor
          · exact fun heq => ⟨e, heq, rfl⟩
          · rintro ⟨e', heq, hkind⟩
            have hword := hlock e' heq
            rw [heq]
            cases e
            cases e'
            simp_all
        · rw [if_neg hzero, if_neg hzero]
          exact iff_of_false (by simp) (by simp)
      · change _ ↔ holds _ (lot.phase g e.word).place = _
        rw [hsame e he, ← h.held_iff e]
        refine or_iff_left fun heq => ?_
        split at heq
        · exact he (hlock e heq)
        · cases heq
    · split at he
      · exact hnot x hx (hword.trans (hlock e he))
      · cases he

end Steps

/-- What holds after a run with its events. -/
structure Good [Fintype G] (es : List (Event G)) (s : State G kind) : Prop where
  lot : LotInv s.lot
  words : ∀ addr, WordInv (kind addr) (s.lot.word addr)
  agrees : ∀ g, Agrees s g
  held_eq : ∀ g, s.held g = es.foldl (ledger g) []
  restored : ∀ x depth before after, .restored x depth before after ∈ es → after = before.take depth

section Runs

variable [Fintype G] {thread : G → Bool} {s t : State G kind} {g : G} {lot : Lot G kind prim} {es es' : List (Event G)}

theorem words_step {s t : Lot G kind prim} (hinv : LotInv s)
    (hwords : ∀ addr, WordInv (kind addr) (s.word addr)) {es : List (G × Nat)}
    (hstep : s.step thread a = some (t, es)) : LotInv t ∧ ∀ addr, WordInv (kind addr) (t.word addr) := by
  obtain ⟨hinv', addr, a', -, -, hword, hother⟩ := step_word hinv hstep
  refine ⟨hinv', fun other => ?_⟩
  by_cases ho : other = addr
  · subst ho
    exact (hwords other).move (step_move hword)
  · rw [hother other ho]
    exact hwords other

theorem Good.serve (hlot : LotInv s.lot) (hwords : ∀ addr, WordInv (kind addr) (s.lot.word addr))
    (hagrees : ∀ x, x ≠ g → Agrees s x) (hheld : ∀ x, s.held x = es.foldl (ledger x) [])
    (hrestored : ∀ x depth before after, .restored x depth before after ∈ es → after = before.take depth)
    (hserved : Served thread s g t es') : Good (es ++ es') t := by
  have hlot' : (LotInv t.lot ∧ ∀ addr, WordInv (kind addr) (t.lot.word addr)) ∧
      ∀ x, x ≠ g → t.lot.busy x = s.lot.busy x ∧ ∀ addr, t.lot.phase x addr = s.lot.phase x addr := by
    rcases hserved.lot with heq | ⟨addr, op, hstep⟩
    · rw [heq]
      exact ⟨⟨hlot, hwords⟩, fun _ _ => ⟨rfl, fun _ => rfl⟩⟩
    · obtain ⟨-, -, hbusy, -, -, hothers⟩ := start_busy hstep
      refine ⟨words_step hlot hwords hstep, fun x hx => ⟨?_, fun addr' => by rw [hothers x hx]⟩⟩
      rw [hbusy, update_of_ne hx]
  refine ⟨hlot'.1.1, hlot'.1.2, fun x => ?_, fun x => ?_, fun x depth before after hmem => ?_⟩
  · by_cases hx : x = g
    · subst hx
      exact hserved.agrees
    · obtain ⟨hbusy, hphase⟩ := hlot'.2 x hx
      obtain ⟨hheld', htask, -⟩ := hserved.others x hx
      exact (hagrees x hx).other hheld' htask hbusy fun addr => .inl (hphase addr)
  · rw [foldl_append, ← hheld x]
    by_cases hx : x = g
    · subst hx
      exact hserved.ledger
    · obtain ⟨hheld', -, hledger⟩ := hserved.others x hx
      rw [hledger, hheld']
  · rcases mem_append.mp hmem with hmem | hmem
    · exact hrestored x depth before after hmem
    · exact hserved.restored x depth before after hmem

omit [DecidableEq G] [Fintype G] in
theorem Agrees.ready (h : Agrees s g) (htask : s.task g = none) : Ready s g none :=
  ⟨h.nodup, h.idle htask, fun e => (or_iff_left nofun).trans (h.held_iff e), nofun⟩

theorem Good.task (h : Good es s) (hbusy : s.lot.busy g = some addr) : ∃ task, s.task g = some task := by
  refine ne_none_iff_exists'.mp fun hnone => ?_
  exact nomatch ((h.agrees g).idle hnone).symm.trans hbusy

theorem Good.lot_step (h : Good es s) {es₁ : List (G × Nat)} (hlot : s.lot.step thread a = some (lot, es₁))
    (hbusy : s.lot.busy a.party = some addr) (hsame : ∀ x, x ≠ a.party → lot.busy x = s.lot.busy x) :
    LotInv lot ∧ (∀ addr, WordInv (kind addr) (lot.word addr)) ∧ (∀ x, x ≠ a.party → Agrees { s with lot := lot } x) ∧
      Move (s.lot.word addr) a.party (lot.word addr) es₁ ∧
      ∀ other, other ≠ addr → lot.word other = s.lot.word other := by
  obtain ⟨hinv, hwords⟩ := words_step h.lot h.words hlot
  obtain ⟨-, addr', a', hparty, hhome, hword, hother⟩ := step_word h.lot hlot
  obtain rfl := hhome addr hbusy
  have hmove := step_move hword
  rw [hparty] at hmove
  exact ⟨hinv, hwords, fun x hx => (h.agrees x).other rfl rfl (hsame x hx) (lot_others h.lot hlot hx), hmove, hother⟩

theorem Good.on (h : Good es s) (hinv : LotInv lot) (hwords : ∀ addr, WordInv (kind addr) (lot.word addr))
    (hothers : ∀ x, x ≠ g → Agrees { s with lot := lot } x) (hagrees : Agrees { s with lot := lot } g) :
    Good (es ++ []) { s with lot := lot } := by
  rw [append_nil]
  refine ⟨hinv, hwords, fun x => ?_, h.held_eq, h.restored⟩
  by_cases hx : x = g
  · subst hx
    exact hagrees
  · exact hothers x hx

theorem Good.step {a : Action G kind} (h : Good es s) (hstep : s.step thread a = some (t, es')) :
    Good (es ++ es') t := by
  cases a with
  | call g c =>
    obtain ⟨htask, hcall⟩ := ite_none_right_eq_some.mp hstep
    exact .serve h.lot h.words (fun x _ => h.agrees x) h.held_eq h.restored
      (((h.agrees g).ready (isNone_iff_eq_none.mp htask)).call hcall)
  | run g choice =>
    simp only [State.step, Option.bind_eq_bind, Option.bind_eq_some_iff] at hstep
    obtain ⟨⟨lot, es₁⟩, hlot, hstep⟩ := hstep
    obtain ⟨addr, hbusy, hends⟩ := run_busy hlot
    obtain ⟨task, htask⟩ := h.task hbusy
    obtain ⟨hinv, hwords, hothers, hmove, hother⟩ := h.lot_step hlot hbusy fun x hx => by
      rcases hends with ⟨-, hsame⟩ | ⟨-, -, hsame⟩
      · rw [hsame]
      · rw [hsame]
        exact update_of_ne hx ..
    have hmoved := (h.agrees g).moved htask hbusy hmove hother (hends.imp (And.imp_right fun hsame => by rw [hsame])
      fun ⟨status, heq, hsame⟩ => ⟨status, heq, by rw [hsame, update_self]⟩)
    rcases hmoved with ⟨rfl, hagrees⟩ | ⟨status, rfl, hready⟩
    · cases hstep
      exact h.on hinv hwords hothers hagrees
    · obtain ⟨task', htask', hresume⟩ := Option.bind_eq_some_iff.mp hstep
      obtain rfl := Option.some.inj (htask.symm.trans htask')
      refine .serve hinv hwords hothers h.held_eq h.restored (hready.resume (fun depth before heq => ?_) hresume)
      subst heq
      exact (h.agrees g).restoring depth before htask
  | doom g =>
    obtain ⟨⟨lot, es₁⟩, hlot, heq⟩ := map_eq_some_iff.mp hstep
    cases heq
    obtain ⟨addr, hbusy, rfl, hsame⟩ := doom_busy hlot
    obtain ⟨task, htask⟩ := h.task hbusy
    obtain ⟨hinv, hwords, hothers, hmove, hother⟩ := h.lot_step hlot hbusy fun x _ => by rw [hsame]
    rcases (h.agrees g).moved htask hbusy hmove hother (.inl ⟨rfl, by rw [hsame]⟩) with
      ⟨-, hagrees⟩ | ⟨status, hnil, -⟩
    · exact h.on hinv hwords hothers hagrees
    · exact nomatch hnil

end Runs

/-! ## What the types promise -/

section Promises

variable [Fintype G]

/-- One holder at most, and while nothing is under way nobody is parked on a lock that is free. -/
structure MutexPromise (s : Word mutex G) : Prop where
  exclusive : ∀ g x, Mutex.holding (s.phase g).place → Mutex.holding (s.phase x).place → g = x
  parked : Quiet s → ∀ g next, (s.phase g).rest = some (.inr next) → s.word ≠ 0 ∧ ∃ x, Mutex.holding (s.phase x).place

/-- A caller that returns because the function has ended does so when it has. -/
structure OncePromise (s : Word once G) : Prop where
  begun_le : Once.begun s ≤ 1
  passed : ∀ g, (Once.caller (s.phase g).place).passed = true → s.word = 2 ∧ Once.begun s = 1 ∧ Once.runners s = 0
  parked : Quiet s → ∀ g next, (s.phase g).rest = some (.inr next) → s.word = 1

structure WaitGroupPromise (s : Word waitGroup G) : Prop where
  parked : Quiet s → ∀ g next, (s.phase g).rest = some (.inr next) → s.word ≠ 0

/-- The states after `s`, with the number of the wakes that have moved the sequence number on. -/
inductive Cond.Since (s : Word cond G) : Nat → Word cond G → Prop
  | refl : Since s 0 s
  | add {n : Nat} {t u : Word cond G} {g : G} {es : List (G × Nat)} {count : Option Nat} (since : Since s n t)
      (move : Move t g u es) (phase : t.phase g = .run (.add count)) : Since s (n + 1) u
  | other {n : Nat} {t u : Word cond G} {g : G} {es : List (G × Nat)} (since : Since s n t) (move : Move t g u es)
      (phase : ∀ count, t.phase g ≠ .run (.add count)) : Since s n u

/-- No wake is lost. A party joins the queue only while the number is the one that it observed. A wake first moves the
number on, and takes out as many as it is asked for, from the head; who stays, stays because that many went. A party
that had observed the number before the wake began, in the state `o`, is parked later only if it was queued by then. -/
structure CondPromise (s : Word cond G) : Prop where
  joins : ∀ {t : Word cond G} {g : G} {es : List (G × Nat)} {observed : Nat}, Move s g t es →
    s.phase g = .run (.wait observed) → g ∈ t.queue → s.word = observed
  wakes : ∀ {t : Word cond G} {g : G} {es : List (G × Nat)} {count : Option Nat}, Move s g t es →
    s.phase g = .run (.wake count) → t.queue = s.queue.drop (taken count s.queue).length ∧
      (∀ x ∈ taken count s.queue, (t.phase x).rest = none) ∧
      ∀ x ∈ t.queue, ∃ n, count = some n ∧ (taken count s.queue).length = n
  adds : ∀ {t : Word cond G} {g : G} {es : List (G × Nat)} {count : Option Nat}, Move s g t es →
    s.phase g = .run (.add count) → t.word = wrap (s.word + 1) ∧ t.queue = s.queue ∧ t.phase g = .run (.wake count)
  kept : ∀ {o t u : Word cond G} {g x : G} {es : List (G × Nat)} {count : Option Nat} {k n : Nat}, Cond.Since o k s →
    Move s g t es → s.phase g = .run (.add count) → Cond.Since t n u → k + 1 + n < 2 ^ 64 →
      x ∈ u.queue → (u.phase x).place = .inr (.woken o.word) → x ∈ s.queue

def Semaphore.Releasing (weight : Nat) : Semaphore.Code → Prop
  | .releaseLoad _ w => w = weight
  | .releaseTake _ w _ => w = weight
  | _ => False

/-- The free weight and what is held are the capacity, and a release that would exceed it is refused. Who is parked
while nothing is under way asks for more than is free. -/
structure SemaphorePromise {capacity : UInt64} (s : Word (semaphore capacity) G) : Prop where
  free_eq : (s.word : Int) + ∑ g, Semaphore.net (s.phase g).place = capacity.toNat
  release : ∀ {t : Word (semaphore capacity) G} {g : G} {es : List (G × Nat)} {code : Semaphore.Code} {weight : Nat},
    Move s g t es → s.phase g = .run code → Semaphore.Releasing weight code →
      ((g, 1) ∈ es ↔ capacity.toNat < s.word + weight) ∧ (t.word = s.word ∨ t.word = s.word + weight)
  parked : Quiet s → ∀ g next, (s.phase g).rest = some (.inr next) →
    ∃ net weight, next = .load net weight true ∧ s.word < weight

def Promise : (k : Kind) → Word (prim k) G → Prop
  | .mutex, s => MutexPromise s
  | .mutex64, s => MutexPromise s
  | .rwMutex, _ => True
  | .once, s => OncePromise s
  | .waitGroup, s => WaitGroupPromise s
  | .cond, s => CondPromise s
  | .semaphore _, s => SemaphorePromise s

omit [DecidableEq G] in
theorem MutexInv.promise {s : Word mutex G} (h : MutexInv s) : MutexPromise s where
  exclusive _ _ := h.unique
  parked hquiet g next hrest := by
    obtain ⟨x, hx⟩ := h.held_of_quiet hquiet (ne_nil_of_mem (h.queued.mem_of_rest hrest))
    refine ⟨fun hzero => ?_, x, hx⟩
    have hholders := h.holders_eq
    rw [if_pos hzero] at hholders
    exact tally_eq_zero.mp hholders x hx

omit [DecidableEq G] in
theorem OnceInv.promise {s : Word once G} (h : OnceInv s) : OncePromise s where
  begun_le := by
    have hbegun := h.begun_eq
    split at hbegun <;> omega
  passed g hg := by
    have htwo := h.passed g hg
    have hbegun := h.begun_eq
    have hrunners := h.runners_eq
    rw [if_neg (by omega)] at hbegun hrunners
    exact ⟨htwo, hbegun, hrunners⟩
  parked hquiet g next hrest := by
    have hblocked := (h.justified g (h.queued.mem_of_rest hrest) next (Phase.place_of_rest hrest)).resolve_right
      hquiet.not_waking
    cases next with
    | load c => exact hblocked
    | _ => exact hblocked.elim

omit [DecidableEq G] [Fintype G] in
theorem WaitGroupInv.promise {s : Word waitGroup G} (h : WaitGroupInv s) : WaitGroupPromise s where
  parked hquiet g next hrest := by
    have hblocked := (h.justified g (h.queued.mem_of_rest hrest) next (Phase.place_of_rest hrest)).resolve_right
      hquiet.not_waking
    cases next with
    | load => exact hblocked
    | _ => exact hblocked.elim

namespace Cond

variable {o s t u : Word cond G} {g x : G} {es : List (G × Nat)} {count : Option Nat} {k n observed : Nat}

omit [Fintype G] in
theorem add_eq (hmove : Move s g t es) (hphase : s.phase g = .run (.add count)) :
    t.word = wrap (s.word + 1) ∧ t.queue = s.queue ∧ t.phase g = .run (.wake count) := by
  obtain ⟨out, hout, rfl, -⟩ := hmove.ran hphase
  obtain rfl := mem_singleton.mp hout
  exact ⟨rfl, rfl, update_self ..⟩

omit [Fintype G] in
theorem word_eq (hmove : Move s g t es) (hphase : ∀ count, s.phase g ≠ .run (.add count)) : t.word = s.word := by
  cases hmove with
  | @atomic code _ _ _ h hinstr hmem =>
    cases code with
    | woken observed => exact (Instr.single hinstr hmem rfl).1
    | add count => exact absurd h (hphase count)
    | wait | wake => cases hinstr
  | _ => rfl

omit [Fintype G] in
theorem Since.word_eq (h : Since s n t) : t.word = if n = 0 then s.word else wrap (s.word + n) := by
  induction h with
  | refl => rfl
  | @add n t u _ _ _ _ hmove hphase ih =>
    rw [(add_eq hmove hphase).1, ih, if_neg n.succ_ne_zero]
    unfold wrap
    split <;> omega
  | other _ hmove hphase ih => rw [Cond.word_eq hmove hphase, ih]

omit [Fintype G] in
theorem mem_queue_or (h : Queued s) (hmove : Move s g t es) (hx : x ∈ t.queue)
    (hplace : (t.phase x).place = .inr (.woken observed)) :
    (x ∈ s.queue ∧ (s.phase x).place = .inr (.woken observed)) ∨ s.word = observed := by
  rcases h.mem_queue hmove hx with ⟨hmem, hsame⟩ | ⟨code, next, doomed, -, hinstr, hparked⟩
  · exact .inl ⟨hmem, hsame ▸ hplace⟩
  · rw [hparked] at hplace
    obtain rfl := Sum.inr.inj hplace
    cases code with
    | wait v =>
      obtain ⟨rfl, hnext, -⟩ := Instr.wait.inj hinstr
      exact .inr (Code.woken.inj hnext)
    | woken | add | wake => cases hinstr

omit [Fintype G] in
/-- Who has joined the queue since the wake began had observed a later number. -/
theorem kept (h : Queued s) (hbefore : Since o k s) (hmove : Move s g t es) (hphase : s.phase g = .run (.add count))
    (hafter : Since t n u) (hfew : k + 1 + n < 2 ^ 64) (hx : x ∈ u.queue)
    (hplace : (u.phase x).place = .inr (.woken o.word)) : x ∈ s.queue := by
  obtain ⟨hadd, hqueue, -⟩ := add_eq hmove hphase
  have hmoved {m : Nat} {v : Word cond G} (hsince : Since t m v) (hm : k + 1 + m < 2 ^ 64) : v.word ≠ o.word := by
    rw [hsince.word_eq, hadd, hbefore.word_eq]
    unfold wrap
    split <;> split <;> omega
  have hqueued {m : Nat} {v : Word cond G} (hsince : Since t m v) : Queued v := by
    induction hsince with
    | refl => exact h.move hmove
    | add _ hmove' _ ih => exact ih.move hmove'
    | other _ hmove' _ ih => exact ih.move hmove'
  induction hafter with
  | refl => rwa [← hqueue]
  | add hsince hmove' _ ih =>
    obtain ⟨hmem, hplace'⟩ := (mem_queue_or (hqueued hsince) hmove' hx hplace).resolve_right
      (hmoved hsince (by omega))
    exact ih (by omega) hmem hplace'
  | other hsince hmove' _ ih =>
    obtain ⟨hmem, hplace'⟩ := (mem_queue_or (hqueued hsince) hmove' hx hplace).resolve_right (hmoved hsince hfew)
    exact ih hfew hmem hplace'

end Cond

omit [Fintype G] in
theorem condPromise {s : Word cond G} (h : Queued s) : CondPromise s where
  adds := Cond.add_eq
  kept := Cond.kept h
  joins {t g es observed} hmove hphase hmem := by
    obtain ⟨-, hran⟩ := hmove.ran hphase
    split at hran
    · assumption
    · subst hran
      exact absurd hmem (h.notMem_run hphase)
  wakes {t g es count} hmove hphase := by
    obtain ⟨-, rfl⟩ := hmove.ran hphase
    refine ⟨rfl, fun x hx => ?_, fun x (hx : x ∈ s.queue.drop (taken count s.queue).length) => ?_⟩
    · have hmem : x ∈ s.queue := by
        rw [taken_append count s.queue]
        exact mem_append_left _ hx
      have hxg : x ≠ g := by
        rintro rfl
        exact h.notMem_run hphase hmem
      rw [Word.set_of_ne _ hxg]
      dsimp only
      rw [ready, if_pos hx]
      obtain ⟨next, doomed, hwait | hwait, -⟩ := h.waits x hmem <;> rw [hwait] <;> rfl
    · cases count with
      | none => simp [taken] at hx
      | some n =>
        have hlt := length_pos_of_mem hx
        rw [length_drop, taken, length_take] at hlt
        exact ⟨n, rfl, by rw [taken, length_take]; omega⟩

variable {capacity : UInt64}

omit [DecidableEq G] in
theorem SemaphoreInv.parked {s : Word (semaphore capacity) G} (h : SemaphoreInv s) (hquiet : Quiet s)
    {g : G} {next : Semaphore.Code} (hrest : (s.phase g).rest = some (.inr next)) :
    ∃ net weight, next = .load net weight true ∧ s.word < weight := by
  have hblocked := (h.justified g (h.queued.mem_of_rest hrest) next (Phase.place_of_rest hrest)).resolve_right
    hquiet.not_waking
  cases next with
  | load net weight block =>
    cases block with
    | true => exact ⟨net, weight, rfl, hblocked⟩
    | false => exact hblocked.elim
  | _ => exact hblocked.elim

theorem SemaphoreInv.promise {s : Word (semaphore capacity) G} (h : SemaphoreInv s) : SemaphorePromise s where
  free_eq := h.free_eq
  release {t g es code weight} hmove hphase hreleasing := by
    have hcheck : ∀ net, (g, 1) ∈ (Semaphore.check capacity net weight s.word).ended (P := semaphore capacity) g ↔
        capacity.toNat < s.word + weight := by
      intro net
      rw [Semaphore.check_eq h.word_le]
      split
      · rename_i hover
        exact iff_of_true mem_cons_self hover
      · rename_i hover
        exact iff_of_false not_mem_nil hover
    have hloaded := h.loaded g
    have hran := hmove.ran hphase
    cases code with
    | releaseLoad net w =>
      obtain rfl : w = weight := hreleasing
      obtain ⟨out, hout, rfl, rfl⟩ := hran
      obtain rfl := mem_singleton.mp hout
      exact ⟨hcheck net, .inl rfl⟩
    | releaseTake net w v =>
      obtain rfl : w = weight := hreleasing
      obtain ⟨⟨word', next⟩, hout, rfl, rfl⟩ := hran
      rcases mem_exchange hout with ⟨rfl, rfl, rfl⟩ | ⟨rfl, rfl⟩
      · rw [hphase] at hloaded
        have hroom : s.word + w ≤ capacity.toNat := hloaded
        have hlt : capacity.toNat < 2 ^ 64 := capacity.toNat_lt
        refine ⟨iff_of_false not_mem_nil (Nat.not_lt.mpr hroom), .inr ?_⟩
        change wrap (s.word + w) = _
        unfold wrap
        exact Nat.mod_eq_of_lt (by omega)
      · exact ⟨hcheck net, .inl rfl⟩
    | _ => exact hreleasing.elim
  parked hquiet _ _ hrest := h.parked hquiet hrest

theorem WordInv.promise {s : Word (prim k) G} (h : WordInv k s) : Promise k s := by
  cases k with
  | mutex | mutex64 => exact MutexInv.promise h
  | rwMutex => trivial
  | once => exact OnceInv.promise h
  | waitGroup => exact WaitGroupInv.promise h
  | cond => exact condPromise h
  | semaphore capacity => exact SemaphoreInv.promise h

end Promises

structure Safe [Fintype G] (es : List (Event G)) (s : State G kind) : Prop where
  linked : ∀ i, (s.lot.bucket i).Linked
  waiting : ∀ i, ∀ w ∈ (s.lot.bucket i).waiters, bucketOf w.addr = i ∧
    ∃ next doomed, s.lot.phase w.g w.addr = .parked next doomed ∨ s.lot.phase w.g w.addr = .doomed next doomed
  promise : ∀ addr, Promise (kind addr) (s.lot.word addr)
  held_nodup : ∀ g, (s.held g).Nodup
  held_iff : ∀ g e, e ∈ s.held g ↔ holds (kind e.word) (s.lot.phase g e.word).place = some e.kind
  held_eq : ∀ g, s.held g = es.foldl (ledger g) []
  restored : ∀ g depth before after, .restored g depth before after ∈ es → after = before.take depth

end Tsuzuri.Sync
