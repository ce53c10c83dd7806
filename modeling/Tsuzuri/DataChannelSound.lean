import Tsuzuri.DataChannel

/-!
# DataChannel loses no item and no wake

A wake hands over no item: the woken party looks again, and another may have come first.
-/

namespace Tsuzuri.DataChannel

open Transition List Option
open Function (update update_of_ne update_self)

variable {G H : Type} {size : Nat}

def Side.opposite : Side → Side
  | .receivers => .senders
  | .senders => .receivers

@[simp] theorem Side.opposite_ne (side : Side) : side.opposite ≠ side := by
  cases side <;> decide

theorem Side.eq_opposite {side side' : Side} (h : side' ≠ side) : side' = side.opposite := by
  revert h
  cases side <;> cases side' <;> simp [opposite]

/-! ## The sections -/

namespace Dchan

variable (c : Dchan G size)

def spare : Side → Nat
  | .senders => c.capacity - c.count
  | .receivers => c.count

def peers : Side → Nat
  | .senders => c.receivers
  | .receivers => c.senders

def contents : List (Item size) := Ring.contents c.slots c.capacity c.head c.count

/-- The header that no wait changes. -/
structure SameHeader (c d : Dchan G size) : Prop where
  capacity_eq : d.capacity = c.capacity
  head_eq : d.head = c.head
  count_eq : d.count = c.count
  senders_eq : d.senders = c.senders
  receivers_eq : d.receivers = c.receivers
  owners_eq : d.owners = c.owners
  slots_eq : d.slots = c.slots

theorem sameHeader_setWaiters (side : Side) (queue : List G) : SameHeader c (c.setWaiters side queue) :=
  ⟨rfl, rfl, rfl, rfl, rfl, rfl, rfl⟩

section

variable {c : Dchan G size} {d : Dchan G size} (h : SameHeader c d)

include h

theorem SameHeader.spare_eq (side : Side) : d.spare side = c.spare side := by
  cases side <;> simp [spare, h.capacity_eq, h.count_eq]

theorem SameHeader.peers_eq (side : Side) : d.peers side = c.peers side := by
  cases side <;> simp [peers, h.receivers_eq, h.senders_eq]

theorem SameHeader.contents_eq : d.contents = c.contents := by
  rw [contents, contents, h.slots_eq, h.capacity_eq, h.head_eq, h.count_eq]

end

@[simp] theorem setWaiters_self (side : Side) (queue : List G) :
    (c.setWaiters side queue).waiters side = queue := update_self ..

theorem setWaiters_of_ne {side side' : Side} (h : side' ≠ side) (queue : List G) :
    (c.setWaiters side queue).waiters side' = c.waiters side' := update_of_ne h ..

/-- What a wake does: the woken are the head of the queue. -/
structure Wakes (side : Side) (all : Bool) (d : Dchan G size) (woken : List G) : Prop where
  header : SameHeader c d
  queue_eq : c.waiters side = woken ++ d.waiters side
  other_eq : ∀ side', side' ≠ side → d.waiters side' = c.waiters side'
  all_empty : all = true → d.waiters side = []
  one : all = false → woken.length ≤ 1 ∧ (c.waiters side ≠ [] → woken ≠ [])

theorem wakes (side : Side) (all : Bool) : c.Wakes side all (c.wake side all).1 (c.wake side all).2 := by
  unfold wake
  cases hqueue : c.waiters side with
  | nil =>
    exact ⟨⟨rfl, rfl, rfl, rfl, rfl, rfl, rfl⟩, by simp [hqueue], fun _ _ => rfl, fun _ => hqueue, by simp [hqueue]⟩
  | cons first rest =>
    cases all with
    | false =>
      exact ⟨c.sameHeader_setWaiters .., by simp [hqueue], fun _ h => c.setWaiters_of_ne h _, nofun, by simp⟩
    | true =>
      exact ⟨c.sameHeader_setWaiters .., by simp [hqueue], fun _ h => c.setWaiters_of_ne h _, by simp, nofun⟩

/-- An operation that went through: the channel before its wake. -/
structure Moves (side : Side) (d : Dchan G size) : Prop where
  capacity_eq : d.capacity = c.capacity
  senders_eq : d.senders = c.senders
  receivers_eq : d.receivers = c.receivers
  owners_eq : d.owners = c.owners
  waiters_eq : d.waiters = c.waiters
  head_lt : d.head < d.capacity
  count_le : d.count ≤ d.capacity
  spare_eq : c.spare side = d.spare side + 1
  other_eq : d.spare side.opposite = c.spare side.opposite + 1

end Dchan

def Op.puts : Op size → List (Item size)
  | .send item => [item]
  | .recv => []

inductive Dchan.Round [DecidableEq G] (c : Dchan G size) (g : G) (op : Op size) :
    Dchan G size → List G → Outcome size → Prop
  | refused (gone : c.peers op.side = 0) (empty : op = .recv → c.count = 0) : Round c g op c [] (.returns 1 none)
  | done {d e : Dchan G size} {woken : List G} {item : Option (Item size)} (moves : c.Moves op.side d)
      (items : c.contents ++ op.puts = item.toList ++ d.contents) (takes : op = .recv ↔ item.isSome)
      (wakes : d.Wakes op.side.opposite false e woken) : Round c g op e woken (.returns 0 item)
  | waits (full : c.spare op.side = 0) (live : c.peers op.side ≠ 0) : Round c g op (c.enqueue op.side g) [] .waits

theorem Dchan.round_cases [DecidableEq G] {c : Dchan G size} (hcapacity : 0 < c.capacity) (hhead : c.head < c.capacity)
    (hcount : c.count ≤ c.capacity) (g : G) (op : Op size) :
    c.Round g op (c.round g op).1 (c.round g op).2.1 (c.round g op).2.2 := by
  cases op with
  | send item =>
    change c.Round g (.send item) (c.send g item).1 (c.send g item).2.1 (c.send g item).2.2
    unfold send
    split
    · rename_i hgone
      exact .refused hgone nofun
    · rename_i hlive
      split
      · rename_i hroom
        have hslots : (c.push item).slots = update c.slots (c.slot c.count) item := by
          unfold push
          split
          · rfl
          · rename_i hsize
            obtain rfl : size = 0 := by omega
            -- an item without bytes is every item
            funext k
            exact Vector.ext (fun i hi => absurd hi (by omega))
        have hcontents : (c.push item).contents = c.contents ++ [item] := by
          rw [contents, hslots]
          exact Ring.contents_push item hroom
        refine .done (d := c.push item) ⟨rfl, rfl, rfl, rfl, rfl, hhead, ?_, ?_, rfl⟩
          hcontents.symm (by simp) ((c.push item).wakes .receivers false)
        · exact hroom
        · change c.capacity - c.count = c.capacity - (c.count + 1) + 1
          omega
      · rename_i hfull
        exact .waits (Nat.sub_eq_zero_of_le (Nat.not_lt.mp hfull)) hlive
  | recv =>
    change c.Round g .recv (c.recv g).1 (c.recv g).2.1 (c.recv g).2.2
    unfold recv
    split
    · rename_i hitem
      refine .done (d := c.pop) ⟨rfl, rfl, rfl, rfl, rfl, Nat.mod_lt _ hcapacity, ?_, ?_, ?_⟩
        ?_ (by simp) (c.pop.wakes .senders false)
      · exact (Nat.sub_le ..).trans hcount
      · change c.count = c.count - 1 + 1
        omega
      · change c.capacity - (c.count - 1) = c.capacity - c.count + 1
        omega
      · exact (append_nil _).trans (Ring.contents_pop hitem)
    · rename_i hempty
      split
      · rename_i hgone
        exact .refused hgone fun _ => by omega
      · rename_i hlive
        exact .waits (by change c.count = 0; omega) hlive

/-! ## Queues and calls -/

structure Parties (queues : Side → List G) (calls : G → Option (Call H size)) : Prop where
  nodup : ∀ side, (queues side).Nodup
  queued : ∀ side, ∀ g ∈ queues side, ∃ call, calls g = some call ∧ call.op.side = side ∧
    (call.pc = .parked ∨ call.pc = .doomed)
  parked : ∀ g call, calls g = some call → call.pc = .parked → g ∈ queues call.op.side

/-- The call of `g` has been woken and has not looked again. -/
def Woken (queues : Side → List G) (calls : G → Option (Call H size)) (side : Side) (g : G) : Prop :=
  ∃ call ∈ calls g, call.op.side = side ∧ (call.pc = .woken ∨ call.pc = .doomed ∧ g ∉ queues side)

variable {call : Call H size} {new : Option (Call H size)} {capacity : Nat} {kind : Side} {handle : H}

section Parties

variable {queues queues' : Side → List G} {calls : G → Option (Call H size)} {g x : G}

theorem Parties.notMem (h : Parties queues calls) (hcall : calls g = some call)
    (hpc : call.pc = .entry ∨ call.pc = .woken) (side : Side) : g ∉ queues side := by
  intro hmem
  obtain ⟨call', hcall', _, hpc'⟩ := h.queued side g hmem
  obtain rfl := Option.some.inj (hcall.symm.trans hcall')
  rcases hpc with hpc | hpc <;> simp [hpc] at hpc'

theorem Parties.notMem_of_none (h : Parties queues calls) (hcall : calls g = none) (side : Side) : g ∉ queues side := by
  intro hmem
  obtain ⟨call, hcall', _⟩ := h.queued side g hmem
  simp [hcall] at hcall'

theorem Parties.side_eq (h : Parties queues calls) (hcall : calls g = some call) {side : Side}
    (hmem : g ∈ queues side) : call.op.side = side := by
  obtain ⟨call', hcall', hside, _⟩ := h.queued side g hmem
  rw [Option.some.inj (hcall.symm.trans hcall'), hside]

section Wake

variable {side : Side} {woken : List G}

theorem Parties.notMem_rest (h : Parties queues calls) (hqueue : queues side = woken ++ queues' side)
    (hx : x ∈ woken) : x ∉ queues' side := by
  have hnodup := h.nodup side
  rw [hqueue] at hnodup
  exact (nodup_append.mp hnodup).2.2 x hx |> fun hne hmem => hne x hmem rfl

theorem Parties.mem_rest (hqueue : queues side = woken ++ queues' side)
    (hother : ∀ side', side' ≠ side → queues' side' = queues side') (hx : x ∉ woken) (side' : Side) :
    x ∈ queues' side' ↔ x ∈ queues side' := by
  by_cases hside : side' = side
  · subst hside
    rw [hqueue, mem_append, or_iff_right hx]
  · rw [hother side' hside]

variable [DecidableEq G]

theorem ready_of_notMem (hx : x ∉ woken) : ready woken calls x = calls x := if_neg hx

theorem ready_of_mem (h : Parties queues calls) (hqueue : queues side = woken ++ queues' side)
    (hx : x ∈ woken) : ∃ call, calls x = some call ∧ call.op.side = side ∧
      ∃ call', ready woken calls x = some call' ∧ call'.op = call.op ∧ call'.handle = call.handle ∧
        (call'.pc = .woken ∨ call'.pc = .doomed) := by
  obtain ⟨call, hcall, hside, hpc⟩ := h.queued side x (hqueue ▸ mem_append_left _ hx)
  refine ⟨call, hcall, hside, _, by rw [ready, if_pos hx, hcall]; rfl, ?_⟩
  dsimp only
  rcases hpc with hpc | hpc
  · rw [if_pos hpc]
    exact ⟨rfl, rfl, .inl rfl⟩
  · rw [if_neg (by rw [hpc]; decide)]
    exact ⟨rfl, rfl, .inr hpc⟩

theorem Parties.wake (h : Parties queues calls) (hqueue : queues side = woken ++ queues' side)
    (hother : ∀ side', side' ≠ side → queues' side' = queues side') : Parties queues' (ready woken calls) where
  nodup side' := by
    by_cases hside : side' = side
    · subst hside
      have hnodup := h.nodup side'
      rw [hqueue] at hnodup
      exact (nodup_append.mp hnodup).2.1
    · rw [hother side' hside]
      exact h.nodup side'
  queued side' x hx := by
    have hnot : x ∉ woken := by
      intro hmem
      obtain ⟨call, hcall, hside, _⟩ := ready_of_mem h hqueue hmem
      by_cases hne : side' = side
      · exact h.notMem_rest hqueue hmem (hne ▸ hx)
      · rw [hother side' hne] at hx
        exact hne (h.side_eq hcall hx ▸ hside)
    rw [ready_of_notMem hnot]
    exact h.queued side' x ((Parties.mem_rest hqueue hother hnot side').mp hx)
  parked x call hcall hpc := by
    by_cases hmem : x ∈ woken
    · obtain ⟨_, _, _, call', hcall', _, _, hpc'⟩ := ready_of_mem h hqueue hmem
      obtain rfl := Option.some.inj (hcall.symm.trans hcall')
      rcases hpc' with hpc' | hpc' <;> simp [hpc] at hpc'
    · rw [ready_of_notMem hmem] at hcall
      exact (Parties.mem_rest hqueue hother hmem _).mpr (h.parked x call hcall hpc)

theorem woken_wake (h : Parties queues calls) (hqueue : queues side = woken ++ queues' side)
    (hother : ∀ side', side' ≠ side → queues' side' = queues side') (side' : Side) :
    Woken queues' (ready woken calls) side' x ↔ Woken queues calls side' x ∨ (side' = side ∧ x ∈ woken) := by
  by_cases hmem : x ∈ woken
  · obtain ⟨call, hcall, hside, call', hcall', hop, _, hpc'⟩ := ready_of_mem h hqueue hmem
    have hnot : ¬Woken queues calls side' x := by
      rintro ⟨call₁, hcall₁, hside₁, hpc₁⟩
      obtain rfl := Option.some.inj (hcall.symm.trans hcall₁)
      obtain ⟨call₂, hcall₂, _, hpc₂⟩ := h.queued side x (hqueue ▸ mem_append_left _ hmem)
      obtain rfl := Option.some.inj (hcall.symm.trans hcall₂)
      rcases hpc₁ with hpc₁ | ⟨_, hnot⟩
      · simp [hpc₁] at hpc₂
      · exact hnot (hside₁ ▸ hside ▸ hqueue ▸ mem_append_left _ hmem)
    rw [or_iff_right hnot, and_iff_left hmem]
    constructor
    · rintro ⟨call₁, hcall₁, hside₁, _⟩
      obtain rfl := Option.some.inj (hcall'.symm.trans hcall₁)
      rw [← hside₁, hop, hside]
    · rintro rfl
      exact ⟨call', hcall', hop ▸ hside, hpc'.imp_right fun hd => ⟨hd, h.notMem_rest hqueue hmem⟩⟩
  · rw [or_iff_left fun hand => hmem hand.2]
    unfold Woken
    rw [ready_of_notMem hmem]
    simp only [Parties.mem_rest hqueue hother hmem]

end Wake

variable [DecidableEq G]

theorem Parties.set (h : Parties queues calls) (hg : ∀ side, g ∉ queues side) (hnew : ∀ call ∈ new, call.pc ≠ .parked) :
    Parties queues (update calls g new) where
  nodup := h.nodup
  queued side x hx := by
    rw [update_of_ne (by rintro rfl; exact hg side hx)]
    exact h.queued side x hx
  parked x call hcall hpc := by
    by_cases hx : x = g
    · subst hx
      rw [update_self] at hcall
      exact absurd hpc (hnew call hcall)
    · rw [update_of_ne hx] at hcall
      exact h.parked x call hcall hpc

theorem woken_set_of_ne (hx : x ≠ g) (new : Option (Call H size)) (side : Side) :
    Woken queues (update calls g new) side x ↔ Woken queues calls side x := by
  unfold Woken
  rw [update_of_ne hx]

theorem woken_self (new : Option (Call H size)) (side : Side) : Woken queues (update calls g new) side g ↔
      ∃ call ∈ new, call.op.side = side ∧ (call.pc = .woken ∨ call.pc = .doomed ∧ g ∉ queues side) := by
  unfold Woken
  rw [update_self]

theorem Parties.park (h : Parties queues calls) (hg : ∀ side, g ∉ queues side) {c : Call H size}
    (hpc : c.pc = .parked) : Parties (update queues c.op.side (queues c.op.side ++ [g])) (update calls g (some c)) where
  nodup side := by
    by_cases hside : side = c.op.side
    · subst hside
      rw [update_self]
      exact nodup_append.mpr ⟨h.nodup _, nodup_singleton g, fun x hx y hy heq =>
        hg _ (mem_singleton.mp hy ▸ heq ▸ hx)⟩
    · rw [update_of_ne hside]
      exact h.nodup side
  queued side x hx := by
    by_cases hxg : x = g
    · subst hxg
      refine ⟨c, update_self .., ?_, .inl hpc⟩
      by_contra hside
      rw [update_of_ne (Ne.symm hside)] at hx
      exact hg side hx
    · rw [update_of_ne hxg]
      refine h.queued side x ?_
      by_cases hside : side = c.op.side
      · subst hside
        rw [update_self, mem_append, mem_singleton] at hx
        exact hx.resolve_right hxg
      · rwa [update_of_ne hside] at hx
  parked x c' hcall hpc' := by
    by_cases hxg : x = g
    · subst hxg
      rw [update_self] at hcall
      cases hcall
      rw [update_self]
      exact mem_append_right _ (mem_singleton_self x)
    · rw [update_of_ne hxg] at hcall
      have hmem := h.parked x c' hcall hpc'
      by_cases hside : c'.op.side = c.op.side
      · rw [hside, update_self]
        exact mem_append_left _ (hside ▸ hmem)
      · rwa [update_of_ne hside]

theorem Parties.unlink (h : Parties queues calls) (hcall : calls g = some call) :
    Parties (update queues call.op.side ((queues call.op.side).erase g)) (update calls g none) where
  nodup side := by
    by_cases hside : side = call.op.side
    · subst hside
      rw [update_self]
      exact (h.nodup _).erase g
    · rw [update_of_ne hside]
      exact h.nodup side
  queued side x hx := by
    have hmem : x ∈ queues side ∧ x ≠ g := by
      by_cases hside : side = call.op.side
      · subst hside
        rw [update_self, (h.nodup _).mem_erase_iff] at hx
        exact hx.symm
      · rw [update_of_ne hside] at hx
        exact ⟨hx, fun heq => hside (h.side_eq hcall (heq ▸ hx)).symm⟩
    rw [update_of_ne hmem.2]
    exact h.queued side x hmem.1
  parked x call' hcall' hpc := by
    have hxg : x ≠ g := by
      rintro rfl
      rw [update_self] at hcall'
      exact nomatch hcall'
    rw [update_of_ne hxg] at hcall'
    have hmem := h.parked x call' hcall' hpc
    by_cases hside : call'.op.side = call.op.side
    · rw [hside, update_self]
      exact (mem_erase_of_ne hxg).mpr (hside ▸ hmem)
    · rwa [update_of_ne hside]

theorem Parties.doom (h : Parties queues calls) (hcall : calls g = some call) :
    Parties queues (update calls g (some { call with pc := .doomed })) where
  nodup := h.nodup
  queued side x hx := by
    by_cases hxg : x = g
    · subst hxg
      exact ⟨_, update_self .., h.side_eq hcall hx, .inr rfl⟩
    · rw [update_of_ne hxg]
      exact h.queued side x hx
  parked x call' hcall' hpc' := by
    by_cases hxg : x = g
    · subst hxg
      rw [update_self] at hcall'
      cases hcall'
      exact nomatch hpc'
    · rw [update_of_ne hxg] at hcall'
      exact h.parked x call' hcall' hpc'

end Parties

/-! ## The invariant -/

instance (queues : Side → List G) (calls : G → Option (Call H size)) (side : Side) [DecidableEq G] :
    DecidablePred (Woken queues calls side) := fun g =>
  match h : calls g with
  | none => isFalse fun ⟨_, hcall, _⟩ => by simp [h] at hcall
  | some call =>
    decidable_of_iff (call.op.side = side ∧ (call.pc = .woken ∨ call.pc = .doomed ∧ g ∉ queues side))
      ⟨fun hcall => ⟨call, h, hcall⟩, fun ⟨call', hcall', hwoken⟩ => by
        obtain rfl := Option.some.inj (h.symm.trans hcall')
        exact hwoken⟩

variable [DecidableEq G] [Fintype G]

def State.wokens (s : State G H size) (side : Side) : Nat := tally (Woken s.chan.waiters s.calls side)

structure Inv (s : State G H size) : Prop where
  head_lt : s.chan.head < s.chan.capacity
  count_le : s.chan.count ≤ s.chan.capacity
  peers_eq : ∀ kind : Side, s.chan.peers kind.opposite = (s.handles kind).card
  owners_eq : s.chan.owners = (s.handles .senders).card + (s.handles .receivers).card
  parties : Parties s.chan.waiters s.calls
  handle_open : ∀ g call, s.calls g = some call → call.handle ∈ s.handles call.op.side
  live : ∀ side, s.chan.waiters side ≠ [] → s.chan.peers side ≠ 0
  enough : ∀ side, s.chan.waiters side ≠ [] → s.chan.spare side ≤ s.wokens side

theorem inv_bounded (hcapacity : 0 < capacity) (slots : Nat → Item size) (sender receiver : H) :
    Inv (bounded (G := G) capacity slots sender receiver) where
  head_lt := hcapacity
  count_le := Nat.zero_le _
  peers_eq kind := by cases kind <;> rfl
  owners_eq := rfl
  parties := ⟨fun _ => nodup_nil, nofun, nofun⟩
  handle_open := nofun
  live side h := absurd rfl h
  enough side h := absurd rfl h

section Round

variable {s : State G H size} {g : G} {call : Call H size}

omit [Fintype G] in
@[simp] theorem ready_nil (calls : G → Option (Call H size)) : ready [] calls = calls := by
  funext x
  exact if_neg not_mem_nil

variable {woken : List G}

theorem ready_handle (h : Inv s) {side : Side} {queues : Side → List G}
    (hqueue : s.chan.waiters side = woken ++ queues side) {x : G} {call' : Call H size}
    (hcall : ready woken s.calls x = some call') : call'.handle ∈ s.handles call'.op.side := by
  by_cases hx : x ∈ woken
  · obtain ⟨call₁, hcall₁, _, call₂, hcall₂, hop, hhandle, _⟩ := ready_of_mem h.parties hqueue hx
    obtain rfl := Option.some.inj (hcall.symm.trans hcall₂)
    rw [hop, hhandle]
    exact h.handle_open x call₁ hcall₁
  · rw [ready_of_notMem hx] at hcall
    exact h.handle_open x call' hcall

theorem Inv.done (h : Inv s) (hcall : s.calls g = some call) (hpc : call.pc = .entry ∨ call.pc = .woken)
    {d e : Dchan G size} (moves : s.chan.Moves call.op.side d) (wakes : d.Wakes call.op.side.opposite false e woken) :
    Inv ⟨e, update (ready woken s.calls) g none, s.handles⟩ := by
  have hnot := h.parties.notMem hcall hpc
  have hqueue : s.chan.waiters call.op.side.opposite = woken ++ e.waiters call.op.side.opposite := by
    rw [← wakes.queue_eq, moves.waiters_eq]
  have hother : ∀ side', side' ≠ call.op.side.opposite → e.waiters side' = s.chan.waiters side' := by
    intro side' hside
    rw [wakes.other_eq side' hside, moves.waiters_eq]
  have hg : g ∉ woken := fun hmem => hnot _ (hqueue ▸ mem_append_left _ hmem)
  have hrest : ∀ side, g ∉ e.waiters side := fun side hmem =>
    hnot side ((Parties.mem_rest hqueue hother hg side).mp hmem)
  have hwoken : ∀ side x, x ≠ g → (Woken e.waiters (update (ready woken s.calls) g none) side x ↔
        Woken s.chan.waiters s.calls side x ∨ (side = call.op.side.opposite ∧ x ∈ woken)) := by
    intro side x hx
    rw [woken_set_of_ne hx, woken_wake h.parties hqueue hother]
  have hself : ∀ side, ¬Woken e.waiters (update (ready woken s.calls) g none) side g := by
    intro side hw
    obtain ⟨_, hmem, _⟩ := (woken_self none side).mp hw
    exact not_mem_none _ hmem
  have hpeers : ∀ side, e.peers side = s.chan.peers side := by
    intro side
    rw [wakes.header.peers_eq]
    cases side <;> simp [Dchan.peers, moves.receivers_eq, moves.senders_eq]
  refine ⟨?_, ?_, ?_, ?_, (h.parties.wake hqueue hother).set hrest nofun, ?_, ?_, ?_⟩
  · change e.head < e.capacity
    rw [wakes.header.head_eq, wakes.header.capacity_eq]
    exact moves.head_lt
  · change e.count ≤ e.capacity
    rw [wakes.header.count_eq, wakes.header.capacity_eq]
    exact moves.count_le
  · exact fun kind => (hpeers _).trans (h.peers_eq kind)
  · change e.owners = _
    rw [wakes.header.owners_eq, moves.owners_eq]
    exact h.owners_eq
  · intro x call' hcall'
    have hx : x ≠ g := by
      rintro rfl
      simp at hcall'
    change update (ready woken s.calls) g none x = some call' at hcall'
    rw [update_of_ne hx] at hcall'
    exact ready_handle h hqueue hcall'
  · intro side hne
    have hne' : s.chan.waiters side ≠ [] := by
      by_cases hside : side = call.op.side.opposite
      · subst hside
        rw [hqueue]
        exact append_ne_nil_of_right_ne_nil _ hne
      · rwa [← hother side hside]
    rw [hpeers]
    exact h.live side hne'
  · intro side hne
    change e.spare side ≤ tally (Woken e.waiters (update (ready woken s.calls) g none) side)
    rw [wakes.header.spare_eq]
    by_cases hside : side = call.op.side.opposite
    · -- the wake makes up for what the operation leaves
      subst hside
      have hne' : d.waiters call.op.side.opposite ≠ [] := by
        rw [moves.waiters_eq, hqueue]
        exact append_ne_nil_of_right_ne_nil _ hne
      obtain ⟨hlength, hsome⟩ := wakes.one rfl
      obtain ⟨w, rfl⟩ : ∃ w, woken = [w] := length_eq_one_iff.mp
        (Nat.le_antisymm hlength (length_pos_iff.mpr (hsome hne')))
      have hbefore := h.enough _ (by rwa [moves.waiters_eq] at hne')
      have hinsert : tally (Woken e.waiters (update (ready [w] s.calls) g none)
          call.op.side.opposite) = s.wokens call.op.side.opposite + 1 := by
        have hwg : w ≠ g := fun heq => hg (heq ▸ mem_singleton_self w)
        refine tally_insert (g := w) ((hwoken _ w hwg).mpr (.inr ⟨rfl, mem_singleton_self w⟩)) ?_ ?_
        · rintro ⟨call₁, hcall₁, _, hpc₁⟩
          have hmem : w ∈ s.chan.waiters call.op.side.opposite :=
            hqueue ▸ mem_append_left _ (mem_singleton_self w)
          obtain ⟨call₂, hcall₂, _, hpc₂⟩ := h.parties.queued _ w hmem
          obtain rfl := Option.some.inj (hcall₂.symm.trans hcall₁)
          rcases hpc₁ with hpc₁ | ⟨_, hout⟩
          · simp [hpc₁] at hpc₂
          · exact hout hmem
        · intro x hx
          by_cases hxg : x = g
          · subst hxg
            refine iff_of_false ?_ (hself _)
            rintro ⟨call₁, hcall₁, hside₁, _⟩
            obtain rfl := Option.some.inj (hcall.symm.trans hcall₁)
            exact call.op.side.opposite_ne hside₁.symm
          · rw [hwoken _ x hxg, mem_singleton, or_iff_left fun hand => hx hand.2]
      rw [hinsert, moves.other_eq]
      omega
    · -- the party that went through was perhaps a woken one
      obtain rfl : side = call.op.side := by
        have := Side.eq_opposite hside
        cases hs : call.op.side <;> rw [hs] at this <;> exact this
      have hbefore := h.enough _ (by rwa [← hother _ hside])
      have hmove := tally_move (p := Woken s.chan.waiters s.calls call.op.side)
        (q := Woken e.waiters (update (ready woken s.calls) g none) call.op.side) g (by
          intro x hx
          rw [hwoken _ x hx, or_iff_left fun hand => hside hand.1])
      rw [if_neg (hself _)] at hmove
      have hspare := moves.spare_eq
      unfold State.wokens at hbefore
      split at hmove <;> omega

theorem Inv.setCall (h : Inv s) (hparties : Parties s.chan.waiters (update s.calls g new))
    (hopen : ∀ call ∈ new, call.handle ∈ s.handles call.op.side)
    (hwoken : ∀ side, s.chan.waiters side ≠ [] → Woken s.chan.waiters s.calls side g →
      Woken s.chan.waiters (update s.calls g new) side g) : Inv (s.setCall g new) where
  head_lt := h.head_lt
  count_le := h.count_le
  peers_eq := h.peers_eq
  owners_eq := h.owners_eq
  parties := hparties
  handle_open x call' hcall' := by
    change update s.calls g new x = some call' at hcall'
    by_cases hx : x = g
    · subst hx
      rw [update_self] at hcall'
      exact hopen call' hcall'
    · rw [update_of_ne hx] at hcall'
      exact h.handle_open x call' hcall'
  live := h.live
  enough side hne := (h.enough side hne).trans <| tally_mono fun x hx => by
    by_cases hxg : x = g
    · subst hxg
      exact hwoken side hne hx
    · exact (woken_set_of_ne hxg new side).mpr hx

theorem Inv.refused (h : Inv s) (hcall : s.calls g = some call) (hpc : call.pc = .entry ∨ call.pc = .woken)
    (hgone : s.chan.peers call.op.side = 0) : Inv (s.setCall g none) := by
  refine h.setCall (h.parties.set (h.parties.notMem hcall hpc) nofun) nofun fun side hne hwoken => ?_
  obtain ⟨call', hcall', hside, _⟩ := hwoken
  obtain rfl := Option.some.inj (hcall.symm.trans hcall')
  exact absurd (hside ▸ hgone) (h.live side hne)

theorem Inv.waits (h : Inv s) (hcall : s.calls g = some call) (hpc : call.pc = .entry ∨ call.pc = .woken)
    (hfull : s.chan.spare call.op.side = 0) (hlive : s.chan.peers call.op.side ≠ 0) :
    Inv ⟨s.chan.enqueue call.op.side g, update s.calls g (some { call with pc := .parked }), s.handles⟩ := by
  have hheader := s.chan.sameHeader_setWaiters call.op.side (s.chan.waiters call.op.side ++ [g])
  refine ⟨h.head_lt, h.count_le, fun kind => (hheader.peers_eq _).trans (h.peers_eq kind), h.owners_eq,
    h.parties.park (h.parties.notMem hcall hpc) (c := { call with pc := .parked }) rfl, ?_, ?_, ?_⟩
  · intro x call' hcall'
    change update s.calls g _ x = some call' at hcall'
    by_cases hx : x = g
    · subst hx
      rw [update_self] at hcall'
      cases hcall'
      exact h.handle_open x call hcall
    · rw [update_of_ne hx] at hcall'
      exact h.handle_open x call' hcall'
  · intro side hne
    by_cases hside : side = call.op.side
    · subst hside
      exact (hheader.peers_eq _).trans_ne hlive
    · refine (hheader.peers_eq _).trans_ne (h.live side ?_)
      rwa [← s.chan.setWaiters_of_ne hside]
  · intro side hne
    refine (hheader.spare_eq side).trans_le ?_
    by_cases hside : side = call.op.side
    · rw [hside, hfull]
      exact Nat.zero_le _
    · have hqueue := s.chan.setWaiters_of_ne hside (s.chan.waiters call.op.side ++ [g])
      refine (h.enough side (hqueue ▸ hne)).trans (tally_mono fun x hx => ?_)
      obtain ⟨call', hcall', hside', hpc'⟩ := hx
      have hxg : x ≠ g := by
        rintro rfl
        obtain rfl := Option.some.inj (hcall.symm.trans hcall')
        exact hside hside'.symm
      exact ⟨call', (update_of_ne hxg ..).trans hcall', hside', hqueue.symm ▸ hpc'⟩

theorem Inv.unlinked (h : Inv s) (hcall : s.calls g = some call) (hmem : g ∈ s.chan.waiters call.op.side) :
    Inv ⟨(s.chan.unlink call.op.side g).1, update s.calls g none, s.handles⟩ := by
  have hheader := s.chan.sameHeader_setWaiters call.op.side ((s.chan.waiters call.op.side).erase g)
  have hsub : ∀ side, ∀ x ∈ (s.chan.unlink call.op.side g).1.waiters side, x ∈ s.chan.waiters side := by
    intro side x hx
    by_cases hside : side = call.op.side
    · subst hside
      exact mem_of_mem_erase ((s.chan.setWaiters_self ..).subst (motive := (x ∈ ·)) hx)
    · exact (s.chan.setWaiters_of_ne hside _).subst (motive := (x ∈ ·)) hx
  have hne : ∀ side, (s.chan.unlink call.op.side g).1.waiters side ≠ [] → s.chan.waiters side ≠ [] := by
    intro side hne hnil
    obtain ⟨x, hx⟩ := exists_mem_of_ne_nil _ hne
    exact not_mem_nil (hnil ▸ hsub side x hx)
  refine ⟨h.head_lt, h.count_le, fun kind => (hheader.peers_eq _).trans (h.peers_eq kind), h.owners_eq,
    h.parties.unlink hcall, ?_, ?_, ?_⟩
  · intro x call' hcall'
    have hx : x ≠ g := by
      rintro rfl
      simp at hcall'
    change update s.calls g none x = some call' at hcall'
    rw [update_of_ne hx] at hcall'
    exact h.handle_open x call' hcall'
  · exact fun side hside => (hheader.peers_eq _).trans_ne (h.live side (hne side hside))
  · intro side hside
    refine (hheader.spare_eq side).trans_le ((h.enough side (hne side hside)).trans (tally_mono fun x hx => ?_))
    obtain ⟨call', hcall', hside', hpc'⟩ := hx
    have hxg : x ≠ g := by
      rintro rfl
      obtain rfl := Option.some.inj (hcall.symm.trans hcall')
      obtain ⟨call₁, hcall₁, _, hpc₁⟩ := h.parties.queued _ x hmem
      obtain rfl := Option.some.inj (hcall.symm.trans hcall₁)
      rcases hpc' with hpc' | ⟨_, hout⟩
      · simp [hpc'] at hpc₁
      · exact hout (hside' ▸ hmem)
    exact ⟨call', (update_of_ne hxg ..).trans hcall', hside',
      hpc'.imp_right fun hd => ⟨hd.1, fun hx => hd.2 (hsub side x hx)⟩⟩

end Round

/-! ## Handles -/

section Handles

variable [DecidableEq H] {s : State G H size}

omit [DecidableEq G] [Fintype G] [DecidableEq H] in
theorem Side.update_card {handles : Side → Finset H} (new : Finset H) (side : Side) :
    (update handles kind new side).card = if side = kind then new.card else (handles side).card := by
  by_cases hside : side = kind
  · subst hside
    rw [update_self, if_pos rfl]
  · rw [update_of_ne hside, if_neg hside]

theorem Inv.clone (h : Inv s) {fresh : H} (hfresh : fresh ∉ s.handles .senders) : Inv ⟨s.chan.cloneSender, s.calls,
      update s.handles .senders (insert fresh (s.handles .senders))⟩ where
  head_lt := h.head_lt
  count_le := h.count_le
  peers_eq kind := by
    have hpeers := h.peers_eq kind
    rw [Side.update_card, Finset.card_insert_of_notMem hfresh]
    cases kind
    · exact hpeers
    · exact congrArg (· + 1) hpeers
  owners_eq := by
    have howners := h.owners_eq
    rw [Side.update_card, Side.update_card, Finset.card_insert_of_notMem hfresh]
    change s.chan.owners + 1 = _
    simp only [if_true, reduceCtorEq, if_false]
    omega
  parties := h.parties
  handle_open x call hcall := by
    have hmem := h.handle_open x call hcall
    change call.handle ∈ update s.handles _ _ _
    by_cases hside : call.op.side = .senders
    · rw [hside, update_self]
      exact Finset.mem_insert_of_mem (hside ▸ hmem)
    · rwa [update_of_ne hside]
  live side hne := by
    have hlive := h.live side hne
    cases side
    · exact Nat.succ_ne_zero _
    · exact hlive
  enough := h.enough

def Dchan.released (c : Dchan G size) : Side → Dchan G size
  | .senders => { c with owners := c.owners - 1, senders := c.senders - 1 }
  | .receivers => { c with owners := c.owners - 1, receivers := c.receivers - 1 }

omit [DecidableEq G] [Fintype G] in
theorem Dchan.close_cases (c : Dchan G size) (kind : Side) : (c.close kind).2.2 = decide (c.owners - 1 = 0) ∧
      if (c.released kind).peers kind.opposite = 0 then
        (c.released kind).Wakes kind.opposite true (c.close kind).1 (c.close kind).2.1
      else (c.close kind).1 = c.released kind ∧ (c.close kind).2.1 = [] := by
  cases kind <;> unfold close released peers Side.opposite <;> dsimp only
  · split
    · exact ⟨rfl, Dchan.wakes _ _ _⟩
    · exact ⟨rfl, rfl, rfl⟩
  · split
    · exact ⟨rfl, Dchan.wakes _ _ _⟩
    · exact ⟨rfl, rfl, rfl⟩

omit [DecidableEq G] [Fintype G] in
theorem Dchan.released_peers (c : Dchan G size) (kind : Side) :
    (c.released kind).peers kind.opposite = c.peers kind.opposite - 1 ∧
      (c.released kind).peers kind = c.peers kind := by
  cases kind <;> exact ⟨rfl, rfl⟩

omit [DecidableEq G] [Fintype G] in
theorem Dchan.released_eq (c : Dchan G size) (kind : Side) :
    (c.released kind).capacity = c.capacity ∧ (c.released kind).head = c.head ∧
      (c.released kind).count = c.count ∧ (c.released kind).slots = c.slots ∧
        (c.released kind).waiters = c.waiters ∧ (c.released kind).owners = c.owners - 1 := by
  cases kind <;> exact ⟨rfl, rfl, rfl, rfl, rfl, rfl⟩

theorem Inv.close (h : Inv s) (hmem : handle ∈ s.handles kind)
    (hfree : ∀ g, ∀ call ∈ s.calls g, call.handle = handle → call.op.side ≠ kind) :
    Inv ⟨(s.chan.close kind).1, ready (s.chan.close kind).2.1 s.calls,
      update s.handles kind ((s.handles kind).erase handle)⟩ := by
  obtain ⟨-, hcases⟩ := s.chan.close_cases kind
  obtain ⟨hpeers, hother⟩ := s.chan.released_peers kind
  obtain ⟨hcapacity, hhead, hcount, hslots, hwaiters, howners⟩ := s.chan.released_eq kind
  -- one shape for both outcomes
  obtain ⟨header, hqueue, hsame, hempty⟩ : Dchan.SameHeader (s.chan.released kind) (s.chan.close kind).1 ∧
      s.chan.waiters kind.opposite = (s.chan.close kind).2.1 ++ (s.chan.close kind).1.waiters kind.opposite ∧
      (∀ side, side ≠ kind.opposite → (s.chan.close kind).1.waiters side = s.chan.waiters side) ∧
      ((s.chan.close kind).1.waiters kind.opposite ≠ [] → (s.chan.close kind).2.1 = [] ∧
        (s.chan.released kind).peers kind.opposite ≠ 0) := by
    split at hcases
    · refine ⟨hcases.header, ?_, fun side hside => ?_, fun hne => absurd (hcases.all_empty rfl) hne⟩
      · rw [← hcases.queue_eq, hwaiters]
      · rw [hcases.other_eq side hside, hwaiters]
    · rename_i hlive
      rw [hcases.1, hcases.2, hwaiters]
      exact ⟨⟨rfl, rfl, rfl, rfl, rfl, rfl, rfl⟩, rfl, fun _ _ => rfl, fun _ => ⟨rfl, hlive⟩⟩
  generalize (s.chan.close kind).1 = d at *
  generalize (s.chan.close kind).2.1 = woken at *
  have hcard := Finset.card_erase_of_mem hmem
  have hpos := Finset.card_pos.mpr ⟨handle, hmem⟩
  have hspare : ∀ side, d.spare side = s.chan.spare side := by
    intro side
    rw [header.spare_eq]
    cases side <;> simp [Dchan.spare, hcapacity, hcount]
  refine ⟨?_, ?_, ?_, ?_, h.parties.wake hqueue hsame, ?_, ?_, ?_⟩
  · change d.head < d.capacity
    rw [header.head_eq, header.capacity_eq, hhead, hcapacity]
    exact h.head_lt
  · change d.count ≤ d.capacity
    rw [header.count_eq, header.capacity_eq, hcount, hcapacity]
    exact h.count_le
  · intro kind'
    change d.peers _ = _
    rw [header.peers_eq, Side.update_card, hcard]
    by_cases hkind : kind' = kind
    · rw [if_pos hkind, hkind, hpeers, h.peers_eq]
    · rw [if_neg hkind, ← h.peers_eq]
      obtain rfl := Side.eq_opposite hkind
      rw [show kind.opposite.opposite = kind by cases kind <;> rfl, hother]
  · change d.owners = _
    rw [header.owners_eq, howners, h.owners_eq, Side.update_card, Side.update_card, hcard]
    cases kind <;> simp only [if_true, reduceCtorEq, if_false] <;> omega
  · intro x call hcall
    have hhandle := ready_handle h hqueue hcall
    change call.handle ∈ update s.handles _ _ _
    by_cases hside : call.op.side = kind
    · rw [hside, update_self]
      refine Finset.mem_erase.mpr ⟨fun heq => ?_, hside ▸ hhandle⟩
      by_cases hx : x ∈ woken
      · -- the woken wait on the other side
        obtain ⟨_, _, hside', call', hcall', hop, _⟩ := ready_of_mem h.parties hqueue hx
        obtain rfl := Option.some.inj (hcall.symm.trans hcall')
        exact kind.opposite_ne (hside'.symm.trans (hop ▸ hside))
      · exact hfree x call ((ready_of_notMem hx).symm.trans hcall) heq hside
    · rwa [update_of_ne hside]
  · intro side hne
    refine (header.peers_eq side).trans_ne ?_
    by_cases hside : side = kind.opposite
    · subst hside
      exact (hempty hne).2
    · obtain rfl : side = kind := by
        have := Side.eq_opposite hside
        cases kind <;> exact this
      rw [hother]
      exact h.live side (hsame side hside ▸ hne)
  · intro side hne
    refine (hspare side).trans_le ?_
    have hne' : s.chan.waiters side ≠ [] := by
      by_cases hside : side = kind.opposite
      · subst hside
        rw [hqueue]
        exact append_ne_nil_of_right_ne_nil _ hne
      · exact hsame side hside ▸ hne
    refine (h.enough side hne').trans (tally_mono fun x hx => ?_)
    exact (woken_wake h.parties hqueue hsame side).mpr (.inl hx)

end Handles

/-! ## Runs -/

section Runs

variable [DecidableEq H] {thread : G → Bool} {s t : State G H size} {es : List (Event G size)}

omit [DecidableEq G] [Fintype G] [DecidableEq H] in
theorem Dchan.contents_released (c : Dchan G size) (kind : Side) : (c.released kind).contents = c.contents := by
  cases kind <;> rfl

def Event.sent : Event G size → List (Item size)
  | .returned _ (.send item) 0 _ => [item]
  | _ => []

def Event.received : Event G size → List (Item size)
  | .returned _ .recv 0 (some item) => [item]
  | _ => []

/-- What a step does to the channel, and what it shows of it. -/
structure Stepped (s : State G H size) (es : List (Event G size)) (t : State G H size) : Prop where
  inv : Inv t
  capacity_eq : t.chan.capacity = s.chan.capacity
  items : s.chan.contents ++ es.flatMap Event.sent = es.flatMap Event.received ++ t.chan.contents
  refused : ∀ g op item, .returned g op 1 item ∈ es → s.handles op.side.opposite = ∅ ∧ (op = .recv → s.chan.count = 0)
  opened : ∃ kind, s.handles kind ≠ ∅
  closed : if es = [.closed true] then ∀ kind, t.handles kind = ∅
    else .closed true ∉ es ∧ ∃ kind, t.handles kind ≠ ∅

omit [DecidableEq H] in
theorem Stepped.of_handles (hinv : Inv t) (hcapacity : t.chan.capacity = s.chan.capacity)
    (hitems : s.chan.contents ++ es.flatMap Event.sent = es.flatMap Event.received ++ t.chan.contents)
    (hrefused : ∀ g op item, .returned g op 1 item ∈ es →
      s.handles op.side.opposite = ∅ ∧ (op = .recv → s.chan.count = 0)) (hs : s.handles kind ≠ ∅)
    (ht : t.handles kind ≠ ∅) (hclosed : .closed true ∉ es) : Stepped s es t :=
  ⟨hinv, hcapacity, hitems, hrefused, ⟨kind, hs⟩, by
    rw [if_neg (by rintro rfl; exact hclosed (mem_singleton_self _))]
    exact ⟨hclosed, kind, ht⟩⟩

variable {g : G}

omit [DecidableEq H] in
theorem Inv.handles_ne (h : Inv s) (hcall : s.calls g = some call) : s.handles call.op.side ≠ ∅ :=
  Finset.ne_empty_of_mem (h.handle_open g call hcall)

omit [DecidableEq H] in
theorem stepped_round (h : Inv s) (hcall : s.calls g = some call) (hpc : call.pc = .entry ∨ call.pc = .woken) :
    Stepped s (s.round g call).2 (s.round g call).1 := by
  have hround := Dchan.round_cases (Nat.zero_lt_of_lt h.head_lt) h.head_lt h.count_le g call.op
  have hopen := h.handles_ne hcall
  unfold State.round
  generalize s.chan.round g call.op = r at *
  obtain ⟨d, woken, outcome⟩ := r
  dsimp only at hround ⊢
  cases hround with
  | refused gone empty =>
    rw [ready_nil]
    refine .of_handles (h.refused hcall hpc gone) rfl ?_ ?_ hopen hopen (by simp)
    · have hnone : Event.sent (.returned g call.op 1 none : Event G size) = [] ∧
          Event.received (.returned g call.op 1 none : Event G size) = [] := by
        cases call.op <;> exact ⟨rfl, rfl⟩
      simp [State.setCall, hnone]
    · intro g' op item hmem
      obtain ⟨rfl, rfl, rfl⟩ : g' = g ∧ op = call.op ∧ item = none := by simpa using hmem
      refine ⟨?_, empty⟩
      have hcard := h.peers_eq call.op.side.opposite
      rw [show call.op.side.opposite.opposite = call.op.side by cases call.op <;> rfl, gone] at hcard
      exact Finset.card_eq_zero.mp hcard.symm
  | done moves items takes wakes =>
    refine .of_handles (h.done hcall hpc moves wakes) ?_ ?_ ?_ hopen hopen (by simp)
    · exact wakes.header.capacity_eq.trans moves.capacity_eq
    · change s.chan.contents ++ _ = _ ++ d.contents
      rw [wakes.header.contents_eq, flatMap_singleton, flatMap_singleton]
      rename_i item
      have hevents : Event.sent (.returned g call.op 0 item : Event G size) = call.op.puts ∧
          Event.received (.returned g call.op 0 item : Event G size) = item.toList := by
        cases hop : call.op with
        | send item' =>
          cases item with
          | none => exact ⟨rfl, rfl⟩
          | some _ => simp [hop] at takes
        | recv =>
          cases item with
          | none => simp [hop] at takes
          | some _ => exact ⟨rfl, rfl⟩
      rw [hevents.1, hevents.2]
      exact items
    · intro g' op item' hmem
      simp at hmem
  | waits full live =>
    rw [ready_nil]
    refine .of_handles (h.waits hcall hpc full live) rfl ?_ ?_ hopen hopen not_mem_nil
    · exact (append_nil _).trans (s.chan.sameHeader_setWaiters _ _).contents_eq.symm
    · exact fun _ _ _ hmem => absurd hmem not_mem_nil

omit [DecidableEq H] in
theorem stepped_cancel (h : Inv s) (hcall : s.calls g = some call) :
    Stepped s (s.cancel g call).2 (s.cancel g call).1 := by
  have hopen := h.handles_ne hcall
  have hheader := s.chan.sameHeader_setWaiters call.op.side ((s.chan.waiters call.op.side).erase g)
  by_cases hmem : g ∈ s.chan.waiters call.op.side
  · have heq : s.cancel g call = (⟨(s.chan.unlink call.op.side g).1, update s.calls g none, s.handles⟩,
        [.returned g call.op 2 none]) := by
      simp [State.cancel, Dchan.unlink, hmem, State.setCall]
    rw [heq]
    refine .of_handles (h.unlinked hcall hmem) rfl ?_ (by simp) hopen hopen (by simp)
    have hnone : Event.sent (.returned g call.op 2 none : Event G size) = [] ∧
        Event.received (.returned g call.op 2 none : Event G size) = [] := by
      cases call.op <;> exact ⟨rfl, rfl⟩
    rw [flatMap_singleton, flatMap_singleton, hnone.1, hnone.2, append_nil]
    exact hheader.contents_eq.symm
  · have hsame : (s.chan.unlink call.op.side g).1 = s.chan := by
      simp [Dchan.unlink, Dchan.setWaiters, erase_of_not_mem hmem]
    have heq : s.cancel g call = (s.setCall g (some { call with pc := .woken }), []) := by
      have hqueued : (s.chan.unlink call.op.side g).2 = false := decide_eq_false hmem
      simp only [State.cancel, hsame, hqueued]
      rfl
    rw [heq]
    refine .of_handles (h.setCall (h.parties.set (fun side hx => ?_) ?_) ?_ ?_) rfl (append_nil _)
      (fun _ _ _ hx => absurd hx not_mem_nil) hopen hopen not_mem_nil
    · exact hmem (h.parties.side_eq hcall hx ▸ hx)
    · intro call' hmem'
      obtain rfl := mem_some_iff.mp hmem'
      exact Pc.noConfusion
    · intro call' hmem'
      obtain rfl := mem_some_iff.mp hmem'
      exact h.handle_open g call hcall
    · rintro side - ⟨call', hcall', hside, -⟩
      obtain rfl := Option.some.inj (hcall.symm.trans hcall')
      exact (woken_self _ side).mpr ⟨_, rfl, hside, .inl rfl⟩

theorem stepped_close (h : Inv s) (hmem : handle ∈ s.handles kind)
    (hfree : ∀ g, ∀ call ∈ s.calls g, call.handle = handle → call.op.side ≠ kind) :
    Stepped s [.closed (s.chan.close kind).2.2] ⟨(s.chan.close kind).1, ready (s.chan.close kind).2.1 s.calls,
      update s.handles kind ((s.handles kind).erase handle)⟩ := by
  obtain ⟨hlast, hcases⟩ := s.chan.close_cases kind
  obtain ⟨hcapacity, -⟩ := s.chan.released_eq kind
  have hheader : (s.chan.released kind).SameHeader (s.chan.close kind).1 := by
    split at hcases
    · exact hcases.header
    · rw [hcases.1]
      exact ⟨rfl, rfl, rfl, rfl, rfl, rfl, rfl⟩
  have hcard := Finset.card_erase_of_mem hmem
  have hpos := Finset.card_pos.mpr ⟨handle, hmem⟩
  have howners := h.owners_eq
  refine ⟨h.close hmem hfree, hheader.capacity_eq.trans hcapacity, ?_, by simp, ⟨kind, Finset.ne_empty_of_mem hmem⟩, ?_⟩
  · change s.chan.contents ++ [] = [] ++ (s.chan.close kind).1.contents
    rw [hheader.contents_eq, s.chan.contents_released, append_nil, nil_append]
  · have hempty : ∀ side, update s.handles kind ((s.handles kind).erase handle) side = ∅ ↔
        (if side = kind then (s.handles kind).card - 1 else (s.handles side).card) = 0 := by
      intro side
      rw [← Finset.card_eq_zero, Side.update_card, hcard]
    rw [hlast]
    by_cases hzero : s.chan.owners - 1 = 0
    · rw [if_pos (by simp [hzero])]
      intro side
      refine (hempty side).mpr ?_
      cases kind <;> cases side <;> simp only [if_true, reduceCtorEq, if_false] <;> omega
    · rw [if_neg (by simp [hzero])]
      refine ⟨by simp [hzero], ?_⟩
      by_contra hnone
      simp only [not_exists, not_not] at hnone
      have hsenders := (hempty .senders).mp (hnone .senders)
      have hreceivers := (hempty .receivers).mp (hnone .receivers)
      cases kind <;> simp only [if_true, reduceCtorEq, if_false] at hsenders hreceivers <;> omega

theorem stepped (h : Inv s) {a : Act G H size} (hstep : s.step thread a = some (t, es)) : Stepped s es t := by
  have hquiet : ∀ g op item, .returned g op 1 item ∈ ([] : List (Event G size)) →
      s.handles op.side.opposite = ∅ ∧ (op = .recv → s.chan.count = 0) :=
    fun _ _ _ hmem => absurd hmem not_mem_nil
  cases a with
  | call g handle op =>
    simp only [State.step] at hstep
    split at hstep
    · rename_i hnew
      cases hstep
      have hopen := Finset.ne_empty_of_mem hnew.2
      refine .of_handles (h.setCall (h.parties.set (h.parties.notMem_of_none hnew.1) ?_) ?_ ?_) rfl
        (append_nil _) hquiet hopen hopen not_mem_nil
      · intro call' hmem'
        obtain rfl := mem_some_iff.mp hmem'
        exact Pc.noConfusion
      · intro call' hmem'
        obtain rfl := mem_some_iff.mp hmem'
        exact hnew.2
      · rintro side - ⟨call', hcall', -⟩
        rw [hnew.1] at hcall'
        exact nomatch hcall'
    · exact nomatch hstep
  | run g =>
    simp only [State.step, bind_eq_bind, bind_eq_some_iff] at hstep
    obtain ⟨call, hcall, hrun⟩ := hstep
    cases hpc : call.pc with
    | entry =>
      simp only [hpc, Option.some.injEq] at hrun
      obtain rfl : (s.round g call).1 = t := congrArg Prod.fst hrun
      obtain rfl : (s.round g call).2 = es := congrArg Prod.snd hrun
      exact stepped_round h hcall (.inl hpc)
    | parked => simp [hpc] at hrun
    | woken =>
      simp only [hpc, Option.some.injEq] at hrun
      obtain rfl : (s.round g call).1 = t := congrArg Prod.fst hrun
      obtain rfl : (s.round g call).2 = es := congrArg Prod.snd hrun
      exact stepped_round h hcall (.inr hpc)
    | doomed =>
      simp only [hpc, Option.some.injEq] at hrun
      obtain rfl : (s.cancel g call).1 = t := congrArg Prod.fst hrun
      obtain rfl : (s.cancel g call).2 = es := congrArg Prod.snd hrun
      exact stepped_cancel h hcall
  | doom g =>
    simp only [State.step, bind_eq_bind, bind_eq_some_iff] at hstep
    obtain ⟨call, hcall, hdoom⟩ := hstep
    split at hdoom
    · rename_i hparked
      cases hdoom
      have hopen := h.handles_ne hcall
      refine .of_handles (h.setCall (h.parties.doom hcall) ?_ ?_) rfl (append_nil _) hquiet hopen hopen not_mem_nil
      · intro call' hmem'
        obtain rfl := mem_some_iff.mp hmem'
        exact h.handle_open g call hcall
      · rintro side - ⟨call', hcall', -, hpc'⟩
        obtain rfl := Option.some.inj (hcall.symm.trans hcall')
        simp [hparked.1] at hpc'
    · exact nomatch hdoom
  | clone handle fresh =>
    simp only [State.step] at hstep
    split at hstep
    · rename_i hhandle
      cases hstep
      refine .of_handles (h.clone hhandle.2) rfl (append_nil _) hquiet (Finset.ne_empty_of_mem hhandle.1) ?_ not_mem_nil
      refine Finset.ne_empty_of_mem (a := fresh) ?_
      change fresh ∈ update s.handles _ _ _
      rw [update_self]
      exact Finset.mem_insert_self ..
    · exact nomatch hstep
  | close kind handle =>
    simp only [State.step] at hstep
    split at hstep
    · rename_i hhandle
      cases hstep
      exact stepped_close h hhandle.1 hhandle.2
    · exact nomatch hstep

/-- After the events `es`: what was received and what the channel holds are what was sent, in that order, and the
channel is closed once, with its last handle. -/
structure Ran (capacity : Nat) (es : List (Event G size)) (s : State G H size) : Prop where
  inv : Inv s
  capacity_eq : s.chan.capacity = capacity
  items : es.flatMap Event.sent = es.flatMap Event.received ++ s.chan.contents
  closed : if .closed true ∈ es then
      (∀ kind, s.handles kind = ∅) ∧ ∃ before, es = before ++ [.closed true] ∧ .closed true ∉ before
    else ∃ kind, s.handles kind ≠ ∅

omit [DecidableEq H] in
theorem ran_step {es' : List (Event G size)} (h : Ran capacity es s) (hstep : Stepped s es' t) :
    Ran capacity (es ++ es') t where
  inv := hstep.inv
  capacity_eq := hstep.capacity_eq.trans h.capacity_eq
  items := by
    rw [flatMap_append, flatMap_append, h.items, append_assoc, hstep.items, append_assoc]
  closed := by
    have hbefore : .closed true ∉ es := by
      intro hmem
      obtain ⟨kind, hkind⟩ := hstep.opened
      have hclosed := h.closed
      rw [if_pos hmem] at hclosed
      exact hkind (hclosed.1 kind)
    have hclosed := hstep.closed
    split at hclosed
    · rename_i hes
      rw [if_pos (by simp [hes])]
      exact ⟨hclosed, es, by rw [hes], hbefore⟩
    · rw [if_neg fun hmem => (mem_append.mp hmem).elim hbefore hclosed.1]
      exact hclosed.2

theorem ran (hcapacity : 0 < capacity) {slots : Nat → Item size} {sender receiver : H}
    (h : Run (State.step thread) (bounded capacity slots sender receiver) es s) : Ran capacity es s := by
  refine h.invariant (P := Ran capacity) ?_ fun hran hstep => ran_step hran (stepped hran.inv hstep)
  refine ⟨inv_bounded hcapacity slots sender receiver, rfl, rfl, ?_⟩
  rw [if_neg not_mem_nil]
  exact ⟨.senders, Finset.singleton_ne_empty sender⟩

/-- Whatever the order of the steps: the items received and those in the buffer are the items sent, in
their order; a queue lists calls that have not returned; a queued party has no place or item that it
could use but for parties that are already woken; 1 is returned only where nobody is left on the
other side; and the close of the last handle, the only one that returns 1, is the last step. -/
theorem lossless {capacity : Nat} (hcapacity : 0 < capacity) {slots : Nat → Item size} {sender receiver : H}
    (h : Run (State.step thread) (bounded capacity slots sender receiver) es s) :
    es.flatMap Event.sent = es.flatMap Event.received ++ s.chan.contents ∧
    s.chan.contents.length = s.chan.count ∧ s.chan.count ≤ capacity ∧
    (∀ side, (s.chan.waiters side).Nodup ∧ ∀ g ∈ s.chan.waiters side, ∃ call ∈ s.calls g, call.op.side = side) ∧
    (s.chan.waiters .senders ≠ [] → capacity - s.chan.count ≤ s.wokens .senders) ∧
    (s.chan.waiters .receivers ≠ [] → s.chan.count ≤ s.wokens .receivers) ∧
    (∀ a t es', s.step thread a = some (t, es') →
      (∀ g item x, .returned g (.send item) 1 x ∈ es' → s.handles .receivers = ∅) ∧
      ∀ g x, .returned g .recv 1 x ∈ es' → s.chan.count = 0 ∧ s.handles .senders = ∅) ∧
    (.closed true ∈ es ↔ ∀ kind, s.handles kind = ∅) ∧
    (.closed true ∈ es → (∃ before, es = before ++ [.closed true] ∧ .closed true ∉ before) ∧
      ∀ a, s.step thread a = none) := by
  have hran := ran hcapacity h
  have hclosed := hran.closed
  have hcapacity_eq := hran.capacity_eq
  refine ⟨hran.items, Ring.length_contents, hcapacity_eq ▸ hran.inv.count_le, ?_, ?_, ?_, ?_, ?_, ?_⟩
  · intro side
    refine ⟨hran.inv.parties.nodup side, fun g hg => ?_⟩
    obtain ⟨call, hcall, hside, -⟩ := hran.inv.parties.queued side g hg
    exact ⟨call, hcall, hside⟩
  · rw [← hcapacity_eq]
    exact hran.inv.enough .senders
  · exact hran.inv.enough .receivers
  · intro a t es' hstep
    have hrefused := (stepped hran.inv hstep).refused
    refine ⟨fun g item x hmem => (hrefused g _ x hmem).1, fun g x hmem => ?_⟩
    exact ⟨(hrefused g _ x hmem).2 rfl, (hrefused g _ x hmem).1⟩
  · constructor
    · intro hmem
      rw [if_pos hmem] at hclosed
      exact hclosed.1
    · intro hempty
      by_contra hmem
      rw [if_neg hmem] at hclosed
      obtain ⟨kind, hkind⟩ := hclosed
      exact hkind (hempty kind)
  · intro hmem
    rw [if_pos hmem] at hclosed
    refine ⟨hclosed.2, fun a => ?_⟩
    by_contra hne
    obtain ⟨⟨t, es'⟩, hstep⟩ := ne_none_iff_exists'.mp hne
    obtain ⟨kind, hkind⟩ := (stepped hran.inv hstep).opened
    exact hkind (hclosed.1 kind)

/-- A sender waits for room, is woken, and the channel is closed. -/
theorem lossless_two : ∃ s : State (Fin 2) (Fin 2) 1, Run (State.step fun _ => true) (bounded 1 (fun _ => #v[0]) 0 1)
      [.returned 0 (.send #v[7]) 0 none, .returned 1 .recv 0 (some #v[7]),
        .returned 0 (.send #v[8]) 0 none, .closed false, .returned 1 .recv 0 (some #v[8]), .closed true] s ∧
    ∀ a, s.step (fun _ => true) a = none := by
  obtain ⟨⟨s, es⟩, hrun, rfl⟩ := map_eq_some_iff.mp (show (runActs (State.step fun _ => true)
    (bounded 1 (fun _ => #v[0]) 0 1 : State (Fin 2) (Fin 2) 1)
      [.call 0 0 (.send #v[7]), .run 0, .call 0 0 (.send #v[8]), .run 0, .call 1 1 .recv, .run 1, .run 0,
        .close .senders 0, .call 1 1 .recv, .run 1, .close .receivers 1]).map Prod.snd =
    some [.returned 0 (.send #v[7]) 0 none, .returned 1 .recv 0 (some #v[7]),
      .returned 0 (.send #v[8]) 0 none, .closed false, .returned 1 .recv 0 (some #v[8]), .closed true] by
    decide)
  refine ⟨s, run_of_runActs hrun, ?_⟩
  obtain ⟨-, -, -, -, -, -, -, -, hlast⟩ := lossless (by decide) (run_of_runActs hrun)
  exact (hlast (by decide)).2

end Runs

end Tsuzuri.DataChannel
