import Tsuzuri.Timers

/-!
# What the sections do to the heap and to the lists

Every section changes one record.
-/

namespace Tsuzuri.Clock

open IndexedHeap
open Function (update update_of_ne update_self)

def total (f : Act → Nat) : List Act → Nat
  | [] => 0
  | a :: as => f a + total f as

@[simp] theorem total_nil (f : Act → Nat) : total f [] = 0 := rfl

@[simp] theorem total_cons (f : Act → Nat) (a : Act) (as : List Act) : total f (a :: as) = f a + total f as := rfl

@[simp] theorem total_append (f : Act → Nat) (as bs : List Act) : total f (as ++ bs) = total f as + total f bs := by
  induction as with
  | nil => simp
  | cons a as ih => simp [ih, Nat.add_assoc]

def Timers.acts (s : Timers) : List Act := s.run ++ s.todo.flatten

def Timers.Pends (s : Timers) (t : Record) : Prop :=
  s.live t = true ∧ (s.recs t).state = .pending

instance Timers.decidablePends (s : Timers) (t : Record) : Decidable (s.Pends t) :=
  inferInstanceAs (Decidable (_ ∧ _))

def Timers.InScope (s : Timers) (t : Record) (scope : Scope) : Prop :=
  s.live t = true ∧ (s.recs t).scope = some scope

/-- The heap is ordered, each of its timers knows its place, and it holds those that pend. -/
structure Timers.HeapOk (s : Timers) : Prop where
  placed : s.heap.Placed
  ordered : s.heap.Ordered s.when
  pends : ∀ t, s.heap.Mem t ↔ s.Pends t

/-- The lists of the boundaries hold the timers that are in them, each once. -/
structure Timers.ListsOk (s : Timers) : Prop where
  listed : ∀ scope t, t ∈ s.lists scope ↔ s.InScope t scope
  once : ∀ scope, (s.lists scope).Nodup

section Heap

variable {s s' : Timers} {t : Record}

theorem Timers.HeapOk.congr (h : s.HeapOk) (hheap : s'.heap = s.heap)
    (hwhen : ∀ u, s.Pends u → s'.when u = s.when u) (hpends : ∀ u, s'.Pends u ↔ s.Pends u) : s'.HeapOk where
  placed := hheap ▸ h.placed
  ordered := by
    rw [hheap]
    exact h.ordered.congr fun u hu => hwhen u ((h.pends u).1 hu)
  pends u := by rw [hheap, h.pends, hpends]

theorem Timers.HeapOk.push (h : s.HeapOk) (hheap : s'.heap = s.heap.push s'.when t)
    (hout : ¬ s.Pends t) (hin : s'.Pends t) (hwhen : ∀ u ≠ t, s'.when u = s.when u)
    (hothers : ∀ u ≠ t, s'.Pends u ↔ s.Pends u) : s'.HeapOk ∧ s'.heap.count = s.heap.count + 1 := by
  have hnew : ¬ s.heap.Mem t := fun hm => hout ((h.pends t).1 hm)
  have hord : s.heap.Ordered s'.when := h.ordered.congr fun u hu =>
    hwhen u fun e => hnew (e ▸ hu)
  obtain ⟨hcount, hplaced, hmem, hkeeps⟩ := push_spec s'.when h.placed hnew
  rw [hheap]
  refine ⟨⟨hheap ▸ hplaced, hheap ▸ hkeeps hord, fun u => ?_⟩, hcount⟩
  rw [hheap, hmem]
  by_cases hut : u = t
  · subst hut
    exact iff_of_true (.inl rfl) hin
  · rw [hothers u hut, ← h.pends u]
    exact ⟨fun hor => hor.resolve_left hut, .inr⟩

theorem Timers.HeapOk.remove (h : s.HeapOk) (hheap : s'.heap = s.heap.remove s.when t)
    (hin : s.Pends t) (hout : ¬ s'.Pends t) (hwhen : ∀ u ≠ t, s'.when u = s.when u)
    (hothers : ∀ u ≠ t, s'.Pends u ↔ s.Pends u) : s'.HeapOk ∧ s'.heap.count + 1 = s.heap.count := by
  obtain ⟨hcount, hplaced, hmem, hkeeps⟩ :=
    remove_spec s.when h.placed ((h.pends t).2 hin)
  rw [hheap]
  refine ⟨⟨hheap ▸ hplaced, ?_, fun u => ?_⟩, hcount⟩
  · rw [hheap]
    exact (hkeeps h.ordered).congr fun u hu => hwhen u ((hmem u).1 hu).1
  · rw [hheap, hmem]
    by_cases hut : u = t
    · subst hut
      exact iff_of_false (fun hand => hand.1 rfl) hout
    · rw [hothers u hut, ← h.pends u]
      exact ⟨fun hand => hand.2, fun hu => ⟨hut, hu⟩⟩

end Heap

section Lists

variable {s s' : Timers} {t : Record} {scope : Scope}

theorem Timers.ListsOk.congr (h : s.ListsOk) (hlists : s'.lists = s.lists)
    (hin : ∀ u sc, s'.InScope u sc ↔ s.InScope u sc) : s'.ListsOk where
  listed sc u := by rw [hlists, h.listed, hin]
  once sc := hlists ▸ h.once sc

theorem Timers.ListsOk.cons (h : s.ListsOk) (hlists : s'.lists = update s.lists scope (t :: s.lists scope))
    (hout : ∀ sc, ¬ s.InScope t sc) (hin : ∀ sc, s'.InScope t sc ↔ sc = scope)
    (hothers : ∀ u ≠ t, ∀ sc, s'.InScope u sc ↔ s.InScope u sc) : s'.ListsOk where
  listed sc u := by
    rw [hlists, Function.update_apply]
    by_cases hut : u = t
    · subst hut
      rw [hin]
      by_cases hsc : sc = scope
      · simp [hsc]
      · simp [hsc, h.listed, hout]
    · rw [hothers u hut, ← h.listed]
      by_cases hsc : sc = scope
      · simp [hsc, hut]
      · simp [hsc]
  once sc := by
    rw [hlists, Function.update_apply]
    by_cases hsc : sc = scope
    · rw [if_pos hsc, List.nodup_cons, h.listed]
      exact ⟨hout scope, h.once scope⟩
    · rw [if_neg hsc]
      exact h.once sc

theorem Timers.ListsOk.erase (h : s.ListsOk) (hlists : s'.lists = update s.lists scope ((s.lists scope).erase t))
    (hin : s.InScope t scope) (hout : ∀ sc, ¬ s'.InScope t sc)
    (hothers : ∀ u ≠ t, ∀ sc, s'.InScope u sc ↔ s.InScope u sc) : s'.ListsOk where
  listed sc u := by
    rw [hlists, Function.update_apply]
    by_cases hut : u = t
    · subst hut
      refine iff_of_false ?_ (hout sc)
      by_cases hsc : sc = scope
      · rw [if_pos hsc, (h.once scope).mem_erase_iff]
        exact fun hand => hand.1 rfl
      · rw [if_neg hsc, h.listed]
        exact fun hu => hsc (Option.some.inj (hu.2.symm.trans hin.2))
    · rw [hothers u hut, ← h.listed]
      by_cases hsc : sc = scope
      · subst hsc
        rw [if_pos rfl, (h.once sc).mem_erase_iff]
        exact ⟨fun hand => hand.2, fun hu => ⟨hut, hu⟩⟩
      · rw [if_neg hsc]
  once sc := by
    rw [hlists, Function.update_apply]
    by_cases hsc : sc = scope
    · rw [if_pos hsc]
      exact (h.once scope).erase t
    · rw [if_neg hsc]
      exact h.once sc

end Lists

/-- What a section changes beside its record, the heap and the lists: nothing. -/
structure Timers.Same (s s' : Timers) : Prop where
  live : s'.live = s.live
  held : s'.held = s.held
  refs : s'.refs = s.refs
  afterFunc : s'.afterFunc = s.afterFunc
  made : s'.made = s.made
  chanRefs : s'.chanRefs = s.chanRefs
  ntimers : s'.ntimers = s.ntimers
  runs : s'.runs = s.runs
  run : s'.run = s.run
  todo : s'.todo = s.todo

variable {s s' s'' : Timers}

theorem Timers.Same.trans (h : s.Same s') (h' : s'.Same s'') : s.Same s'' where
  live := h'.live.trans h.live
  held := h'.held.trans h.held
  refs := h'.refs.trans h.refs
  afterFunc := h'.afterFunc.trans h.afterFunc
  made := h'.made.trans h.made
  chanRefs := h'.chanRefs.trans h.chanRefs
  ntimers := h'.ntimers.trans h.ntimers
  runs := h'.runs.trans h.runs
  run := h'.run.trans h.run
  todo := h'.todo.trans h.todo

/-- `s'` is `s` but for the record `t`, which is now `r`, the heap and the lists. -/
structure Timers.Changed (s s' : Timers) (t : Record) (r : Timer) (n m : Nat) : Prop where
  same : s.Same s'
  recs : s'.recs = update s.recs t r
  heapOk : s'.HeapOk
  listsOk : s'.ListsOk
  count : s'.heap.count + m = s.heap.count + n

section Primitives

variable {s : Timers} {t : Record}
variable {u : Record} {r : Timer} {n m : Nat}

theorem pends_setRec_of_ne (s : Timers) (r : Timer) (hut : u ≠ t) : (s.setRec t r).Pends u ↔ s.Pends u := by
  simp [Timers.Pends, Timers.setRec, update_of_ne hut]

theorem inScope_setRec_of_ne (s : Timers) (r : Timer) (hut : u ≠ t) (sc : Scope) :
    (s.setRec t r).InScope u sc ↔ s.InScope u sc := by
  simp [Timers.InScope, Timers.setRec, update_of_ne hut]

theorem Timers.same_setRec (s : Timers) (t : Record) (r : Timer) : s.Same (s.setRec t r) :=
  ⟨rfl, rfl, rfl, rfl, rfl, rfl, rfl, rfl, rfl, rfl⟩

section

variable (hh : s.HeapOk)

include hh

variable (hl : s.ListsOk)

include hl

theorem changed_setRec (hout : ¬ s.Pends t) (hnew : r.state ≠ .pending) (hscope : r.scope = (s.recs t).scope) :
    s.Changed (s.setRec t r) t r 0 0 where
  same := s.same_setRec t r
  recs := rfl
  heapOk := hh.congr rfl (fun u hu => by
      have hut : u ≠ t := fun e => hout (e ▸ hu)
      simp [Timers.when, Timers.setRec, update_of_ne hut])
    (fun u => by
      by_cases hut : u = t
      · subst hut
        exact iff_of_false (fun hp => hnew (by simpa [Timers.setRec] using hp.2)) hout
      · exact pends_setRec_of_ne s r hut)
  listsOk := hl.congr rfl fun u sc => by
    by_cases hut : u = t
    · subst hut
      simp [Timers.InScope, Timers.setRec, hscope]
    · exact inScope_setRec_of_ne s r hut sc
  count := rfl

theorem changed_fields (hwhen : r.when = (s.recs t).when) (hstate : r.state = (s.recs t).state)
    (hscope : r.scope = (s.recs t).scope) : s.Changed (s.setRec t r) t r 0 0 where
  same := s.same_setRec t r
  recs := rfl
  heapOk := hh.congr rfl (fun u _ => by
      by_cases hut : u = t
      · subst hut
        simpa [Timers.when, Timers.setRec] using hwhen
      · simp [Timers.when, Timers.setRec, update_of_ne hut])
    (fun u => by
      by_cases hut : u = t
      · subst hut
        simp [Timers.Pends, Timers.setRec, hstate]
      · exact pends_setRec_of_ne s r hut)
  listsOk := hl.congr rfl fun u sc => by
    by_cases hut : u = t
    · subst hut
      simp [Timers.InScope, Timers.setRec, hscope]
    · exact inScope_setRec_of_ne s r hut sc
  count := rfl

theorem changed_unlist (hlive : s.live t = true) : s.Changed (s.unlist t) t { s.recs t with scope := none } 0 0 := by
  unfold Timers.unlist
  split
  · rename_i hnone
    have hsame : ({ s.recs t with scope := none } : Timer) = s.recs t := by
      rw [← hnone]
    refine ⟨⟨rfl, rfl, rfl, rfl, rfl, rfl, rfl, rfl, rfl, rfl⟩, ?_, hh, hl, rfl⟩
    rw [hsame, Function.update_eq_self]
  · rename_i scope hscope
    refine ⟨⟨rfl, rfl, rfl, rfl, rfl, rfl, rfl, rfl, rfl, rfl⟩, rfl, ?_, ?_, rfl⟩
    · refine hh.congr rfl (fun u _ => ?_) fun u => ?_
      · by_cases hut : u = t
        · subst hut
          simp [Timers.when, Timers.setRec]
        · simp [Timers.when, Timers.setRec, update_of_ne hut]
      · by_cases hut : u = t
        · subst hut
          simp [Timers.Pends, Timers.setRec]
        · exact pends_setRec_of_ne s _ hut
    · refine hl.erase rfl ⟨hlive, hscope⟩ (fun sc => ?_) fun u hut sc => inScope_setRec_of_ne s _ hut sc
      simp [Timers.InScope, Timers.setRec]

theorem changed_list (hlive : s.live t = true) (scope : Scope) (hnone : (s.recs t).scope = none) :
    s.Changed (s.list t scope) t { s.recs t with scope := some scope } 0 0 := by
  refine ⟨⟨rfl, rfl, rfl, rfl, rfl, rfl, rfl, rfl, rfl, rfl⟩, rfl, ?_, ?_, rfl⟩
  · refine hh.congr rfl (fun u _ => ?_) fun u => ?_
    · by_cases hut : u = t
      · subst hut
        simp [Timers.when, Timers.list, Timers.setRec]
      · simp [Timers.when, Timers.list, Timers.setRec, update_of_ne hut]
    · by_cases hut : u = t
      · subst hut
        simp [Timers.Pends, Timers.list, Timers.setRec]
      · exact pends_setRec_of_ne s _ hut
  · refine hl.cons rfl (fun sc => ?_) (fun sc => ?_) fun u hut sc => inScope_setRec_of_ne s _ hut sc
    · simp [Timers.InScope, hnone]
    · simp [Timers.InScope, Timers.list, Timers.setRec, hlive, eq_comm]

theorem changed_heapPush (hlive : s.live t = true) (hout : ¬ s.Pends t) :
    s.Changed (s.heapPush t) t { s.recs t with state := .pending } 1 0 := by
  obtain ⟨hok, hcount⟩ := hh.push (show (s.heapPush t).heap = s.heap.push (s.heapPush t).when t from rfl) hout
    (by simp [Timers.Pends, Timers.heapPush, Timers.setRec, hlive])
    (fun u hut => by simp [Timers.when, Timers.heapPush, Timers.setRec, update_of_ne hut])
    (fun u hut => pends_setRec_of_ne s _ hut)
  refine ⟨⟨rfl, rfl, rfl, rfl, rfl, rfl, rfl, rfl, rfl, rfl⟩, rfl, hok, ?_, hcount⟩
  refine hl.congr rfl fun u sc => ?_
  by_cases hut : u = t
  · subst hut
    simp [Timers.InScope, Timers.heapPush, Timers.setRec]
  · exact inScope_setRec_of_ne s _ hut sc

theorem changed_remove (hin : s.Pends t) (state : TimerState) (hstate : state ≠ .pending) :
    s.Changed ((s.heapRemove t).setRec t { s.recs t with state := state }) t { s.recs t with state := state } 0 1 := by
  obtain ⟨hok, hcount⟩ := hh.remove
    (show ((s.heapRemove t).setRec t { s.recs t with state := state }).heap = s.heap.remove s.when t from rfl) hin
    (by simp [Timers.Pends, Timers.setRec, hstate])
    (fun u hut => by simp [Timers.when, Timers.heapRemove, Timers.setRec, update_of_ne hut])
    (fun u hut => by
      simp [Timers.Pends, Timers.heapRemove, Timers.setRec, update_of_ne hut])
  refine ⟨⟨rfl, rfl, rfl, rfl, rfl, rfl, rfl, rfl, rfl, rfl⟩, rfl, hok, ?_, hcount⟩
  refine hl.congr rfl fun u sc => ?_
  by_cases hut : u = t
  · subst hut
    simp [Timers.InScope, Timers.heapRemove, Timers.setRec]
  · simp [Timers.InScope, Timers.heapRemove, Timers.setRec, update_of_ne hut]

end

theorem Timers.Changed.trans {r' : Timer} {n' m' : Nat} (h : s.Changed s' t r n m) (h' : s'.Changed s'' t r' n' m') :
    s.Changed s'' t r' (n + n') (m + m') where
  same := h.same.trans h'.same
  recs := by rw [h'.recs, h.recs, Function.update_idem]
  heapOk := h'.heapOk
  listsOk := h'.listsOk
  count := by
    have hc := h.count
    have hc' := h'.count
    omega

theorem Timers.Changed.here (h : s.Changed s' t r n m) : s'.recs t = r := by
  rw [h.recs, update_self]

/-- A timer that `tzr_timer_take` has looked at. -/
def Timer.taken (r : Timer) : Timer :=
  if r.state = .pending ∨ r.state = .dormant then
    { r with state := .stopped, scope := if r.kind = .func then r.scope else none }
  else r

/-- What `tzr_timer_take` returns. -/
def Timer.waits (r : Timer) : Nat :=
  match r.state with
  | .pending => 2
  | .dormant => 1
  | _ => 0

theorem Timer.waits_eq_two (r : Timer) : r.waits = 2 ↔ r.state = .pending := by
  unfold Timer.waits
  cases r.state <;> simp

theorem Timer.waits_eq_zero (r : Timer) : r.waits = 0 ↔ ¬ (r.state = .pending ∨ r.state = .dormant) := by
  unfold Timer.waits
  cases r.state <;> simp

theorem take_snd : (s.take t).2 = (s.recs t).waits := by
  unfold Timers.take Timer.waits
  cases hstate : (s.recs t).state <;> simp

theorem changed_take (hh : s.HeapOk) (hl : s.ListsOk) (hlive : s.live t = true) :
    s.Changed (s.take t).1 t (s.recs t).taken 0 (if s.Pends t then 1 else 0) := by
  have hunlist : ∀ {s' : Timers} {n : Nat}, s.Changed s' t { s.recs t with state := .stopped } 0 n →
      s.Changed (if (s'.recs t).kind ≠ .func then s'.unlist t else s') t
        { s.recs t with state := .stopped, scope := if (s.recs t).kind = .func then (s.recs t).scope else none }
        0 n := by
    intro s' n hc
    have hlive' : s'.live t = true := by rw [hc.same.live]; exact hlive
    rw [hc.here]
    by_cases hkind : (s.recs t).kind = .func
    · simp only [hkind, ne_eq, not_true_eq_false, if_false, if_true]
      simpa [hkind] using hc
    · simp only [hkind, ne_eq, not_false_eq_true, if_true, if_false]
      have hc' := hc.trans (changed_unlist hc.heapOk hc.listsOk hlive')
      rw [hc.here] at hc'
      exact hc'
  by_cases hpends : (s.recs t).state = .pending
  · have htake : (s.take t).1 = let s' := (s.heapRemove t).setRec t { s.recs t with state := .stopped }
        if (s'.recs t).kind ≠ .func then s'.unlist t else s' := by
      simp only [Timers.take, hpends]
      rfl
    have hin : s.Pends t := ⟨hlive, hpends⟩
    have htaken : (s.recs t).taken = { s.recs t with
        state := .stopped, scope := if (s.recs t).kind = .func then (s.recs t).scope else none } :=
      if_pos (.inl hpends)
    rw [htake, if_pos hin, htaken]
    exact hunlist (changed_remove hh hl ⟨hlive, hpends⟩ .stopped nofun)
  have hout : ¬ s.Pends t := fun hp => hpends hp.2
  rw [if_neg hout]
  by_cases hdormant : (s.recs t).state = .dormant
  · have htake : (s.take t).1 = let s' := s.setRec t { s.recs t with state := .stopped }
        if (s'.recs t).kind ≠ .func then s'.unlist t else s' := by
      simp only [Timers.take, hdormant]
      rfl
    have htaken : (s.recs t).taken = { s.recs t with
        state := .stopped, scope := if (s.recs t).kind = .func then (s.recs t).scope else none } :=
      if_pos (.inr hdormant)
    rw [htake, htaken]
    exact hunlist (changed_setRec hh hl hout nofun rfl)
  · have htake : (s.take t).1 = s := by
      unfold Timers.take
      cases hstate : (s.recs t).state <;> simp_all
    have htaken : (s.recs t).taken = s.recs t := if_neg (by simp [hpends, hdormant])
    rw [htake, htaken]
    exact ⟨⟨rfl, rfl, rfl, rfl, rfl, rfl, rfl, rfl, rfl, rfl⟩, (Function.update_eq_self t s.recs).symm, hh, hl, rfl⟩

end Primitives

end Tsuzuri.Clock
