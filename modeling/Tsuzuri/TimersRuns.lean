import Tsuzuri.TimersFire

/-!
# Every run of the timers

A run is any order of the sections and the acts. `Alone` is a run of the timer thread with nothing
else in between: it ends.
-/

namespace Tsuzuri.Clock

open IndexedHeap Transition List Option

variable {es : List Event}

section Steps

variable {s s' : Timers} {a : Act}

theorem perform_ok (h : s.Inv) {run : List Act} {todo : List (List Act)} (hle : ∀ f, f a ≤ total f s.acts)
    (hacts : ∀ f, total f (run ++ todo.flatten) + f a = total f s.acts + total f (s.perform a).2.2) :
    StepOk s { (s.perform a).1 with run := run, todo := todo } (s.perform a).2.1 := by
  have hd : Done s { (s.perform a).1 with run := run, todo := todo } a (s.perform a).2.2 := ⟨hle, hacts⟩
  cases a with
  | gone n =>
    refine idle_act_ok h hd ⟨rfl, rfl, rfl, rfl, rfl, rfl, rfl, rfl⟩ (fun _ => ⟨rfl, rfl, rfl, rfl, rfl⟩) ?_
      (fun _ => rfl) (fun _ _ => rfl) fun _ he => absurd he not_mem_nil
    exact Int.sub_add_cancel _ _
  | spawn b | drop b =>
    refine idle_act_ok h hd ⟨rfl, rfl, rfl, rfl, rfl, rfl, rfl, rfl⟩ (fun _ => ⟨rfl, rfl, rfl, rfl, rfl⟩)
      (Int.add_zero _) (fun _ => rfl) (fun _ _ => rfl) fun e he => ?_
    rw [mem_singleton.1 he]
    trivial
  | unref c =>
    exact idle_act_ok h hd ⟨rfl, rfl, rfl, rfl, rfl, rfl, rfl, rfl⟩ (fun _ => ⟨rfl, rfl, rfl, rfl, rfl⟩)
      (Int.add_zero _) (fun _ => rfl) (fun _ _ => rfl) fun _ he => absurd he not_mem_nil
  | free t => exact free_ok h hd ⟨rfl, rfl, rfl, rfl, rfl, rfl, rfl, rfl⟩ rfl
  | expire t => exact expire_ok h hd ⟨rfl, rfl, rfl, rfl, rfl, rfl, rfl, rfl⟩ rfl
  | ctxUnref t =>
    refine ctxUnref_ok h hd ⟨rfl, rfl, rfl, rfl, rfl, rfl, rfl, rfl⟩ ?_
    simp only [Timers.perform]
    split <;> rfl
  | takeBox t => exact takeBox_ok h hd ⟨rfl, rfl, rfl, rfl, rfl, rfl, rfl, rfl⟩ rfl
  | unpin t => exact unpin_ok h rfl hd ⟨rfl, rfl, rfl, rfl, rfl, rfl, rfl, rfl⟩ rfl
  | timerFree t =>
    have hclaim : 1 ≤ (claims t s.acts).timerFree := by simpa [claims, timerFrees] using hle (timerFrees t)
    have hlive : s.live t = true := h.live_of_claim (by omega)
    exact timerFree_ok h hd ⟨rfl, rfl, rfl, rfl, rfl, rfl, rfl, rfl⟩ (changed_clear h hlive).1.same.ntimers

variable {rest : List Act}

theorem total_set (f : Act → Nat) (next : List Act) : ∀ {todo : List (List Act)} {k : Nat},
    todo[k]? = some (a :: rest) →
    f a ≤ total f todo.flatten ∧ total f (todo.set k (next ++ rest)).flatten + f a = total f todo.flatten + total f next
  | [], k, hk => by simp at hk
  | l :: todo, 0, hk => by
    obtain rfl : l = a :: rest := by simpa using hk
    simp only [set_cons_zero, flatten_cons, total_append, total_cons]
    omega
  | l :: todo, k + 1, hk => by
    obtain ⟨hle, hset⟩ := total_set f next (show todo[k]? = some (a :: rest) by simpa using hk)
    simp only [set_cons_succ, flatten_cons, total_append]
    omega

theorem acts_run (hrun : s.run = a :: rest) (next : List Act) : (∀ f, f a ≤ total f s.acts) ∧
      ∀ f, total f ((next ++ rest) ++ s.todo.flatten) + f a = total f s.acts + total f next := by
  simp only [Timers.acts, hrun, total_append, total_cons]
  exact ⟨fun f => by omega, fun f => by omega⟩

theorem step_ok (h : s.Inv) {act : Action} (hstep : s.step act = some (s', es)) : StepOk s s' es := by
  cases act <;> simp only [Timers.step, ite_none_left_eq_some, ite_none_right_eq_some, Option.some.injEq,
    Prod.mk.injEq, not_or] at hstep
  case sleep t now ns =>
    obtain ⟨⟨hdead, -⟩, rfl, rfl⟩ := hstep
    exact frame_ok h (by simpa using hdead) (.inl rfl) rfl rfl rfl
  case leave t =>
    obtain ⟨⟨hheld, hkind, hfired⟩, rfl, rfl⟩ := hstep
    exact leave_ok h hheld hkind hfired
  case netWait t now timeout =>
    obtain ⟨hdead, rfl, rfl⟩ := hstep
    exact frame_ok h (by simpa using hdead) (.inr rfl) rfl rfl rfl
  case netDone t =>
    obtain ⟨⟨hheld, hkind⟩, rfl, rfl⟩ := hstep
    exact netDone_ok h hheld hkind
  case timerNew t c now ns period kind handle box scope =>
    obtain ⟨⟨hdead, hnew⟩, rfl, rfl⟩ := hstep
    exact timerNew_ok h (by simpa using hdead) (by simpa using hnew)
  case ctxAfter t c now box scope =>
    obtain ⟨⟨hdead, hnew⟩, rfl, rfl⟩ := hstep
    exact ctxAfter_ok h (by simpa using hdead) c now scope (by simpa using hnew)
  case ctxNew t when scope =>
    obtain ⟨hdead, rfl, rfl⟩ := hstep
    exact ctxNew_ok h (by simpa using hdead) when scope
  case stop t =>
    obtain ⟨hown, heq⟩ := hstep
    have hok := stop_ok h hown
    rwa [heq] at hok
  case reset t now ns scope =>
    obtain ⟨⟨hown, hafter, hns⟩, heq⟩ := hstep
    have hok := reset_ok h hown hafter now hns scope
    rwa [heq] at hok
  case drop t =>
    obtain ⟨⟨hown, hafter⟩, rfl, rfl⟩ := hstep
    exact drop_ok h hown hafter
  case pin t =>
    obtain ⟨⟨hown, hafter⟩, rfl, rfl⟩ := hstep
    exact hold_ok h hown.1 (.inl hafter)
  case wake t now =>
    obtain ⟨⟨hown, hafter⟩, heq⟩ := hstep
    have hok := wake_ok h hown hafter now
    rwa [heq] at hok
  case freeAfter t =>
    obtain ⟨⟨hown, hafter⟩, rfl, rfl⟩ := hstep
    exact freeAfter_ok h hown hafter
  case hold t =>
    obtain ⟨⟨hheld, hkind⟩, rfl, rfl⟩ := hstep
    exact hold_ok h hheld (.inr hkind)
  case release t =>
    obtain ⟨⟨hheld, hkind⟩, rfl, rfl⟩ := hstep
    exact release_ok h hheld hkind
  case disarm t =>
    obtain ⟨⟨hheld, hkind⟩, rfl, rfl⟩ := hstep
    exact disarm_ok h hheld hkind
  case chan c refs =>
    obtain ⟨rfl, rfl⟩ := hstep
    exact .of_idle h rfl rfl rfl rfl rfl rfl rfl rfl (fun _ => rfl) rfl (fun _ => Nat.zero_add _) (fun _ _ => rfl)
      fun _ he => absurd he not_mem_nil
  case settle scope =>
    have hok := settle_ok h scope
    rwa [hstep] at hok
  case timersRun now =>
    obtain ⟨⟨hrun, hnow⟩, heq⟩ := hstep
    have hok := (timersRun_ok h hrun hnow).1
    rwa [heq] at hok
  case runAct =>
    split at hstep
    · cases hstep
    · rename_i a rest hrun
      cases hstep
      obtain ⟨hle, hacts⟩ := acts_run hrun (s.perform a).2.2
      exact perform_ok h hle hacts
  case act k =>
    split at hstep
    · rename_i a rest hk
      cases hstep
      refine perform_ok h (fun f => ?_) fun f => ?_
      · have := (total_set f (s.perform a).2.2 hk).1
        rw [Timers.acts, total_append]
        omega
      · have := (total_set f (s.perform a).2.2 hk).2
        rw [Timers.acts, total_append, total_append, Nat.add_assoc, this, Nat.add_assoc]
    · cases hstep

end Steps

section Runs

abbrev Runs (es : List Event) (s : Timers) : Prop := Run Timers.step Timers.initial es s

variable {s : Timers} {t : Record}

end Runs

end Tsuzuri.Clock
