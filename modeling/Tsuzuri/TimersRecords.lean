import Tsuzuri.TimersSections

/-!
# Records that come, change hands and go

The sections that give a record out, arm one that is in use, hand it on or free it.
-/

namespace Tsuzuri.Clock

open IndexedHeap List
open Function (update update_of_ne update_self)

section Recount

variable {s s' : Timers} {t : Record}

theorem Kept.recount {r : Timer} {held refs held' refs' : Nat} {after : Bool} {c c' : Claims}
    (hk : Kept r held refs after c) (hpos : 0 < refs)
    (hcounts : refs' = held' + c'.ctx + c'.pin + c'.take + if r.kind = .ctx ∧ r.state = .pending then 1 else 0)
    (howner : (0 < refs' ∧ c'.free = 0 ∧ c'.timerFree = 0) ∨
      (refs' = 0 ∧ c'.free = 0 ∧ c'.timerFree = 1 ∧ r.handle = true))
    (hsingle : after = false → r.kind ≠ .ctx → refs' ≤ 1) (hctxs : 0 < c'.ctx → r.kind = .ctx)
    (hpinned : 0 < c'.pin + c'.take → after = true)
    (htaken : 0 < c'.take → r.state ≠ .pending ∧ r.state ≠ .dormant) : Kept r held' refs' after c' where
  counts := hcounts
  owner := howner.elim .inl fun hown => .inr (.inl hown)
  frame := hk.frame
  inner := hk.inner
  loose hkind hhandle := absurd (hk.loose hkind hhandle) (by omega)
  boxed := hk.boxed
  func := hk.func
  dormant := hk.dormant
  tick := hk.tick
  single := hsingle
  ctxs := hctxs
  pinned := hpinned
  after := hk.after
  taken := htaken
  idle := hk.idle

theorem changed_refl (h : s.Inv) (t : Record) : s.Changed s t (s.recs t) 0 0 :=
  ⟨⟨rfl, rfl, rfl, rfl, rfl, rfl, rfl, rfl, rfl, rfl⟩, (Function.update_eq_self t s.recs).symm, h.heapOk,
    h.listsOk, rfl⟩

theorem StepOk.refl (h : s.Inv) : StepOk s s [] where
  inv := h
  trace _ := rfl
  boxes _ hok := hok
  clean := fun _ he => absurd he not_mem_nil

theorem StepOk.of_recount (h : s.Inv) (hlive : s.live t = true) (hb : Beside s s' t)
    (hntimers : s'.ntimers + total owed s.acts = s.ntimers + total owed s'.acts)
    (hhanded : ∀ b, total (handed b) s'.acts = total (handed b) s.acts)
    (hkept : Kept (s.recs t) (s'.held t) (s'.refs t) (s'.afterFunc t) (claims t s'.acts)) : StepOk s s' [] :=
  .of_changed h hlive (changed_refl h t) hb (by omega) hkept (fun _ _ _ => rfl) rfl rfl
    (fun b => by simp [doneBy, hhanded]) fun e he => absurd he not_mem_nil

theorem hold_ok (h : s.Inv) (hheld : 0 < s.held t) (hwhat : s.afterFunc t = true ∨ (s.recs t).kind = .ctx) :
    StepOk s { s with
      held := update s.held t (s.held t + 1)
      refs := update s.refs t (s.refs t + 1) } (s.stale [t]) := by
  have hlive := h.live_of_held hheld
  have hk := h.keptLive hlive
  rw [Timers.Inv.stale_one hlive]
  refine .of_recount h hlive (((Beside.refl s t).setHeld _).setRefs _) rfl (fun _ => rfl) ?_
  obtain ⟨hpos, hfree, htimer⟩ := hk.refs_pos hheld
  have hcounts := hk.counts
  change Kept _ (update s.held t _ t) (update s.refs t _ t) (s.afterFunc t) (claims t s.acts)
  rw [update_self, update_self]
  refine hk.recount hpos (by omega) (.inl ⟨by omega, hfree, htimer⟩) (fun ha hkind => ?_) hk.ctxs hk.pinned hk.taken
  rcases hwhat with hafter | hctx
  · rw [ha] at hafter
    cases hafter
  · exact absurd hctx hkind

theorem release_ok (h : s.Inv) (hheld : 0 < s.held t) (hkind : (s.recs t).kind = .ctx) :
    StepOk s ((s.give t).later [.ctxUnref t]) [] := by
  have hlive := h.live_of_held hheld
  have hk := h.keptLive hlive
  have has : About t [.ctxUnref t] := about_one (.inr (.inl rfl))
  have hb : Beside s (s.later [.ctxUnref t]) t := beside_later fun u hut =>
    claims_later (has.ctx u hut) (has.pin u hut) (has.take u hut) (has.free u hut) (has.timerFree u hut)
  refine .of_recount h hlive hb.give ?_ (fun b => ?_) ?_
  · change s.ntimers + _ = s.ntimers + (total owed (s.later [.ctxUnref t]).acts : Nat)
    rw [total_later, has.owed, Nat.add_zero]
  · exact (total_later _ _ _).trans (by rw [has.handed, Nat.add_zero]; rfl)
  · obtain ⟨hpos, hfree, htimer⟩ := hk.refs_pos hheld
    have hcounts := hk.counts
    have hclaims : claims t ((s.give t).later [.ctxUnref t]).acts =
        { claims t s.acts with ctx := (claims t s.acts).ctx + 1 } := by
      change claims t (s.later [.ctxUnref t]).acts = _
      simp [claims, ctxTokens, pins, takes, frees, timerFrees]
    change Kept _ (update s.held t (s.held t - 1) t) (s.refs t) (s.afterFunc t) _
    rw [hclaims, update_self]
    refine hk.recount hpos ?_ (.inl ⟨hpos, hfree, htimer⟩) hk.single (fun _ => hkind) hk.pinned hk.taken
    simp only
    omega

theorem drop_ok (h : s.Inv) (hown : s.owns t) (hafter : s.afterFunc t = false) :
    StepOk s (Timers.later { s.give t with refs := update s.refs t 0 } [.timerFree t]) [] := by
  have hlive := h.live_of_held hown.1
  have hk := h.keptLive hlive
  have has : About t [.timerFree t] := about_one (.inr (.inr (.inr rfl)))
  have hb : Beside s (s.later [.timerFree t]) t := beside_later fun u hut =>
    claims_later (has.ctx u hut) (has.pin u hut) (has.take u hut) (has.free u hut) (has.timerFree u hut)
  have hctx : (s.recs t).kind ≠ .ctx := fun hkind => by
    have := hk.inner hkind
    rw [hown.2] at this
    cases this
  refine .of_recount h hlive (hb.give.setRefs 0) ?_ (fun b => ?_) ?_
  · change s.ntimers + _ = s.ntimers + (total owed (s.later [.timerFree t]).acts : Nat)
    rw [total_later, has.owed, Nat.add_zero]
  · exact (total_later _ _ _).trans (by rw [has.handed, Nat.add_zero]; rfl)
  · have hheld := hown.1
    obtain ⟨hpos, hfree, htimer⟩ := hk.refs_pos hheld
    have hcounts := hk.counts
    have hsingle := hk.single hafter hctx
    have hclaims : claims t (Timers.later { s.give t with refs := update s.refs t 0 } [.timerFree t]).acts =
        { claims t s.acts with timerFree := (claims t s.acts).timerFree + 1 } := by
      change claims t (s.later [.timerFree t]).acts = _
      simp [claims, ctxTokens, pins, takes, frees, timerFrees]
    change Kept _ (update s.held t (s.held t - 1) t) (update s.refs t 0 t) (s.afterFunc t) _
    rw [hclaims, update_self, update_self]
    simp only [hctx, false_and, if_false, Nat.add_zero] at hcounts
    refine hk.recount hpos ?_ (.inr ⟨rfl, hfree, by simp [htimer], hown.2⟩) (fun _ _ => Nat.zero_le _) hk.ctxs
      hk.pinned hk.taken
    simp only [hctx, false_and, if_false]
    omega

end Recount

section Arming

variable {s s' : Timers} {t : Record}

theorem clean_armed : ∀ e ∈ [Event.armed t], e.Clean := by
  intro e he
  rw [mem_singleton.1 he]
  trivial

theorem armFold_armed_of_ne {u : Record} (hut : u ≠ t) (armed : Bool) : armFold u armed [.armed t] = some armed := by
  simp [armFold, armStep, Ne.symm hut]

theorem wake_ok (h : s.Inv) (hown : s.owns t) (hafter : s.afterFunc t = true) (now : Int) :
    StepOk s (s.timerWake t now).1 (s.timerWake t now).2 := by
  have hlive := h.live_of_held hown.1
  have hk := h.keptLive hlive
  unfold Timers.timerWake
  split
  · rename_i hdormant
    have hout : ¬ s.Pends t := fun hp => by
      rw [hp.2] at hdormant
      cases hdormant
    have hc := changed_setRec (r := { s.recs t with when := now }) h.heapOk h.listsOk hout (by simp [hdormant]) rfl
    have hout' : ¬ (s.setRec t { s.recs t with when := now }).Pends t := fun hp => by
      have := hp.2
      rw [hc.here] at this
      simp [hdormant] at this
    have hlive' : (s.setRec t { s.recs t with when := now }).live t = true := hlive
    have hc' := hc.trans (changed_heapPush hc.heapOk hc.listsOk hlive' hout')
    rw [hc.here] at hc'
    simp only [h.stale_reach hlive, nil_append]
    change StepOk s ((s.setRec t { s.recs t with when := now }).arm t) [.armed t]
    refine .of_changed h hlive hc' (Beside.count _ t _) ?_ ?_
      (fun u hut => armFold_armed_of_ne hut) ?_ rfl (fun b => ?_) clean_armed
    · change s.ntimers + 1 + _ + _ = s.ntimers + _ + (total owed s.acts : Int)
      simp
    · change Kept _ (s.held t) (s.refs t) (s.afterFunc t) (claims t s.acts)
      have hkind := hk.after hafter
      have hcounts := hk.counts
      refine ⟨?_, .inl (hk.refs_pos hown.1), fun hor => ?_, fun e => ?_, fun hor => ?_, fun _ => hkind, fun _ => ?_,
        nofun, fun e => ?_, fun ha => ?_, fun hpos => ?_, hk.pinned, fun _ => hkind, fun hpos => ?_,
        fun hne => absurd hkind hne⟩
      · simpa [hkind] using hcounts
      · rcases hor with e | e <;> simp [hkind] at e
      · simp [hkind] at e
      · rcases hor with e | e <;> simp [hkind] at e
      · exact ⟨(hk.func hkind).1, fun _ => (hk.func hkind).2 (.inr hdormant)⟩
      · simp [hkind] at e
      · rw [hafter] at ha
        cases ha
      · have := hk.ctxs hpos
        simp [hkind] at this
      · exact absurd hdormant (hk.taken hpos).2
    · simp [armFold, armStep, hdormant]
    · change doneBy b [.armed t] + total (handed b) s.acts = _
      simp [doneBy]
  · simp only [Timers.Inv.stale_one hlive]
    exact .refl h

theorem reset_ok (h : s.Inv) (hown : s.owns t) (hafter : s.afterFunc t = false) (now : Int) {ns : Int}
    (hns : (s.recs t).kind = .tick → 0 < ns) (scope : Scope) :
    StepOk s (s.timerReset t now ns scope).1 (s.timerReset t now ns scope).2 := by
  have hlive := h.live_of_held hown.1
  have hk := h.keptLive hlive
  unfold Timers.timerReset
  split
  · simp only [Timers.Inv.stale_one hlive]
    exact .refl h
  · rename_i hbox
    simp only [h.stale_reach_append hlive, nil_append, take_snd]
    -- out of the heap, out of the list, then into another list and the heap
    have hc := changed_take h.heapOk h.listsOk hlive
    have hlive₁ : (s.take t).1.live t = true := by rw [hc.same.live, hlive]
    have hc₁ := hc.trans (changed_unlist hc.heapOk hc.listsOk hlive₁)
    rw [hc.here] at hc₁
    have hlive₂ : ((s.take t).1.unlist t).live t = true := by rw [hc₁.same.live, hlive]
    have hout₂ : ¬ ((s.take t).1.unlist t).Pends t := fun hp => by
      have := hp.2
      rw [hc₁.here] at this
      exact (s.recs t).taken_state.1 this
    set s₂ := (s.take t).1.unlist t with hs₂
    have hrec₂ := hc₁.here
    have hc₂ := hc₁.trans (changed_setRec (t := t) (r := { s₂.recs t with
      when := deadline now ns, period := if (s₂.recs t).kind = .tick then ns else (s₂.recs t).period })
      hc₁.heapOk hc₁.listsOk hout₂ (by rw [hrec₂]; exact (s.recs t).taken_state.1) rfl)
    set s₃ := s₂.setRec t { s₂.recs t with
      when := deadline now ns, period := if (s₂.recs t).kind = .tick then ns else (s₂.recs t).period } with hs₃
    have hlive₃ : s₃.live t = true := hlive₂
    have hc₃ := hc₂.trans (changed_list hc₂.heapOk hc₂.listsOk hlive₃ scope (by
      rw [hc₂.here, hrec₂]))
    have hout₃ : ¬ (s₃.list t scope).Pends t := fun hp => by
      have := hp.2
      rw [hc₃.here, hc₂.here, hrec₂] at this
      exact (s.recs t).taken_state.1 this
    have hc₄ := hc₃.trans (changed_heapPush hc₃.heapOk hc₃.listsOk hlive₃ hout₃)
    rw [hc₃.here, hc₂.here, hrec₂] at hc₄
    refine .of_changed h hlive hc₄ (Beside.count _ t _) ?_ ?_ (fun u hut armed => ?_) ?_ ?_ (fun b => ?_) ?_
    · have hacts : ((s₃.list t scope).heapPush t).acts = s.acts := hc₄.same.acts
      have hntimers : ((s₃.list t scope).heapPush t).ntimers = s.ntimers := hc₄.same.ntimers
      change (if (s.recs t).waits ≠ 2 then _ else _) + _ + _ = _ + _ +
        (total owed ((s₃.list t scope).heapPush t).acts : Int)
      rw [hacts, hntimers]
      by_cases hpends : (s.recs t).state = .pending
      · simp [hpends, Timers.Pends, hlive, (Timer.waits_eq_two _).2 hpends]
      · have hne : (s.recs t).waits ≠ 2 := fun e => hpends ((Timer.waits_eq_two _).1 e)
        simp [hpends, Timers.Pends, hne]
    · have hacts : ((s₃.list t scope).heapPush t).acts = s.acts := hc₄.same.acts
      change Kept _ (((s₃.list t scope).heapPush t).held t) (((s₃.list t scope).heapPush t).refs t)
        (((s₃.list t scope).heapPush t).afterFunc t) (claims t ((s₃.list t scope).heapPush t).acts)
      rw [hacts, hc₄.same.held, hc₄.same.refs, hc₄.same.afterFunc]
      have hcounts := hk.counts
      have hctx : (s.recs t).kind ≠ .ctx := fun hkind => by
        have := hk.inner hkind
        rw [hown.2] at this
        cases this
      refine ⟨?_, .inl (hk.refs_pos hown.1), fun hor => ?_, fun e => ?_, fun hor e => ?_, fun e => ?_, fun e => ?_,
        (by intro h; cases h), fun e => ?_, fun ha e => ?_, fun hpos => ?_, hk.pinned, fun ha => ?_, fun hpos => ?_,
        fun _ hne => absurd rfl hne⟩
      · simpa [hctx] using hcounts
      · have := (hk.frame (by simpa using hor)).1
        rw [hown.2] at this
        cases this
      · exact absurd (by simpa using e) hctx
      · have : (s.recs t).handle = false := by simpa using e
        rw [hown.2] at this
        cases this
      · simpa using hk.boxed (by simpa using e)
      · have hkind : (s.recs t).kind = .func := by simpa using e
        refine ⟨by simpa using hown.2, fun _ => ?_⟩
        have : (s.recs t).box ≠ none := fun hnone => hbox ⟨hkind, hnone⟩
        simpa using this
      · have hkind : (s.recs t).kind = .tick := by simpa using e
        simpa [hkind] using hns hkind
      · exact hk.single ha hctx
      · exact absurd (hk.ctxs hpos) hctx
      · rw [hafter] at ha
        cases ha
      · have := hk.pinned (Nat.lt_of_lt_of_le hpos (Nat.le_add_left _ _))
        rw [hafter] at this
        cases this
    · rw [armFold_append, armFold_took_of_ne hut]
      exact armFold_armed_of_ne hut armed
    · rw [armFold_append, armFold_took]
      have hout := (s.recs t).taken_state.1
      simp [armFold, armStep, hout]
    · simp
    · have hacts : ((s₃.list t scope).heapPush t).acts = s.acts := hc₄.same.acts
      change _ + total (handed b) ((s₃.list t scope).heapPush t).acts = _
      rw [hacts, doneBy_append]
      simp [doneBy]
    · intro e he
      rcases mem_append.1 he with he | he
      · exact clean_took _ e he
      · exact clean_armed e he

end Arming

section Given

variable {s s' : Timers} {t : Record}

/-- `s'` is `s` with a record given out at `t`. -/
structure Given (s s' : Timers) (t : Record) (r : Timer) (held refs : Nat) (after : Bool) : Prop where
  recs : s'.recs = update s.recs t r
  live : s'.live = update s.live t true
  held : s'.held = update s.held t held
  refs : s'.refs = update s.refs t refs
  afterFunc : s'.afterFunc = update s.afterFunc t after
  acts : s'.acts = s.acts

/-- The new record is in the heap, or it is dormant. -/
inductive Armed (s s' : Timers) (t : Record) (r : Timer) : List Event → Prop
  | heap (hstate : r.state = .pending) (hheap : s'.heap = s.heap.push s'.when t)
      (hntimers : s'.ntimers = s.ntimers + 1) : Armed s s' t r [.armed t]
  | dormant (hstate : r.state ≠ .pending) (hheap : s'.heap = s.heap) (hntimers : s'.ntimers = s.ntimers) :
      Armed s s' t r []

/-- The new record is in a list, or in none. -/
inductive Listed (s s' : Timers) (t : Record) (r : Timer) : Prop
  | scope {scope : Scope} (hscope : r.scope = some scope)
      (hlists : s'.lists = update s.lists scope (t :: s.lists scope)) : Listed s s' t r
  | none (hscope : r.scope = none) (hlists : s'.lists = s.lists) : Listed s s' t r

/-- The new record comes with a function, which was not handed over before, or with none. -/
inductive Boxed (s s' : Timers) (r : Timer) : Prop
  | some {b : Box} (hbox : r.box = some b) (hnew : s.made b = false)
      (hmade : s'.made = update s.made b true) : Boxed s s' r
  | none (hbox : r.box = none) (hmade : s'.made = s.made) : Boxed s s' r

section Pieces

variable {r : Timer} {held refs : Nat} {after : Bool} {es : List Event}

section

variable (hg : Given s s' t r held refs after)

include hg

theorem Given.pends_of_ne {u : Record} (hut : u ≠ t) : s'.Pends u ↔ s.Pends u := by
  simp [Timers.Pends, hg.recs, hg.live, update_of_ne hut]

theorem Given.pends : s'.Pends t ↔ r.state = .pending := by
  simp [Timers.Pends, hg.recs, hg.live]

theorem Given.when_of_ne {u : Record} (hut : u ≠ t) : s'.when u = s.when u := by
  simp [Timers.when, hg.recs, update_of_ne hut]

theorem Given.heapOk (h : s.Inv) (hdead : s.live t = false) (ha : Armed s s' t r es) :
    s'.HeapOk ∧ s'.ntimers = s'.heap.count + total owed s'.acts := by
  have hout : ¬ s.Pends t := fun hp => by
    rw [hp.1] at hdead
    cases hdead
  have hcounted := h.counted
  rw [hg.acts]
  cases ha with
  | heap hstate hheap hntimers =>
    obtain ⟨hok, hcount⟩ := h.heapOk.push hheap hout (hg.pends.2 hstate) (fun u hut => hg.when_of_ne hut)
      fun u hut => hg.pends_of_ne hut
    refine ⟨hok, ?_⟩
    rw [hntimers, hcounted, hcount]
    omega
  | dormant hstate hheap hntimers =>
    refine ⟨h.heapOk.congr hheap (fun u hu => hg.when_of_ne fun e => hout (e ▸ hu)) fun u => ?_, ?_⟩
    · by_cases hut : u = t
      · subst hut
        exact iff_of_false (fun hp => hstate (hg.pends.1 hp)) hout
      · exact hg.pends_of_ne hut
    · rw [hntimers, hheap, hcounted]

theorem Given.listsOk (h : s.Inv) (hdead : s.live t = false) (hl : Listed s s' t r) : s'.ListsOk := by
  have hout : ∀ sc, ¬ s.InScope t sc := fun sc hin => by
    rw [hin.1] at hdead
    cases hdead
  have hothers : ∀ u ≠ t, ∀ sc, s'.InScope u sc ↔ s.InScope u sc := by
    intro u hut sc
    simp [Timers.InScope, hg.recs, hg.live, update_of_ne hut]
  cases hl with
  | @scope scope hscope hlists =>
    refine h.listsOk.cons hlists hout (fun sc => ?_) hothers
    simp [Timers.InScope, hg.recs, hg.live, hscope, eq_comm]
  | none hscope hlists =>
    refine h.listsOk.congr hlists fun u sc => ?_
    by_cases hut : u = t
    · subst hut
      refine iff_of_false (fun hin => ?_) (hout sc)
      have := hin.2
      simp [hg.recs, hscope] at this
    · exact hothers u hut sc

theorem Given.boxesOk (hdead : s.live t = false) (hb : Boxed s s' r) {done : Box → Nat}
    (hok : s.BoxesOk done) : s'.BoxesOk done := by
  have hout : ∀ b, ¬ s.Holds t b := fun b hh => by
    rw [hh.1] at hdead
    cases hdead
  have hothers : ∀ u ≠ t, ∀ b, s'.Holds u b ↔ s.Holds u b := by
    intro u hut b
    simp [Timers.Holds, hg.recs, hg.live, update_of_ne hut]
  have hhere : ∀ b, s'.Holds t b ↔ r.box = some b := by
    intro b
    simp [Timers.Holds, hg.recs, hg.live]
  have hback : ∀ {u b}, s'.Holds u b → r.box ≠ some b → s.Holds u b := by
    intro u b hu hne
    have hut : u ≠ t := fun e => hne ((hhere b).1 (e ▸ hu))
    exact (hothers u hut b).1 hu
  have hforth : ∀ {u b}, s.Holds u b → s'.Holds u b := by
    intro u b hu
    have hut : u ≠ t := fun e => hout b (e ▸ hu)
    exact (hothers u hut b).2 hu
  cases hb with
  | none hbox hmade =>
    have hne : ∀ b, r.box ≠ some b := by simp [hbox]
    constructor
    · exact fun ht hu => hok.one (hback ht (hne _)) (hback hu (hne _))
    · intro b u hu
      rw [hmade, hg.acts]
      exact hok.held (hback hu (hne b))
    · intro b hb hnone
      rw [hg.acts]
      exact hok.gone (hmade ▸ hb) fun u hu => hnone u (hforth hu)
    · intro b hb
      rw [hg.acts]
      exact hok.unmade (hmade ▸ hb)
  | @some b' hbox hnew hmade =>
    have hfresh : ∀ u, ¬ s.Holds u b' := fun u hu => by
      rw [(hok.held hu).1] at hnew
      cases hnew
    have honly : ∀ {u}, s'.Holds u b' → u = t := by
      intro u hu
      by_contra hut
      exact hfresh u ((hothers u hut b').1 hu)
    constructor
    · intro b u v hu hv
      by_cases hbb : b = b'
      · subst hbb
        rw [honly hu, honly hv]
      · have hne : r.box ≠ .some b := fun e => hbb (Option.some.inj (e.symm.trans hbox))
        exact hok.one (hback hu hne) (hback hv hne)
    · intro b u hu
      rw [hg.acts]
      by_cases hbb : b = b'
      · subst hbb
        exact ⟨by rw [hmade, update_self], hok.unmade hnew⟩
      · have hne : r.box ≠ .some b := fun e => hbb (Option.some.inj (e.symm.trans hbox))
        rw [hmade, update_of_ne hbb]
        exact hok.held (hback hu hne)
    · intro b hb hnone
      rw [hg.acts]
      by_cases hbb : b = b'
      · subst hbb
        exact absurd ((hhere b).2 hbox) (hnone t)
      · rw [hmade, update_of_ne hbb] at hb
        exact hok.gone hb fun u hu => hnone u (hforth hu)
    · intro b hb
      rw [hg.acts]
      by_cases hbb : b = b'
      · subst hbb
        exact hok.unmade hnew
      · rw [hmade, update_of_ne hbb] at hb
        exact hok.unmade hb

end

theorem StepOk.of_given (h : s.Inv) (hdead : s.live t = false) (hg : Given s s' t r held refs after)
    (ha : Armed s s' t r es) (hl : Listed s s' t r) (hb : Boxed s s' r)
    (hkept : Kept r held refs after ⟨0, 0, 0, 0, 0⟩) : StepOk s s' es := by
  obtain ⟨hheap, hcounted⟩ := hg.heapOk h hdead ha
  have hout : ¬ s.Pends t := fun hp => by
    rw [hp.1] at hdead
    cases hdead
  have hzero : claims t s.acts = ⟨0, 0, 0, 0, 0⟩ := by
    obtain ⟨-, hctx, hpin, htake, hfree, htimer⟩ := h.unused hdead
    simp only [claims] at hctx hpin htake hfree htimer ⊢
    rw [hctx, hpin, htake, hfree, htimer]
  refine ⟨h.of_others (t := t) ⟨?_, ?_, ?_, ?_, ?_, ?_⟩ hheap (hg.listsOk h hdead hl) hcounted ?_, fun u => ?_, ?_, ?_⟩
  · intro u hut
    rw [hg.recs, update_of_ne hut]
  · intro u hut
    rw [hg.live, update_of_ne hut]
  · intro u hut
    rw [hg.held, update_of_ne hut]
  · intro u hut
    rw [hg.refs, update_of_ne hut]
  · intro u hut
    rw [hg.afterFunc, update_of_ne hut]
  · intro u _
    rw [hg.acts]
  · rw [Timers.KeptAt, hg.live, hg.recs, hg.held, hg.refs, hg.afterFunc, hg.acts, hzero]
    simpa using hkept
  · by_cases hut : u = t
    · subst hut
      rw [decide_eq_false hout]
      cases ha with
      | heap hstate => simp [armFold, armStep, hg.pends.2 hstate]
      | dormant hstate =>
        have : ¬ s'.Pends u := fun hp => hstate (hg.pends.1 hp)
        simp [armFold, this]
    · simp only [hg.pends_of_ne hut]
      cases ha with
      | heap => exact armFold_armed_of_ne hut _
      | dormant => rfl
  · intro done hok
    have hdone : (fun b => done b + doneBy b es) = done := by
      cases ha <;> simp [doneBy]
    rw [hdone]
    exact hg.boxesOk hdead hb hok
  · cases ha with
    | heap => exact clean_armed
    | dormant => exact fun _ he => absurd he not_mem_nil

end Pieces

theorem stale_heap_nil (h : s.Inv) : s.stale s.heapRecords = [] := stale_nil h.live_heap

theorem stale_heap_list_nil (h : s.Inv) (scope : Scope) : s.stale (s.heapRecords ++ s.lists scope) = [] :=
  stale_nil fun u hu => (mem_append.1 hu).elim (h.live_heap u) (h.live_list scope u)

theorem frame_ok (h : s.Inv) (hdead : s.live t = false) {r : Timer} (hkind : r.kind = .wake ∨ r.kind = .net)
    (hhandle : r.handle = false) (hbox : r.box = none) (hscope : r.scope = none) :
    StepOk s ((s.alloc t r 1 1).arm t) (s.stale s.heapRecords ++ [.armed t]) := by
  rw [stale_heap_nil h, nil_append]
  have hg : Given s ((s.alloc t r 1 1).arm t) t { r with state := .pending } 1 1 false :=
    ⟨by simp [Timers.arm, Timers.heapPush, Timers.alloc, Timers.setRec], rfl, rfl, rfl, rfl, rfl⟩
  refine .of_given h hdead hg (.heap rfl rfl rfl) (.none hscope rfl) (.none hbox rfl) ?_
  refine ⟨?_, .inl (by simp), fun _ => ⟨hhandle, hscope⟩, fun _ => hhandle, fun hor => ?_, fun hne => ?_, fun e => ?_,
    (by intro h; cases h), fun e => ?_, fun _ _ => Nat.le_refl _, (by intro h; cases h), (by intro h; cases h),
    (by intro h; cases h), (by intro h; cases h), fun _ _ => hscope⟩
  · rcases hkind with e | e <;> simp [e]
  · rcases hkind with e | e <;> simp [e] at hor
  · exact absurd hbox hne
  · rcases hkind with e' | e' <;> simp [e'] at e
  · rcases hkind with e' | e' <;> simp [e'] at e

theorem timerNew_ok (h : s.Inv) (hdead : s.live t = false) {c : Chan} {now ns period : Int} {kind : TimerKind}
    {handle : Bool} {box : Option Box} {scope : Scope} (hnew : s.newOk kind period handle box = true) :
    StepOk s (s.timerNew t c now ns period kind handle box scope)
      (s.stale (s.heapRecords ++ s.lists scope) ++ [.armed t]) := by
  rw [stale_heap_list_nil h, nil_append]
  have hg : Given s (s.timerNew t c now ns period kind handle box scope) t
      { when := deadline now ns, period := period, kind := kind, state := .pending, handle := handle, chan := c
        box := box, scope := some scope } (if handle then 1 else 0) (if handle then 1 else 0) false :=
    ⟨by simp [Timers.timerNew, Timers.timerArm, Timers.list, Timers.arm, Timers.heapPush, Timers.alloc,
      Timers.setRec], rfl, rfl, rfl, rfl, rfl⟩
  refine .of_given h hdead hg (.heap rfl rfl rfl) (.scope rfl rfl) ?_ ?_
  · cases box with
    | none => exact .none rfl rfl
    | some b =>
      refine .some rfl ?_ rfl
      cases kind <;> simp [Timers.newOk] at hnew
      exact hnew.2
  · cases kind <;> cases box <;> cases handle <;> simp [Timers.newOk] at hnew <;>
      refine ⟨?_, ?_, ?_, ?_, ?_, ?_, ?_, ?_, ?_, ?_, ?_, ?_, ?_, ?_, ?_⟩ <;> simp [hnew]

theorem ctxNew_ok (h : s.Inv) (hdead : s.live t = false) (when : Int) (scope : Scope) :
    StepOk s (s.ctxNew t when scope) (s.stale (s.heapRecords ++ s.lists scope) ++ [.armed t]) := by
  rw [stale_heap_list_nil h, nil_append]
  have hg : Given s (s.ctxNew t when scope) t
      { when := when, period := 0, kind := .ctx, state := .pending, handle := false, chan := 0
        box := none, scope := some scope } 1 2 false :=
    ⟨by simp [Timers.ctxNew, Timers.timerArm, Timers.list, Timers.arm, Timers.heapPush, Timers.alloc,
      Timers.setRec], rfl, rfl, rfl, rfl, rfl⟩
  refine .of_given h hdead hg (.heap rfl rfl rfl) (.scope rfl rfl) (.none rfl rfl) ?_
  refine ⟨?_, ?_, ?_, ?_, ?_, ?_, ?_, ?_, ?_, ?_, ?_, ?_, ?_, ?_, ?_⟩ <;> simp

theorem ctxAfter_ok (h : s.Inv) (hdead : s.live t = false) (c : Chan) (now : Int) {box : Box} (scope : Scope)
    (hnew : s.made box = false) : StepOk s (s.ctxAfter t c now box scope) (s.stale (s.lists scope)) := by
  rw [stale_nil (h.live_list scope)]
  have hg : Given s (s.ctxAfter t c now box scope) t
      { when := deadline now int64Max, period := 0, kind := .func, state := .dormant, handle := true, chan := c
        box := some box, scope := some scope } 1 1 true :=
    ⟨by simp [Timers.ctxAfter, Timers.timerArm, Timers.list, Timers.alloc, Timers.setRec], rfl, rfl, rfl,
      by simp [Timers.ctxAfter, Timers.timerArm, Timers.list, Timers.alloc, Timers.setRec], rfl⟩
  refine .of_given h hdead hg (.dormant (by intro h; cases h) rfl rfl) (.scope rfl rfl) (.some rfl hnew rfl) ?_
  refine ⟨?_, ?_, ?_, ?_, ?_, ?_, ?_, ?_, ?_, ?_, ?_, ?_, ?_, ?_, ?_⟩ <;> simp

end Given

end Tsuzuri.Clock
