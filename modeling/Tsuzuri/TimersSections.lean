import Tsuzuri.TimersSound

/-!
# The sections under the timers' lock

Each section of a thread keeps what `StepOk` says.
-/

namespace Tsuzuri.Clock

open IndexedHeap
open Function (update update_of_ne update_self)

/-- `s'` is `s` but for what `t` has, and for the acts about it. -/
structure Beside (s s' : Timers) (t : Record) : Prop where
  recs : s'.recs = s.recs
  live : s'.live = s.live
  heap : s'.heap = s.heap
  lists : s'.lists = s.lists
  made : s'.made = s.made
  held : ∀ u ≠ t, s'.held u = s.held u
  refs : ∀ u ≠ t, s'.refs u = s.refs u
  afterFunc : ∀ u ≠ t, s'.afterFunc u = s.afterFunc u
  acts : ∀ u ≠ t, claims u s'.acts = claims u s.acts

variable {as : List Act} {u : Record}

section Acts

variable {s s' : Timers} {t : Record}

@[simp] theorem total_later (f : Act → Nat) (s : Timers) (as : List Act) :
    total f (s.later as).acts = total f s.acts + total f as := by
  simp only [Timers.acts, Timers.later, List.flatten_cons, total_append]
  omega

theorem Timers.Same.acts (h : s.Same s') : s'.acts = s.acts := by
  rw [Timers.acts, Timers.acts, h.run, h.todo]

theorem claims_eq {bs : List Act} (hctx : total (ctxTokens u) as = total (ctxTokens u) bs)
    (hpin : total (pins u) as = total (pins u) bs) (htake : total (takes u) as = total (takes u) bs)
    (hfree : total (frees u) as = total (frees u) bs)
    (htimer : total (timerFrees u) as = total (timerFrees u) bs) : claims u as = claims u bs := by
  simp only [claims, hctx, hpin, htake, hfree, htimer]

theorem claims_later (hctx : total (ctxTokens u) as = 0) (hpin : total (pins u) as = 0)
    (htake : total (takes u) as = 0) (hfree : total (frees u) as = 0) (htimer : total (timerFrees u) as = 0) :
    claims u (s.later as).acts = claims u s.acts :=
  claims_eq (by simp [hctx]) (by simp [hpin]) (by simp [htake]) (by simp [hfree]) (by simp [htimer])

theorem beside_later (h : ∀ u ≠ t, claims u (s.later as).acts = claims u s.acts) : Beside s (s.later as) t :=
  ⟨rfl, rfl, rfl, rfl, rfl, fun _ _ => rfl, fun _ _ => rfl, fun _ _ => rfl, h⟩

end Acts

section Assembly

variable {s s₁ s' : Timers} {t : Record} {r : Timer} {n m : Nat}

theorem Timers.Inv.of_changed (h : s.Inv) (hlive : s.live t = true) (hc : s.Changed s₁ t r n m)
    (hb : Beside s₁ s' t) (hcount : s'.ntimers + m + total owed s.acts = s.ntimers + n + total owed s'.acts)
    (hkept : Kept r (s'.held t) (s'.refs t) (s'.afterFunc t) (claims t s'.acts)) : s'.Inv := by
  have hpends : ∀ u, s'.Pends u ↔ s₁.Pends u := by
    intro u
    rw [Timers.Pends, Timers.Pends, hb.recs, hb.live]
  refine h.of_others (t := t) ⟨?_, ?_, ?_, ?_, ?_, ?_⟩ (hc.heapOk.congr hb.heap ?_ hpends) ?_ ?_ ?_
  · intro u hut
    rw [hb.recs, hc.recs, update_of_ne hut]
  · intro u _
    rw [hb.live, hc.same.live]
  · intro u hut
    rw [hb.held u hut, hc.same.held]
  · intro u hut
    rw [hb.refs u hut, hc.same.refs]
  · intro u hut
    rw [hb.afterFunc u hut, hc.same.afterFunc]
  · intro u hut
    rw [hb.acts u hut, hc.same.acts]
  · intro u _
    rw [Timers.when, Timers.when, hb.recs]
  · refine hc.listsOk.congr hb.lists fun u sc => ?_
    rw [Timers.InScope, Timers.InScope, hb.recs, hb.live]
  · have hcounted := h.counted
    have hheap := hc.count
    rw [hb.heap]
    omega
  · have hlive' : s'.live t = true := by rw [hb.live, hc.same.live, hlive]
    rw [Timers.KeptAt, if_pos hlive', hb.recs, hc.here]
    exact hkept

theorem pends_of_changed (hc : s.Changed s₁ t r n m) (hb : Beside s₁ s' t) (hut : u ≠ t) : s'.Pends u ↔ s.Pends u := by
  rw [Timers.Pends, Timers.Pends, hb.recs, hb.live, hc.recs, hc.same.live, update_of_ne hut]

theorem pends_here (hlive : s.live t = true) (hc : s.Changed s₁ t r n m) (hb : Beside s₁ s' t) :
    s'.Pends t ↔ r.state = .pending := by
  rw [Timers.Pends, hb.recs, hb.live, hc.here, hc.same.live]
  simp [hlive]

theorem holds_of_changed (hc : s.Changed s₁ t r n m) (hb : Beside s₁ s' t) (hut : u ≠ t) (b : Box) :
    s'.Holds u b ↔ s.Holds u b := by
  rw [Timers.Holds, Timers.Holds, hb.recs, hb.live, hc.recs, hc.same.live, update_of_ne hut]

theorem holds_here (hc : s.Changed s₁ t r n m) (hb : Beside s₁ s' t) {b : Box} (h : s'.Holds t b) : r.box = some b := by
  have := h.2
  rwa [hb.recs, hc.here] at this

variable {es : List Event}

theorem trace_of (hc : s.Changed s₁ t r n m) (hb : Beside s₁ s' t) (hlive : s.live t = true)
    (hothers : ∀ u ≠ t, ∀ armed, armFold u armed es = some armed)
    (hhere : armFold t (decide ((s.recs t).state = .pending)) es = some (decide (r.state = .pending)))
    (u : Record) : armFold u (decide (s.Pends u)) es = some (decide (s'.Pends u)) := by
  by_cases hut : u = t
  · subst hut
    have hbefore : s.Pends u ↔ (s.recs u).state = .pending := by simp [Timers.Pends, hlive]
    simp only [hbefore, pends_here hlive hc hb]
    exact hhere
  · rw [hothers u hut]
    simp only [pends_of_changed hc hb hut]

theorem StepOk.of_changed (h : s.Inv) (hlive : s.live t = true) (hc : s.Changed s₁ t r n m)
    (hb : Beside s₁ s' t) (hcount : s'.ntimers + m + total owed s.acts = s.ntimers + n + total owed s'.acts)
    (hkept : Kept r (s'.held t) (s'.refs t) (s'.afterFunc t) (claims t s'.acts))
    (hothers : ∀ u ≠ t, ∀ armed, armFold u armed es = some armed)
    (hhere : armFold t (decide ((s.recs t).state = .pending)) es = some (decide (r.state = .pending)))
    (hbox : r.box = (s.recs t).box) (hboxes : ∀ b, doneBy b es + total (handed b) s'.acts = total (handed b) s.acts)
    (hclean : ∀ e ∈ es, e.Clean) : StepOk s s' es where
  inv := h.of_changed hlive hc hb hcount hkept
  trace := trace_of hc hb hlive hothers hhere
  boxes _ hok := hok.congr (fun u b => by
      by_cases hut : u = t
      · subst hut
        rw [Timers.Holds, Timers.Holds, hb.recs, hb.live, hc.here, hc.same.live, hbox]
      · exact holds_of_changed hc hb hut b)
    (hb.made.trans hc.same.made) hboxes
  clean := hclean

theorem StepOk.of_moved (h : s.Inv) (hlive : s.live t = true) (hc : s.Changed s₁ t r n m)
    (hb : Beside s₁ s' t) (hcount : s'.ntimers + m + total owed s.acts = s.ntimers + n + total owed s'.acts)
    (hkept : Kept r (s'.held t) (s'.refs t) (s'.afterFunc t) (claims t s'.acts))
    (hothers : ∀ u ≠ t, ∀ armed, armFold u armed es = some armed)
    (hhere : armFold t (decide ((s.recs t).state = .pending)) es = some (decide (r.state = .pending)))
    (hbox : r.box = none) (hboxes : ∀ b, doneBy b es + total (handed b) s'.acts =
      total (handed b) s.acts + if (s.recs t).box = some b then 1 else 0) (hclean : ∀ e ∈ es, e.Clean) :
    StepOk s s' es where
  inv := h.of_changed hlive hc hb hcount hkept
  trace := trace_of hc hb hlive hothers hhere
  boxes _ hok := hok.move (fun b hh => by
      have := holds_here hc hb hh
      rw [hbox] at this
      cases this)
    (fun _ hut b => holds_of_changed hc hb hut b) (hb.made.trans hc.same.made) hboxes hlive
  clean := hclean

end Assembly

section Taking

variable {s : Timers} {t : Record}

@[simp] theorem doneBy_took (b : Box) (taken : Nat) : doneBy b (tookEvents t taken) = 0 := by
  unfold tookEvents
  split <;> rfl

theorem clean_took (taken : Nat) : ∀ e ∈ tookEvents t taken, e.Clean := by
  unfold tookEvents
  split
  · intro e he
    rw [List.mem_singleton.1 he]
    trivial
  · exact fun e he => absurd he (List.not_mem_nil)

theorem armFold_took_of_ne (hut : u ≠ t) (taken : Nat) (armed : Bool) :
    armFold u armed (tookEvents t taken) = some armed := by
  unfold tookEvents
  split
  · simp [armFold, armStep, Ne.symm hut]
  · rfl

section

variable (r : Timer)

theorem Timer.taken_state : r.taken.state ≠ .pending ∧ r.taken.state ≠ .dormant := by
  unfold Timer.taken
  split
  · exact ⟨nofun, nofun⟩
  · rename_i hout
    exact ⟨fun e => hout (.inl e), fun e => hout (.inr e)⟩

theorem armFold_took :
    armFold t (decide (r.state = .pending)) (tookEvents t r.waits) = some (decide (r.taken.state = .pending)) := by
  rw [decide_eq_false r.taken_state.1]
  by_cases hpends : r.state = .pending
  · rw [(Timer.waits_eq_two r).2 hpends]
    simp [tookEvents, armFold, armStep, hpends]
  · have hne : r.waits ≠ 2 := fun e => hpends ((Timer.waits_eq_two r).1 e)
    simp [tookEvents, armFold, hpends, hne]

@[simp] theorem Timer.taken_kind : r.taken.kind = r.kind := by
  unfold Timer.taken
  split <;> rfl

@[simp] theorem Timer.taken_handle : r.taken.handle = r.handle := by
  unfold Timer.taken
  split <;> rfl

@[simp] theorem Timer.taken_box : r.taken.box = r.box := by
  unfold Timer.taken
  split <;> rfl

@[simp] theorem Timer.taken_period : r.taken.period = r.period := by
  unfold Timer.taken
  split <;> rfl

@[simp] theorem Timer.taken_chan : r.taken.chan = r.chan := by
  unfold Timer.taken
  split <;> rfl

theorem Timer.taken_scope (h : r.scope = none) : r.taken.scope = none := by
  unfold Timer.taken
  split
  · simp [h]
  · exact h

end

@[simp] theorem total_goneActs (f : Act → Nat) (taken : Nat) :
    total f (goneActs taken) = if taken = 2 then f (.gone 1) else 0 := by
  unfold goneActs
  split <;> simp

theorem Timer.taken_idle (r : Timer) (hkind : r.kind ≠ .func) (hidle : r.state ≠ .pending → r.scope = none) :
    r.taken.scope = none := by
  unfold Timer.taken
  by_cases hwaits : r.state = .pending ∨ r.state = .dormant
  · simp [hwaits, hkind]
  · rw [if_neg hwaits]
    exact hidle fun e => hwaits (.inl e)

variable {r : Timer} {held refs : Nat} {after : Bool} {c : Claims} {s' s₁ : Timers}

/-- A record that waits no longer, with no more claims than it had. -/
theorem Kept.still {r' : Timer} {held' refs' : Nat} {c' : Claims} (hk : Kept r held refs after c)
    (hkind : r'.kind = r.kind) (hhandle : r'.handle = r.handle) (hperiod : r'.period = r.period)
    (hstate : r'.state ≠ .pending ∧ r'.state ≠ .dormant) (hscope : r.scope = none → r'.scope = none)
    (hidle : r.kind ≠ .func → r'.scope = none) (hbox : r'.box ≠ none → r.box ≠ none)
    (hcounts : refs' = held' + c'.ctx + c'.pin + c'.take) (howner : (0 < refs' ∧ c'.free = 0 ∧ c'.timerFree = 0) ∨
      (refs' = 0 ∧ c'.free = 0 ∧ c'.timerFree = 1 ∧ r.handle = true) ∨
      (refs' = 0 ∧ c'.free = 1 ∧ c'.timerFree = 0 ∧ r'.scope = none ∧ r'.box = none ∧ r.kind ≠ .ctx))
    (hrefs : refs' ≤ refs) (hctx : 0 < c'.ctx → r.kind = .ctx) (hpin : 0 < c'.pin + c'.take → after = true) :
    Kept r' held' refs' after c' where
  counts := by simp [hstate.1, hcounts]
  owner := howner.imp_right (.imp (hhandle ▸ id) fun ⟨hz, hf, ht, hs, hb, hc⟩ =>
    .inl ⟨hz, hf, ht, hstate.1, hstate.2, hs, hb, hkind ▸ hc⟩)
  frame hor := ⟨hhandle ▸ (hk.frame (hkind ▸ hor)).1, hscope (hk.frame (hkind ▸ hor)).2⟩
  inner e := hhandle ▸ hk.inner (hkind ▸ e)
  loose hor e := by
    have := hk.loose (hkind ▸ hor) (hhandle ▸ e)
    omega
  boxed hne := hkind ▸ hk.boxed (hbox hne)
  func e := ⟨hhandle ▸ (hk.func (hkind ▸ e)).1, fun hor => (hor.elim hstate.1 hstate.2).elim⟩
  dormant e := absurd e hstate.2
  tick e := hperiod ▸ hk.tick (hkind ▸ e)
  single ha e := hrefs.trans (hk.single ha (hkind ▸ e))
  ctxs hpos := hkind ▸ hctx hpos
  pinned := hpin
  after ha := hkind ▸ hk.after ha
  taken _ := hstate
  idle e _ := hidle (hkind ▸ e)

theorem Kept.afterTake {held' refs' : Nat} {c' : Claims} (hk : Kept r held refs after c)
    (hcounts : refs' = held' + c'.ctx + c'.pin + c'.take) (howner : (0 < refs' ∧ c'.free = 0 ∧ c'.timerFree = 0) ∨
      (refs' = 0 ∧ c'.free = 1 ∧ c'.timerFree = 0 ∧ r.taken.scope = none ∧ r.box = none ∧ r.kind ≠ .ctx))
    (hrefs : refs' ≤ refs) (hctx : 0 < c'.ctx → r.kind = .ctx) (hpin : 0 < c'.pin + c'.take → after = true) :
    Kept r.taken held' refs' after c' :=
  hk.still r.taken_kind r.taken_handle r.taken_period r.taken_state r.taken_scope
    (fun hkind => r.taken_idle hkind (hk.idle hkind)) (by simp) hcounts
    (howner.imp_right fun hown => .inr (by simpa using hown)) hrefs hctx hpin

/-- The acts are about `t` alone, and neither report a timer gone nor run or drop a function. -/
structure About (t : Record) (as : List Act) : Prop where
  owed : total owed as = 0
  handed : ∀ b, total (handed b) as = 0
  ctx : ∀ u ≠ t, total (ctxTokens u) as = 0
  pin : ∀ u ≠ t, total (pins u) as = 0
  take : ∀ u ≠ t, total (takes u) as = 0
  free : ∀ u ≠ t, total (frees u) as = 0
  timerFree : ∀ u ≠ t, total (timerFrees u) as = 0

theorem about_nil (t : Record) : About t [] :=
  ⟨rfl, fun _ => rfl, fun _ _ => rfl, fun _ _ => rfl, fun _ _ => rfl, fun _ _ => rfl, fun _ _ => rfl⟩

theorem about_one {a : Act} (ha : a = .free t ∨ a = .ctxUnref t ∨ a = .takeBox t ∨ a = .timerFree t) : About t [a] := by
  rcases ha with rfl | rfl | rfl | rfl <;>
    refine ⟨rfl, fun _ => rfl, ?_, ?_, ?_, ?_, ?_⟩ <;> intro u hut <;>
      simp [ctxTokens, pins, takes, frees, timerFrees, Ne.symm hut]

theorem StepOk.of_take (h : s.Inv) (hlive : s.live t = true) (hb : Beside (s.take t).1 s' t)
    (hntimers : s'.ntimers = s.ntimers)
    (hacts : ∀ f, total f s'.acts = total f s.acts + (total f (goneActs (s.recs t).waits) + total f as))
    (has : About t as) (hkept : Kept (s.recs t).taken (s'.held t) (s'.refs t) (s'.afterFunc t) (claims t s'.acts)) :
    StepOk s s' (s.stale (s.reach t) ++ tookEvents t (s.take t).2) := by
  rw [h.stale_reach hlive, take_snd, List.nil_append]
  refine .of_changed h hlive (changed_take h.heapOk h.listsOk hlive) hb ?_ hkept
    (fun u hut => armFold_took_of_ne hut _) (armFold_took _) (by simp) (fun b => ?_) (clean_took _)
  · have hpends : (if s.Pends t then 1 else 0) = total owed (goneActs (s.recs t).waits) := by
      simp [owed, Timer.waits_eq_two, Timers.Pends, hlive]
    rw [hntimers, hacts, has.owed, hpends]
    omega
  · rw [hacts, has.handed]
    simp [handed]

theorem claims_take
    (hacts : ∀ f, total f s'.acts = total f s.acts + (total f (goneActs (s.recs t).waits) + total f as)) :
    claims t s'.acts =
      { ctx := (claims t s.acts).ctx + total (ctxTokens t) as
        pin := (claims t s.acts).pin + total (pins t) as
        take := (claims t s.acts).take + total (takes t) as
        free := (claims t s.acts).free + total (frees t) as
        timerFree := (claims t s.acts).timerFree + total (timerFrees t) as } := by
  simp [claims, hacts, ctxTokens, pins, takes, frees, timerFrees]

theorem beside_take (hlive : s.live t = true) (h : s.Inv) (has : About t as) :
    Beside (s.take t).1 ((s.take t).1.later (goneActs (s.take t).2 ++ as)) t ∧
      ∀ f, total f ((s.take t).1.later (goneActs (s.take t).2 ++ as)).acts =
        total f s.acts + (total f (goneActs (s.recs t).waits) + total f as) := by
  have hc := changed_take h.heapOk h.listsOk hlive
  constructor
  · refine beside_later fun u hut => claims_later ?_ ?_ ?_ ?_ ?_
    · simp [ctxTokens, has.ctx u hut]
    · simp [pins, has.pin u hut]
    · simp [takes, has.take u hut]
    · simp [frees, has.free u hut]
    · simp [timerFrees, has.timerFree u hut]
  · intro f
    rw [total_later, hc.same.acts, total_append, take_snd]

theorem stop_ok (h : s.Inv) (hown : s.owns t) : StepOk s (s.timerStop t).1 (s.timerStop t).2 := by
  have hlive := h.live_of_held hown.1
  have hk := h.keptLive hlive
  have hc := changed_take h.heapOk h.listsOk hlive
  obtain ⟨hb, hacts⟩ := beside_take hlive h (about_nil t)
  have hctx : (s.recs t).kind ≠ .ctx := fun hkind => by
    have := hk.inner hkind
    rw [hown.2] at this
    cases this
  have hs' : (s.timerStop t).1 = (s.take t).1.later (goneActs (s.take t).2 ++ []) := by
    rw [List.append_nil]
    rfl
  rw [hs']
  refine .of_take h hlive hb hc.same.ntimers hacts (about_nil t) ?_
  have hcounts := hk.counts
  simp only [hctx, false_and, if_false, Nat.add_zero] at hcounts
  change Kept _ ((s.take t).1.held t) ((s.take t).1.refs t) ((s.take t).1.afterFunc t) _
  rw [claims_take hacts, hc.same.held, hc.same.refs, hc.same.afterFunc]
  refine hk.afterTake hcounts ?_ (Nat.le_refl _) hk.ctxs hk.pinned
  have hheld := hown.1
  rcases hk.owner with hown' | hown' | hown' | hown'
  · exact .inl hown'
  all_goals omega

theorem Beside.give (hb : Beside s₁ s' t) : Beside s₁ (s'.give t) t :=
  { hb with held := fun u hut => (update_of_ne hut _ _).trans (hb.held u hut) }

theorem Beside.setRefs (hb : Beside s₁ s' t) (n : Nat) : Beside s₁ { s' with refs := update s'.refs t n } t :=
  { hb with refs := fun u hut => (update_of_ne hut _ _).trans (hb.refs u hut) }

theorem Beside.setHeld (hb : Beside s₁ s' t) (n : Nat) : Beside s₁ { s' with held := update s'.held t n } t :=
  { hb with held := fun u hut => (update_of_ne hut _ _).trans (hb.held u hut) }

theorem Beside.refl (s : Timers) (t : Record) : Beside s s t :=
  ⟨rfl, rfl, rfl, rfl, rfl, fun _ _ => rfl, fun _ _ => rfl, fun _ _ => rfl, fun _ _ => rfl⟩

theorem Beside.count (s : Timers) (t : Record) (n : Int) : Beside s { s with ntimers := n } t :=
  ⟨rfl, rfl, rfl, rfl, rfl, fun _ _ => rfl, fun _ _ => rfl, fun _ _ => rfl, fun _ _ => rfl⟩

theorem Kept.refs_pos (hk : Kept r held refs after c) (hheld : 0 < held) : 0 < refs ∧ c.free = 0 ∧ c.timerFree = 0 := by
  have hcounts := hk.counts
  rcases hk.owner with hown | hown | hown | hown
  · exact hown
  all_goals omega

theorem freeAfter_ok (h : s.Inv) (hown : s.owns t) (hafter : s.afterFunc t = true) :
    StepOk s (((s.take t).1.give t).later (goneActs (s.take t).2 ++ [.takeBox t]))
      (s.stale (s.reach t) ++ tookEvents t (s.take t).2) := by
  have hlive := h.live_of_held hown.1
  have hk := h.keptLive hlive
  have hc := changed_take h.heapOk h.listsOk hlive
  have has : About t [.takeBox t] := about_one (.inr (.inr (.inl rfl)))
  obtain ⟨hb, hacts⟩ := beside_take hlive h has
  refine .of_take h hlive hb.give hc.same.ntimers hacts has ?_
  have hcounts := hk.counts
  have hfunc := hk.after hafter
  have hheld := hown.1
  change Kept _ (update (s.take t).1.held t ((s.take t).1.held t - 1) t) ((s.take t).1.refs t)
    ((s.take t).1.afterFunc t) _
  have hclaims : claims t (((s.take t).1.give t).later (goneActs (s.take t).2 ++ [.takeBox t])).acts = _ :=
    claims_take hacts
  rw [hclaims, hc.same.held, hc.same.refs, hc.same.afterFunc, update_self]
  refine hk.afterTake ?_ (.inl (hk.refs_pos hheld)) (Nat.le_refl _) hk.ctxs fun _ => hafter
  simp only [hfunc, reduceCtorEq, false_and, if_false] at hcounts
  simp only [pins, ctxTokens, takes, total_cons, total_nil, if_true]
  omega

theorem disarm_ok (h : s.Inv) (hheld : 0 < s.held t) (hkind : (s.recs t).kind = .ctx) :
    StepOk s ((s.take t).1.later (goneActs (s.take t).2 ++ if (s.take t).2 ≠ 0 then [.ctxUnref t] else []))
      (s.stale (s.reach t) ++ tookEvents t (s.take t).2) := by
  have hlive := h.live_of_held hheld
  have hk := h.keptLive hlive
  have hc := changed_take h.heapOk h.listsOk hlive
  have has : About t (if (s.take t).2 ≠ 0 then [.ctxUnref t] else []) := by
    split
    · exact about_one (.inr (.inl rfl))
    · exact about_nil t
  obtain ⟨hb, hacts⟩ := beside_take hlive h has
  refine .of_take h hlive hb hc.same.ntimers hacts has ?_
  have hcounts := hk.counts
  change Kept _ ((s.take t).1.held t) ((s.take t).1.refs t) ((s.take t).1.afterFunc t) _
  rw [claims_take hacts, hc.same.held, hc.same.refs, hc.same.afterFunc]
  have hdormant : (s.recs t).state ≠ .dormant := fun e => by
    have := (hk.dormant e).1
    rw [hkind] at this
    cases this
  have hpin : total (pins t) (if (s.take t).2 ≠ 0 then [.ctxUnref t] else []) = 0 := by
    split <;> rfl
  have htake : total (takes t) (if (s.take t).2 ≠ 0 then [.ctxUnref t] else []) = 0 := by
    split <;> rfl
  have hfree : total (frees t) (if (s.take t).2 ≠ 0 then [.ctxUnref t] else []) = 0 := by
    split <;> rfl
  have htimer : total (timerFrees t) (if (s.take t).2 ≠ 0 then [.ctxUnref t] else []) = 0 := by
    split <;> rfl
  have hctx : total (ctxTokens t) (if (s.take t).2 ≠ 0 then [.ctxUnref t] else []) =
      if (s.recs t).state = .pending then 1 else 0 := by
    by_cases hpends : (s.recs t).state = .pending
    · have htwo : (s.take t).2 ≠ 0 := by
        rw [take_snd, (Timer.waits_eq_two _).2 hpends]
        decide
      simp [htwo, hpends, ctxTokens]
    · have hzero : (s.take t).2 = 0 := by
        rw [take_snd, Timer.waits_eq_zero]
        simp [hpends, hdormant]
      simp [hzero, hpends]
  rw [hpin, htake, hfree, htimer, hctx]
  refine hk.afterTake ?_ (.inl (hk.refs_pos hheld)) (Nat.le_refl _) (fun _ => hkind) hk.pinned
  simp only [hkind, true_and] at hcounts
  simp only [Nat.add_zero]
  omega

theorem netDone_ok (h : s.Inv) (hheld : 0 < s.held t) (hkind : (s.recs t).kind = .net) :
    StepOk s (Timers.later { (s.take t).1.give t with refs := update (s.take t).1.refs t 0 }
      (goneActs (s.take t).2 ++ [.free t])) (s.stale (s.reach t) ++ tookEvents t (s.take t).2) := by
  have hlive := h.live_of_held hheld
  have hk := h.keptLive hlive
  have hc := changed_take h.heapOk h.listsOk hlive
  have has : About t [.free t] := about_one (.inl rfl)
  obtain ⟨hb, hacts⟩ := beside_take hlive h has
  refine .of_take h hlive (hb.give.setRefs 0) hc.same.ntimers hacts has ?_
  have hcounts := hk.counts
  obtain ⟨hrefs, hfree, htimer⟩ := hk.refs_pos hheld
  have hafter : s.afterFunc t = false := by
    by_contra hne
    have := hk.after (by simpa using hne)
    rw [hkind] at this
    cases this
  have hsingle := hk.single hafter (by simp [hkind])
  have hboxed : (s.recs t).box = none := by
    by_contra hbox
    have := hk.boxed hbox
    rw [hkind] at this
    cases this
  change Kept _ (update (s.take t).1.held t ((s.take t).1.held t - 1) t)
    (update (s.take t).1.refs t 0 t) ((s.take t).1.afterFunc t) _
  have hclaims : claims t (Timers.later { (s.take t).1.give t with refs := update (s.take t).1.refs t 0 }
      (goneActs (s.take t).2 ++ [.free t])).acts = _ := claims_take hacts
  rw [hclaims, hc.same.held, hc.same.afterFunc, update_self, update_self]
  simp only [hkind, reduceCtorEq, false_and, if_false, Nat.add_zero] at hcounts
  have hnone := (hk.frame (.inr hkind)).2
  refine hk.afterTake ?_ (.inr ⟨rfl, ?_, ?_, Timer.taken_scope _ hnone, hboxed, by simp [hkind]⟩) (Nat.zero_le _) ?_ ?_
  · simp only [pins, ctxTokens, takes, total_cons, total_nil]
    omega
  · simp [frees, hfree]
  · simp [timerFrees, htimer]
  · simp only [ctxTokens, total_cons, total_nil]
    omega
  · simp only [pins, takes, total_cons, total_nil]
    omega

end Taking

end Tsuzuri.Clock
