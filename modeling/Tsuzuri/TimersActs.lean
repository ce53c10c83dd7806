import Tsuzuri.TimersRecords

/-!
# What threads do between the sections, and the end of a boundary

The acts that a section left, each a step, report timers gone, run and drop functions, and free records that nothing
else leads to.
-/

namespace Tsuzuri.Clock

open IndexedHeap List Nat
open Function (update update_of_ne update_self)

variable {es : List Event} {r : Timer}

section Idle

variable {s s' s₁ : Timers} {t : Record}

theorem StepOk.of_idle (h : s.Inv) (hrecs : s'.recs = s.recs) (hlive : s'.live = s.live)
    (hheap : s'.heap = s.heap) (hlists : s'.lists = s.lists) (hmade : s'.made = s.made)
    (hheld : s'.held = s.held) (hrefs : s'.refs = s.refs) (hafter : s'.afterFunc = s.afterFunc)
    (hclaims : ∀ u, claims u s'.acts = claims u s.acts)
    (hcount : s'.ntimers + total owed s.acts = s.ntimers + total owed s'.acts)
    (hhanded : ∀ b, doneBy b es + total (handed b) s'.acts = total (handed b) s.acts)
    (htrace : ∀ u armed, armFold u armed es = some armed) (hclean : ∀ e ∈ es, e.Clean) : StepOk s s' es := by
  have hpends : ∀ u, s'.Pends u ↔ s.Pends u := fun u => by rw [Timers.Pends, Timers.Pends, hrecs, hlive]
  refine ⟨⟨h.heapOk.congr hheap (fun u _ => ?_) hpends, h.listsOk.congr hlists fun u sc => ?_, ?_, fun u => ?_⟩,
    fun u => ?_, fun _ hok => hok.congr (fun u b => ?_) hmade hhanded, hclean⟩
  · rw [Timers.when, Timers.when, hrecs]
  · rw [Timers.InScope, Timers.InScope, hrecs, hlive]
  · have := h.counted
    rw [hheap]
    omega
  · have hk := h.kept u
    unfold Timers.KeptAt at hk ⊢
    rwa [hrecs, hlive, hheld, hrefs, hafter, hclaims]
  · rw [htrace]
    simp only [hpends]
  · rw [Timers.Holds, Timers.Holds, hrecs, hlive]

theorem StepOk.of_dealloc (h : s.Inv) (hlive : s.live t = true) {n m : Nat} (hc : s.Changed s₁ t r n m)
    (hb : Beside (s₁.dealloc t) s' t) (hcount : s'.ntimers + m + total owed s.acts = s.ntimers + n + total owed s'.acts)
    (hunused : Unused (s'.held t) (claims t s'.acts)) (hstate : r.state ≠ .pending)
    (hscope : r.scope = none) (hbox : (s.recs t).box = none)
    (hothers : ∀ u ≠ t, ∀ armed, armFold u armed es = some armed)
    (hhere : armFold t (decide ((s.recs t).state = .pending)) es = some false)
    (hhanded : ∀ b, doneBy b es + total (handed b) s'.acts = total (handed b) s.acts)
    (hclean : ∀ e ∈ es, e.Clean) : StepOk s s' es := by
  have hlive' : s'.live = update s.live t false := by
    rw [hb.live, ← hc.same.live]
    rfl
  have hdead : s'.live t = false := by rw [hlive', update_self]
  have hrecs : s'.recs = update s.recs t r := hb.recs.trans hc.recs
  have hpends : ∀ u ≠ t, (s'.Pends u ↔ s.Pends u) := fun u hut => by
    simp [Timers.Pends, hlive', hrecs, update_of_ne hut]
  have hout : ¬ s'.Pends t := fun hp => by
    rw [hp.1] at hdead
    cases hdead
  refine ⟨h.of_others (t := t) ⟨?_, ?_, ?_, ?_, ?_, ?_⟩ ?_ ?_ ?_ ?_, fun u => ?_, fun _ hok => ?_, hclean⟩
  · intro u hut
    rw [hrecs, update_of_ne hut]
  · intro u hut
    rw [hlive', update_of_ne hut]
  · exact fun u hut => (hb.held u hut).trans (congrFun hc.same.held u)
  · exact fun u hut => (hb.refs u hut).trans (congrFun hc.same.refs u)
  · exact fun u hut => (hb.afterFunc u hut).trans (congrFun hc.same.afterFunc u)
  · intro u hut
    rw [hb.acts u hut, ← hc.same.acts]
    rfl
  · refine hc.heapOk.congr hb.heap (fun u _ => ?_) fun u => ?_
    · rw [Timers.when, Timers.when, hrecs, hc.recs]
    · by_cases hut : u = t
      · subst hut
        refine iff_of_false hout fun hp => hstate ?_
        rw [← hp.2, hc.here]
      · rw [hpends u hut, Timers.Pends, Timers.Pends, hc.recs, hc.same.live, update_of_ne hut]
  · refine hc.listsOk.congr hb.lists fun u sc => ?_
    by_cases hut : u = t
    · subst hut
      refine iff_of_false (fun hin => ?_) fun hin => ?_
      · rw [hin.1] at hdead
        cases hdead
      · have := hin.2
        rw [hc.here, hscope] at this
        cases this
    · simp [Timers.InScope, hlive', hrecs, hc.recs, hc.same.live, update_of_ne hut]
  · have hheap : s'.heap = s₁.heap := hb.heap
    have hcounted := h.counted
    have hchanged := hc.count
    rw [hheap]
    omega
  · rw [Timers.KeptAt, if_neg (by simp [hdead])]
    exact hunused
  · by_cases hut : u = t
    · subst hut
      have hbefore : s.Pends u ↔ (s.recs u).state = .pending := by simp [Timers.Pends, hlive]
      rw [decide_eq_false hout]
      simp only [hbefore]
      exact hhere
    · rw [hothers u hut]
      simp only [hpends u hut]
  · refine hok.congr (fun u b => ?_) (hb.made.trans hc.same.made) hhanded
    by_cases hut : u = t
    · subst hut
      refine iff_of_false (fun hh => ?_) fun hh => ?_
      · rw [hh.1] at hdead
        cases hdead
      · have := hh.2
        rw [hbox] at this
        cases this
    · simp [Timers.Holds, hlive', hrecs, update_of_ne hut]

theorem leave_ok (h : s.Inv) (hheld : 0 < s.held t) (hkind : (s.recs t).kind = .wake)
    (hfired : (s.recs t).state = .fired) : StepOk s ((s.give t).dealloc t) (s.stale [t]) := by
  have hlive := h.live_of_held hheld
  have hk := h.keptLive hlive
  rw [Timers.Inv.stale_one hlive]
  have hafter : s.afterFunc t = false := by
    by_contra hne
    have := hk.after (by simpa using hne)
    rw [hkind] at this
    cases this
  have hbox : (s.recs t).box = none := by
    by_contra hbox
    have := hk.boxed hbox
    rw [hkind] at this
    cases this
  have hsingle := hk.single hafter (by simp [hkind])
  obtain ⟨hpos, hfree, htimer⟩ := hk.refs_pos hheld
  have hcounts := hk.counts
  simp only [hkind, reduceCtorEq, false_and, if_false, add_zero] at hcounts
  have hunused : Unused (update s.held t (s.held t - 1) t) (claims t s.acts) := by
    refine ⟨?_, by omega, by omega, by omega, hfree, htimer⟩
    rw [update_self]
    omega
  exact .of_dealloc h hlive (changed_refl h t) ((Beside.refl (s.dealloc t) t).give) rfl hunused
    (by simp [hfired]) (hk.frame (.inl hkind)).2 hbox (fun _ _ _ => rfl) (by simp [armFold, hfired])
    (fun _ => zero_add _) fun _ he => absurd he not_mem_nil

end Idle

section Performing

variable {s s' : Timers} {t : Record}

/-- The acts to be done after one was done: those it leaves are in its place. -/
structure Done (s s' : Timers) (a : Act) (next : List Act) : Prop where
  within : ∀ f, f a ≤ total f s.acts
  acts : ∀ f, total f s'.acts + f a = total f s.acts + total f next

/-- `s'` is `s` but for the acts, and the channels. -/
structure Alike (s s' : Timers) : Prop where
  recs : s'.recs = s.recs
  live : s'.live = s.live
  heap : s'.heap = s.heap
  lists : s'.lists = s.lists
  made : s'.made = s.made
  held : s'.held = s.held
  refs : s'.refs = s.refs
  afterFunc : s'.afterFunc = s.afterFunc

variable {a : Act} {as next : List Act}

theorem idle_act_ok (h : s.Inv) (hd : Done s s' a []) (halike : Alike s s')
    (hclaims : ∀ u, ctxTokens u a = 0 ∧ pins u a = 0 ∧ takes u a = 0 ∧ frees u a = 0 ∧ timerFrees u a = 0)
    (hcount : s'.ntimers + owed a = s.ntimers) (hhanded : ∀ b, doneBy b es = handed b a)
    (htrace : ∀ u armed, armFold u armed es = some armed) (hclean : ∀ e ∈ es, e.Clean) : StepOk s s' es := by
  refine .of_idle h halike.recs halike.live halike.heap halike.lists halike.made halike.held halike.refs
    halike.afterFunc (fun u => ?_) ?_ (fun b => ?_) htrace hclean
  · obtain ⟨hctx, hpin, htake, hfree, htimer⟩ := hclaims u
    have hctx' := hd.acts (ctxTokens u)
    have hpin' := hd.acts (pins u)
    have htake' := hd.acts (takes u)
    have hfree' := hd.acts (frees u)
    have htimer' := hd.acts (timerFrees u)
    simp only [total_nil, add_zero] at hctx' hpin' htake' hfree' htimer'
    exact claims_eq (by omega) (by omega) (by omega) (by omega) (by omega)
  · have := hd.acts owed
    simp only [total_nil, add_zero] at this
    omega
  · have := hd.acts (handed b)
    simp only [total_nil, add_zero] at this
    rw [hhanded]
    omega

/-- The acts are about no record but `t`. -/
structure Only (t : Record) (as : List Act) : Prop where
  ctx : ∀ u ≠ t, total (ctxTokens u) as = 0
  pin : ∀ u ≠ t, total (pins u) as = 0
  take : ∀ u ≠ t, total (takes u) as = 0
  free : ∀ u ≠ t, total (frees u) as = 0
  timerFree : ∀ u ≠ t, total (timerFrees u) as = 0

theorem About.only (h : About t as) : Only t as := ⟨h.ctx, h.pin, h.take, h.free, h.timerFree⟩

theorem Only.append {bs : List Act} (h : Only t as) (h' : Only t bs) : Only t (as ++ bs) :=
  ⟨fun u hut => by rw [total_append, h.ctx u hut, h'.ctx u hut],
    fun u hut => by rw [total_append, h.pin u hut, h'.pin u hut],
    fun u hut => by rw [total_append, h.take u hut, h'.take u hut],
    fun u hut => by rw [total_append, h.free u hut, h'.free u hut],
    fun u hut => by rw [total_append, h.timerFree u hut, h'.timerFree u hut]⟩

theorem only_gone (t : Record) (taken : Nat) : Only t (goneActs taken) := by
  constructor <;> intro u _ <;> simp [ctxTokens, pins, takes, frees, timerFrees]

theorem only_drop (t : Record) (box : Option Box) : Only t (dropActs box) := by
  cases box <;> constructor <;> intro u _ <;> rfl

theorem only_unref (t : Record) (c : Chan) : Only t [.unref c, .free t] := by
  constructor <;> intro u hut <;> simp [ctxTokens, pins, takes, frees, timerFrees, Ne.symm hut]

theorem claims_done (hd : Done s s' a next) {u : Record} (hnext : Only t next) (ha : Only t [a])
    (hut : u ≠ t) : claims u s'.acts = claims u s.acts := by
  have hctx := hd.acts (ctxTokens u)
  have hpin := hd.acts (pins u)
  have htake := hd.acts (takes u)
  have hfree := hd.acts (frees u)
  have htimer := hd.acts (timerFrees u)
  have hctx' := ha.ctx u hut
  have hpin' := ha.pin u hut
  have htake' := ha.take u hut
  have hfree' := ha.free u hut
  have htimer' := ha.timerFree u hut
  rw [hnext.ctx u hut] at hctx
  rw [hnext.pin u hut] at hpin
  rw [hnext.take u hut] at htake
  rw [hnext.free u hut] at hfree
  rw [hnext.timerFree u hut] at htimer
  simp only [total_cons, total_nil, add_zero] at hctx' hpin' htake' hfree' htimer'
  exact claims_eq (by omega) (by omega) (by omega) (by omega) (by omega)

theorem about_act (ha : a = .unpin t ∨ a = .expire t) : About t [a] := by
  rcases ha with rfl | rfl <;>
    refine ⟨rfl, fun _ => rfl, ?_, ?_, ?_, ?_, ?_⟩ <;> intro u hut <;>
      simp [ctxTokens, pins, takes, frees, timerFrees, Ne.symm hut]

theorem claims_here (hd : Done s s' a next) (t : Record) :
    (claims t s'.acts).ctx + ctxTokens t a = (claims t s.acts).ctx + total (ctxTokens t) next ∧
      (claims t s'.acts).pin + pins t a = (claims t s.acts).pin + total (pins t) next ∧
      (claims t s'.acts).take + takes t a = (claims t s.acts).take + total (takes t) next ∧
      (claims t s'.acts).free + frees t a = (claims t s.acts).free + total (frees t) next ∧
      (claims t s'.acts).timerFree + timerFrees t a = (claims t s.acts).timerFree + total (timerFrees t) next :=
  ⟨hd.acts _, hd.acts _, hd.acts _, hd.acts _, hd.acts _⟩

theorem free_ok (h : s.Inv) (hd : Done s s' (.free t) []) (halike : Alike (s.dealloc t) s')
    (hntimers : s'.ntimers = s.ntimers) : StepOk s s' (s.stale [t]) := by
  have hclaim : 1 ≤ (claims t s.acts).free := by simpa [claims, frees] using hd.within (frees t)
  have hlive : s.live t = true := h.live_of_claim (by omega)
  have hk := h.keptLive hlive
  rw [Timers.Inv.stale_one hlive]
  have hcounts := hk.counts
  rcases hk.owner with hown | hown | ⟨hrefs, hfree, htimer, hout, -, hscope, hbox, hctx⟩ | hown
  · omega
  · omega
  · simp only [hctx, false_and, if_false, add_zero] at hcounts
    have hleft := claims_here hd t
    simp only [ctxTokens, pins, takes, frees, timerFrees, total_nil, if_true, add_zero] at hleft
    have hheld : s'.held t = 0 := by
      rw [halike.held]
      change s.held t = 0
      omega
    have howed := hd.acts owed
    simp only [owed, total_nil, add_zero] at howed
    exact .of_dealloc h hlive (changed_refl h t) ⟨halike.recs, halike.live, halike.heap, halike.lists, halike.made,
      fun u _ => congrFun halike.held u, fun u _ => congrFun halike.refs u, fun u _ => congrFun halike.afterFunc u,
      fun u hut => claims_done hd (about_nil t).only (about_one (.inl rfl)).only hut⟩ (by rw [hntimers, howed])
      ⟨hheld, by omega, by omega, by omega, by omega, by omega⟩ hout hscope hbox
      (fun _ _ _ => rfl) (by simp [armFold, hout]) (fun b => by simpa [doneBy, handed] using hd.acts (handed b))
      fun _ he => absurd he not_mem_nil
  · omega

theorem recount_act_ok (h : s.Inv) (hlive : s.live t = true) (hd : Done s s' a next) (ha : About t [a])
    (hnext : About t next) (hrecs : s'.recs = s.recs) (hlive' : s'.live = s.live) (hheap : s'.heap = s.heap)
    (hlists : s'.lists = s.lists) (hmade : s'.made = s.made) (hheld : s'.held = s.held)
    (hafter : s'.afterFunc = s.afterFunc) (hrefs : ∀ u ≠ t, s'.refs u = s.refs u) (hntimers : s'.ntimers = s.ntimers)
    (hkept : Kept (s.recs t) (s.held t) (s'.refs t) (s.afterFunc t) (claims t s'.acts)) :
    StepOk s s' (s.stale [t]) := by
  rw [Timers.Inv.stale_one hlive]
  have howed := hd.acts owed
  have howed' := ha.owed
  simp only [total_cons, total_nil, add_zero] at howed'
  rw [howed', hnext.owed] at howed
  simp only [add_zero] at howed
  refine .of_recount h hlive ⟨hrecs, hlive', hheap, hlists, hmade, fun u _ => by rw [hheld], hrefs,
    fun u _ => by rw [hafter], fun u hut => claims_done hd hnext.only ha.only hut⟩ (by rw [hntimers, howed])
    (fun b => ?_) (by rw [hheld, hafter]; exact hkept)
  have hhanded := hd.acts (handed b)
  have hhanded' := ha.handed b
  simp only [total_cons, total_nil, add_zero] at hhanded'
  rw [hhanded', hnext.handed] at hhanded
  exact hhanded

theorem expire_ok (h : s.Inv) (hd : Done s s' (.expire t) [.ctxUnref t]) (halike : Alike s s')
    (hntimers : s'.ntimers = s.ntimers) : StepOk s s' (s.stale [t]) := by
  have hclaim : 1 ≤ (claims t s.acts).ctx := by simpa [claims, ctxTokens] using hd.within (ctxTokens t)
  have hlive : s.live t = true := h.live_of_claim (by omega)
  have hk := h.keptLive hlive
  refine recount_act_ok h hlive hd (about_act (.inr rfl)) (about_one (.inr (.inl rfl))) halike.recs halike.live
    halike.heap halike.lists halike.made halike.held halike.afterFunc (fun u _ => by rw [halike.refs]) hntimers ?_
  have hleft := claims_here hd t
  simp only [ctxTokens, pins, takes, frees, timerFrees, total_cons, total_nil, if_true, add_zero] at hleft
  have hcounts := hk.counts
  have hpos : 0 < s.refs t := by omega
  rw [halike.refs]
  have hown : (claims t s.acts).free = 0 ∧ (claims t s.acts).timerFree = 0 := by
    rcases hk.owner with hown | hown | hown | hown <;> omega
  exact hk.recount hpos (by omega) (.inl ⟨hpos, by omega, by omega⟩) hk.single (fun _ => hk.ctxs hclaim)
    (fun hpin => hk.pinned (by omega)) fun htake => hk.taken (by omega)

theorem ctxUnref_ok (h : s.Inv) (hd : Done s s' (.ctxUnref t) [])
    (hs' : Alike (s.perform (.ctxUnref t)).1 s') (hntimers : s'.ntimers = s.ntimers) : StepOk s s' (s.stale [t]) := by
  have hclaim : 1 ≤ (claims t s.acts).ctx := by simpa [claims, ctxTokens] using hd.within (ctxTokens t)
  have hlive : s.live t = true := h.live_of_claim (by omega)
  have hk := h.keptLive hlive
  have hkind := hk.ctxs hclaim
  have hcounts := hk.counts
  have hpos : 0 < s.refs t := by omega
  have hown : (claims t s.acts).free = 0 ∧ (claims t s.acts).timerFree = 0 := by
    rcases hk.owner with hown | hown | hown | hown <;> omega
  have hleft := claims_here hd t
  simp only [ctxTokens, pins, takes, frees, timerFrees, total_nil, if_true, add_zero] at hleft
  by_cases hone : s.refs t = 1
  · have hout : (s.recs t).state ≠ .pending := fun hpends => by
      simp only [hkind, hpends, and_self, if_true] at hcounts
      omega
    have hbox : (s.recs t).box = none := by
      by_contra hbox
      have := hk.boxed hbox
      rw [hkind] at this
      cases this
    have hperform : (s.perform (.ctxUnref t)).1 =
        { s with refs := update s.refs t (s.refs t - 1) }.dealloc t := if_pos hone
    rw [hperform] at hs'
    rw [Timers.Inv.stale_one hlive]
    have hheld : s'.held t = 0 := by
      rw [hs'.held]
      change s.held t = 0
      omega
    have howed := hd.acts owed
    simp only [owed, total_nil, add_zero] at howed
    exact .of_dealloc h hlive (changed_refl h t) ⟨hs'.recs, hs'.live, hs'.heap, hs'.lists, hs'.made,
      fun u _ => congrFun hs'.held u, fun u hut => (congrFun hs'.refs u).trans (update_of_ne hut _ _),
      fun u _ => congrFun hs'.afterFunc u,
      fun u hut => claims_done hd (about_nil t).only (about_one (.inr (.inl rfl))).only hut⟩ (by rw [hntimers, howed])
      ⟨hheld, by omega, by omega, by omega, by omega, by omega⟩ hout (hk.idle (by simp [hkind]) hout) hbox
      (fun _ _ _ => rfl) (by simp [armFold, hout]) (fun b => by simpa [doneBy, handed] using hd.acts (handed b))
      fun _ he => absurd he not_mem_nil
  · have hperform : (s.perform (.ctxUnref t)).1 = { s with refs := update s.refs t (s.refs t - 1) } := if_neg hone
    rw [hperform] at hs'
    refine recount_act_ok h hlive hd (about_one (.inr (.inl rfl))) (about_nil t) hs'.recs hs'.live
      hs'.heap hs'.lists hs'.made hs'.held hs'.afterFunc
      (fun u hut => (congrFun hs'.refs u).trans (update_of_ne hut _ _)) hntimers ?_
    have hrefs : s'.refs t = s.refs t - 1 := by
      rw [hs'.refs]
      exact update_self ..
    rw [hrefs]
    exact hk.recount hpos (by omega) (.inl ⟨by omega, by omega, by omega⟩) (fun _ hne => absurd hkind hne)
      (fun _ => hkind) (fun hpin => hk.pinned (by omega)) fun htake => hk.taken (by omega)

theorem unpin_ok (h : s.Inv) (hnext : next = if s.refs t = 1 then [.timerFree t] else [])
    (hd : Done s s' (.unpin t) next) (hs' : Alike { s with refs := update s.refs t (s.refs t - 1) } s')
    (hntimers : s'.ntimers = s.ntimers) :
    StepOk s s' (s.stale [t]) := by
  have hclaim : 1 ≤ (claims t s.acts).pin := by simpa [claims, pins] using hd.within (pins t)
  have hlive : s.live t = true := h.live_of_claim (by omega)
  have hk := h.keptLive hlive
  have hafter := hk.pinned (by omega)
  have hkind := hk.after hafter
  have hcounts := hk.counts
  have hpos : 0 < s.refs t := by omega
  have hown : (claims t s.acts).free = 0 ∧ (claims t s.acts).timerFree = 0 := by
    rcases hk.owner with hown | hown | hown | hown <;> omega
  have hrefs : s'.refs t = s.refs t - 1 := by
    rw [hs'.refs]
    exact update_self ..
  have habout : About t next := by
    rw [hnext]
    split
    · exact about_one (.inr (.inr (.inr rfl)))
    · exact about_nil t
  refine recount_act_ok h hlive hd (about_act (.inl rfl)) habout hs'.recs hs'.live
    hs'.heap hs'.lists hs'.made hs'.held hs'.afterFunc
    (fun u hut => (congrFun hs'.refs u).trans (update_of_ne hut _ _)) hntimers ?_
  simp only [hkind, reduceCtorEq, false_and, if_false, add_zero] at hcounts
  have hleft := claims_here hd t
  rw [hrefs]
  by_cases hone : s.refs t = 1
  · rw [hnext, if_pos hone] at hleft
    simp only [ctxTokens, pins, takes, frees, timerFrees, total_cons, total_nil, if_true, add_zero] at hleft
    refine hk.recount hpos ?_ (.inr ⟨by omega, by omega, by omega, (hk.func hkind).1⟩) (fun _ _ => by omega)
      (fun hctx => hk.ctxs (by omega)) (fun _ => hafter) fun htake => hk.taken (by omega)
    simp only [hkind, reduceCtorEq, false_and, if_false]
    omega
  · rw [hnext, if_neg hone] at hleft
    simp only [ctxTokens, pins, takes, frees, timerFrees, total_nil, if_true, add_zero] at hleft
    refine hk.recount hpos ?_ (.inl ⟨by omega, by omega, by omega⟩) (fun ha => by rw [hafter] at ha; cases ha)
      (fun hctx => hk.ctxs (by omega)) (fun _ => hafter) fun htake => hk.taken (by omega)
    simp only [hkind, reduceCtorEq, false_and, if_false]
    omega

@[simp] theorem total_dropActs (b : Box) (box : Option Box) :
    total (handed b) (dropActs box) = if box = some b then 1 else 0 := by
  cases box <;> simp [dropActs, handed]

theorem takeBox_ok (h : s.Inv) (hd : Done s s' (.takeBox t) (dropActs (s.recs t).box ++ [.unpin t]))
    (hs' : Alike (s.setRec t { s.recs t with box := none }) s') (hntimers : s'.ntimers = s.ntimers) :
    StepOk s s' (s.stale [t]) := by
  have hclaim : 1 ≤ (claims t s.acts).take := by simpa [claims, takes] using hd.within (takes t)
  have hlive : s.live t = true := h.live_of_claim (by omega)
  have hk := h.keptLive hlive
  rw [Timers.Inv.stale_one hlive]
  have hcounts := hk.counts
  have hpos : 0 < s.refs t := by omega
  have hkind := hk.after (hk.pinned (by omega))
  obtain ⟨hout, hwake⟩ := hk.taken hclaim
  have hleft := claims_here hd t
  have hdrop : ∀ f ∈ [ctxTokens t, pins t, takes t, frees t, timerFrees t], total f (dropActs (s.recs t).box) = 0 := by
    cases (s.recs t).box <;> simp [dropActs, ctxTokens, pins, takes, frees, timerFrees]
  simp only [mem_cons, not_mem_nil, or_false, forall_eq_or_imp, forall_eq] at hdrop
  obtain ⟨hctx, hpin, htake, hfree, htimer⟩ := hdrop
  simp only [total_append, hctx, hpin, htake, hfree, htimer] at hleft
  simp only [ctxTokens, pins, takes, frees, timerFrees, total_cons, total_nil, if_true, add_zero, zero_add] at hleft
  have howed := hd.acts owed
  have hzero : total owed (dropActs (s.recs t).box) = 0 := by cases (s.recs t).box <;> rfl
  simp only [total_append, hzero, owed, total_cons, total_nil, add_zero] at howed
  have habout : Only t [.unpin t] := (about_act (.inl rfl)).only
  refine .of_moved h hlive (changed_fields (r := { s.recs t with box := none }) h.heapOk h.listsOk rfl rfl rfl)
    ⟨hs'.recs, hs'.live, hs'.heap, hs'.lists, hs'.made, fun u _ => congrFun hs'.held u,
      fun u _ => congrFun hs'.refs u, fun u _ => congrFun hs'.afterFunc u,
      fun u hut => claims_done hd ((only_drop t _).append habout) (about_one (.inr (.inr (.inl rfl)))).only hut⟩
    (by rw [hntimers, howed]) ?_ (fun _ _ _ => rfl) rfl rfl (fun b => ?_) fun _ he => absurd he not_mem_nil
  · rw [hs'.held, hs'.refs, hs'.afterFunc]
    change Kept _ (s.held t) (s.refs t) (s.afterFunc t) _
    have hown : (claims t s.acts).free = 0 ∧ (claims t s.acts).timerFree = 0 := by
      rcases hk.owner with hown | hown | hown | hown <;> omega
    simp only [hkind, reduceCtorEq, false_and, if_false, add_zero] at hcounts
    refine ⟨?_, .inl ⟨hpos, by omega, by omega⟩, hk.frame, hk.inner, hk.loose, fun hne => absurd rfl hne, fun _ => ?_,
      hk.dormant, hk.tick, hk.single, fun hpos' => hk.ctxs (by omega), fun hpos' => hk.pinned (by omega), hk.after,
      fun hpos' => hk.taken (by omega), hk.idle⟩
    · simp only [hkind, reduceCtorEq, false_and, if_false]
      omega
    · exact ⟨(hk.func hkind).1, fun hor => hor.elim (fun e => absurd e hout) fun e => absurd e hwake⟩
  · have hhanded := hd.acts (handed b)
    simp only [total_append, total_dropActs, handed, total_cons, total_nil, add_zero] at hhanded
    simpa [doneBy] using hhanded

end Performing

section Clearing

variable {s s' : Timers} {t : Record}

def Timers.clear (s : Timers) (t : Record) : Timers :=
  let s' := (s.take t).1.unlist t
  s'.setRec t { s'.recs t with box := none }

theorem changed_clear (h : s.Inv) (hlive : s.live t = true) :
    s.Changed (s.clear t) t { (s.recs t).taken with scope := none, box := none } 0 (if s.Pends t then 1 else 0) ∧
      ((s.take t).1.unlist t).recs t = { (s.recs t).taken with scope := none } := by
  have hc := changed_take h.heapOk h.listsOk hlive
  have hlive₁ : (s.take t).1.live t = true := by rw [hc.same.live, hlive]
  have hc₁ := hc.trans (changed_unlist hc.heapOk hc.listsOk hlive₁)
  rw [hc.here] at hc₁
  have hc₂ := hc₁.trans (changed_fields (t := t)
    (r := { ((s.take t).1.unlist t).recs t with box := none }) hc₁.heapOk hc₁.listsOk rfl rfl rfl)
  rw [hc₁.here] at hc₂
  exact ⟨by simpa [Timers.clear, hc₁.here] using hc₂, hc₁.here⟩

theorem StepOk.of_clear (h : s.Inv) (hlive : s.live t = true) (hb : Beside (s.clear t) s' t)
    (hntimers : s'.ntimers = s.ntimers)
    (howed : total owed s'.acts = total owed s.acts + if (s.recs t).state = .pending then 1 else 0)
    (hhanded : ∀ b, total (handed b) s'.acts = total (handed b) s.acts + if (s.recs t).box = some b then 1 else 0)
    (hkept : Kept { (s.recs t).taken with scope := none, box := none } (s'.held t) (s'.refs t) (s'.afterFunc t)
      (claims t s'.acts)) : StepOk s s' (tookEvents t (s.take t).2) := by
  rw [take_snd]
  refine .of_moved h hlive (changed_clear h hlive).1 hb ?_ hkept (fun u hut => armFold_took_of_ne hut _)
    (armFold_took _) rfl (fun b => ?_) (clean_took _)
  · have hpends : (if s.Pends t then 1 else 0) = if (s.recs t).state = .pending then 1 else 0 := by
      simp [Timers.Pends, hlive]
    rw [hntimers, howed, hpends]
    omega
  · rw [doneBy_took, hhanded, zero_add]

theorem Kept.afterClear {held refs held' refs' : Nat} {after : Bool} {c c' : Claims}
    (hk : Kept r held refs after c) (hcounts : refs' = held' + c'.ctx + c'.pin + c'.take)
    (howner : (0 < refs' ∧ c'.free = 0 ∧ c'.timerFree = 0) ∨
      (refs' = 0 ∧ c'.free = 0 ∧ c'.timerFree = 1 ∧ r.handle = true) ∨
      (refs' = 0 ∧ c'.free = 1 ∧ c'.timerFree = 0 ∧ r.kind ≠ .ctx)) (hrefs : refs' ≤ refs)
    (hctx : 0 < c'.ctx → r.kind = .ctx) (hpin : 0 < c'.pin + c'.take → after = true) :
    Kept { r.taken with scope := none, box := none } held' refs' after c' :=
  hk.still r.taken_kind r.taken_handle r.taken_period r.taken_state (fun _ => rfl) (fun _ => rfl) (absurd rfl) hcounts
    (by simpa using howner) hrefs hctx hpin

theorem timerFree_ok (h : s.Inv) (hd : Done s s' (.timerFree t) (s.timerFree t).2.2)
    (hs' : Alike (s.clear t) s') (hntimers : s'.ntimers = s.ntimers) : StepOk s s' (s.timerFree t).2.1 := by
  have hclaim : 1 ≤ (claims t s.acts).timerFree := by
    simpa [claims, timerFrees] using hd.within (timerFrees t)
  have hlive : s.live t = true := h.live_of_claim (by omega)
  have hk := h.keptLive hlive
  obtain ⟨hc, hrec⟩ := changed_clear h hlive
  have hes : (s.timerFree t).2.1 = tookEvents t (s.take t).2 := by
    change s.stale (s.reach t) ++ tookEvents t (s.take t).2 = _
    rw [h.stale_reach hlive, nil_append]
  have hnext : (s.timerFree t).2.2 =
      goneActs (s.recs t).waits ++ dropActs (s.recs t).box ++ [.unref (s.recs t).chan, .free t] := by
    change goneActs (s.take t).2 ++ dropActs (((s.take t).1.unlist t).recs t).box ++
      [.unref (((s.take t).1.unlist t).recs t).chan, .free t] = _
    rw [hrec, take_snd]
    simp
  rw [hnext] at hd
  rw [hes]
  have hcounts := hk.counts
  rcases hk.owner with hown | ⟨hrefs, hfree, htimer, hhandle⟩ | hown | hown
  · omega
  · have hctx : (s.recs t).kind ≠ .ctx := fun hkind => by
      have := hk.inner hkind
      rw [hhandle] at this
      cases this
    simp only [hctx, false_and, if_false, add_zero] at hcounts
    have hleft := claims_here hd t
    have hdrop : ∀ f ∈ [ctxTokens t, pins t, takes t, frees t, timerFrees t],
        total f (goneActs (s.recs t).waits ++ dropActs (s.recs t).box) = 0 := by
      cases (s.recs t).box <;> simp [dropActs, ctxTokens, pins, takes, frees, timerFrees]
    simp only [mem_cons, not_mem_nil, or_false, forall_eq_or_imp, forall_eq] at hdrop
    obtain ⟨hctx', hpin', htake', hfree', htimer'⟩ := hdrop
    rw [total_append _ (_ ++ _), total_append _ (_ ++ _), total_append _ (_ ++ _), total_append _ (_ ++ _),
      total_append _ (_ ++ _), hctx', hpin', htake', hfree', htimer'] at hleft
    simp only [ctxTokens, pins, takes, frees, timerFrees, total_cons, total_nil, if_true, add_zero, zero_add] at hleft
    have howed := hd.acts owed
    have hzero : total owed (dropActs (s.recs t).box) = 0 := by cases (s.recs t).box <;> rfl
    simp only [total_append, hzero, owed, total_goneActs, total_cons, total_nil, add_zero, Timer.waits_eq_two] at howed
    refine .of_clear h hlive ⟨hs'.recs, hs'.live, hs'.heap, hs'.lists, hs'.made, fun u _ => congrFun hs'.held u,
      fun u _ => congrFun hs'.refs u, fun u _ => congrFun hs'.afterFunc u, fun u hut => ?_⟩ hntimers howed
      (fun b => ?_) ?_
    · rw [hc.same.acts]
      exact claims_done hd (((only_gone t _).append (only_drop t _)).append (only_unref t _))
        (about_one (.inr (.inr (.inr rfl)))).only hut
    · have hhanded := hd.acts (handed b)
      simpa [handed] using hhanded
    · rw [hs'.held, hs'.refs, hs'.afterFunc, hc.same.held, hc.same.refs, hc.same.afterFunc]
      exact hk.afterClear (by omega) (.inr (.inr ⟨hrefs, by omega, by omega, hctx⟩)) (le_refl _)
        (fun hpos => by omega) fun hpos => by omega
  · omega
  · omega

/-- What `settle` does with the reference of the context whose deadline it takes. -/
def Timer.expiredActs (r : Timer) (t : Record) : List Act :=
  if r.kind = .ctx ∧ r.waits ≠ 0 then [.ctxUnref t] else []

/-- What `settle` does with a record that nobody has a handle of. -/
def Timer.ownedActs (r : Timer) (t : Record) : List Act :=
  if r.handle = true ∨ r.kind = .ctx then [] else [.unref r.chan, .free t]

theorem only_expired (r : Timer) (t : Record) : Only t (r.expiredActs t) := by
  unfold Timer.expiredActs
  split
  · exact (about_one (.inr (.inl rfl))).only
  · exact (about_nil t).only

theorem only_owned (r : Timer) (t : Record) : Only t (r.ownedActs t) := by
  unfold Timer.ownedActs
  split
  · exact (about_nil t).only
  · exact only_unref t _

theorem total_expired {f : Act → Nat} (hf : f (.ctxUnref t) = 0) : total f (r.expiredActs t) = 0 := by
  unfold Timer.expiredActs
  split <;> simp [hf]

theorem total_owned {f : Act → Nat} (hf : f (.unref r.chan) = 0) (hf' : f (.free t) = 0) :
    total f (r.ownedActs t) = 0 := by
  unfold Timer.ownedActs
  split <;> simp [hf, hf']

/-- A record that `settle` takes from its boundary: the deadline of a context gives its reference back, a handle keeps
its stopped record, and any other record was the runtime's. -/
theorem Kept.settled {held refs : Nat} {after : Bool} {c : Claims} (hk : Kept r held refs after c)
    (hscope : r.scope ≠ none) : Kept { r.taken with scope := none, box := none } held refs after
      { ctx := c.ctx + total (ctxTokens t) (r.expiredActs t) + total (ctxTokens t) (r.ownedActs t)
        pin := c.pin + total (pins t) (r.expiredActs t) + total (pins t) (r.ownedActs t)
        take := c.take + total (takes t) (r.expiredActs t) + total (takes t) (r.ownedActs t)
        free := c.free + total (frees t) (r.expiredActs t) + total (frees t) (r.ownedActs t)
        timerFree := c.timerFree + total (timerFrees t) (r.expiredActs t) + total (timerFrees t) (r.ownedActs t) } := by
  unfold Timer.expiredActs Timer.ownedActs
  have hcounts := hk.counts
  by_cases hctx : r.kind = .ctx
  · have hpends : r.state = .pending := by
      by_contra hne
      exact hscope (hk.idle (by simp [hctx]) hne)
    have hwaits : r.waits ≠ 0 := by
      rw [(Timer.waits_eq_two r).2 hpends]
      decide
    rw [if_pos ⟨hctx, hwaits⟩, if_pos (.inr hctx)]
    simp only [ctxTokens, pins, takes, frees, timerFrees, total_cons, total_nil, if_true, add_zero]
    simp only [hctx, hpends, and_self, if_true] at hcounts
    have hpos : 0 < refs := by omega
    have hown : c.free = 0 ∧ c.timerFree = 0 := by
      rcases hk.owner with hown | hown | hown | hown <;> omega
    exact hk.afterClear (by simp only; omega) (.inl ⟨hpos, hown.1, hown.2⟩) (le_refl _) (fun _ => hctx) hk.pinned
  rw [if_neg fun hand => hctx hand.1]
  simp only [hctx, false_and, if_false, add_zero] at hcounts
  by_cases hhandle : r.handle = true
  · rw [if_pos (.inl hhandle)]
    simp only [total_nil, add_zero]
    refine hk.afterClear hcounts ?_ (le_refl _) hk.ctxs hk.pinned
    rcases hk.owner with hown | hown | ⟨-, -, -, -, -, hnone, -, -⟩ | ⟨-, -, -, hno, -, -⟩
    · exact .inl hown
    · exact .inr (.inl hown)
    · exact absurd hnone hscope
    · rw [hhandle] at hno
      cases hno
  · rw [if_neg fun hor => hor.elim hhandle hctx]
    have hkind : r.kind = .send ∨ r.kind = .tick := by
      cases hkind : r.kind with
      | wake => exact absurd (hk.frame (.inl hkind)).2 hscope
      | net => exact absurd (hk.frame (.inr hkind)).2 hscope
      | ctx => exact absurd hkind hctx
      | func => exact absurd (hk.func hkind).1 hhandle
      | send => exact .inl rfl
      | tick => exact .inr rfl
    have hrefs := hk.loose hkind (by simpa using hhandle)
    have hown : c.free = 0 ∧ c.timerFree = 0 := by
      rcases hk.owner with hown | hown | ⟨-, -, -, -, -, hnone, -, -⟩ | hown
      · omega
      · exact absurd hown.2.2.2 hhandle
      · exact absurd hnone hscope
      · exact ⟨hown.2.1, hown.2.2.1⟩
    simp only [ctxTokens, pins, takes, frees, timerFrees, total_cons, total_nil, if_true, add_zero, zero_add]
    exact hk.afterClear hcounts (.inr (.inr ⟨hrefs, by simp [hown.1], hown.2, hctx⟩)) (le_refl _) hk.ctxs hk.pinned

theorem settle_ok (h : s.Inv) (scope : Scope) : StepOk s (s.settle scope).1 (s.settle scope).2 := by
  unfold Timers.settle
  split
  · exact .refl h
  rename_i t rest hlist
  obtain ⟨hlive, hscope⟩ := (h.listsOk.listed scope t).1 (by rw [hlist]; exact mem_cons_self ..)
  have hk := h.keptLive hlive
  obtain ⟨hc, hrec⟩ := changed_clear h hlive
  have hleft : goneActs (s.take t).2 ++ (if (((s.take t).1.unlist t).recs t).kind = .ctx ∧ (s.take t).2 ≠ 0 then
        [Act.ctxUnref t] else []) ++ dropActs (((s.take t).1.unlist t).recs t).box ++
        (if (((s.take t).1.unlist t).recs t).handle = true ∨ (((s.take t).1.unlist t).recs t).kind = .ctx then []
        else [Act.unref (((s.take t).1.unlist t).recs t).chan, Act.free t]) =
      goneActs (s.recs t).waits ++ (s.recs t).expiredActs t ++ dropActs (s.recs t).box ++ (s.recs t).ownedActs t := by
    rw [hrec, take_snd]
    simp [Timer.expiredActs, Timer.ownedActs]
  simp only [h.stale_reach_append hlive, nil_append]
  change StepOk s ((s.clear t).later _) _
  rw [hleft]
  have honly := (((only_gone t (s.recs t).waits).append (only_expired (s.recs t) t)).append
    (only_drop t (s.recs t).box)).append (only_owned (s.recs t) t)
  refine .of_clear h hlive (beside_later fun u hut => claims_later (honly.ctx u hut) (honly.pin u hut)
    (honly.take u hut) (honly.free u hut) (honly.timerFree u hut)) hc.same.ntimers ?_ (fun b => ?_) ?_
  · have hzero : total owed (dropActs (s.recs t).box) = 0 := by cases (s.recs t).box <;> rfl
    simp only [total_later, total_append, total_goneActs, hzero, total_expired (f := owed) rfl,
      total_owned (f := owed) rfl rfl, owed, Timer.waits_eq_two, hc.same.acts, add_zero]
  · simp [total_later, total_append, total_expired (f := handed b) rfl, total_owned (f := handed b) rfl rfl, handed,
      hc.same.acts]
  · change Kept _ ((s.clear t).held t) ((s.clear t).refs t) ((s.clear t).afterFunc t) _
    rw [hc.same.held, hc.same.refs, hc.same.afterFunc]
    have hgone : ∀ f ∈ [ctxTokens t, pins t, takes t, frees t, timerFrees t],
        total f (goneActs (s.recs t).waits) = 0 ∧ total f (dropActs (s.recs t).box) = 0 := by
      cases (s.recs t).box <;> simp [dropActs, ctxTokens, pins, takes, frees, timerFrees]
    simp only [mem_cons, not_mem_nil, or_false, forall_eq_or_imp, forall_eq] at hgone
    obtain ⟨⟨hg₁, hd₁⟩, ⟨hg₂, hd₂⟩, ⟨hg₃, hd₃⟩, ⟨hg₄, hd₄⟩, hg₅, hd₅⟩ := hgone
    simp only [claims, total_later, total_append, hc.same.acts, hg₁, hd₁, hg₂, hd₂, hg₃, hd₃, hg₄, hd₄, hg₅, hd₅,
      add_zero, zero_add]
    simpa only [claims, add_assoc] using hk.settled (t := t) (by simp [hscope])

end Clearing

end Tsuzuri.Clock
