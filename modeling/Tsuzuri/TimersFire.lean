import Tsuzuri.TimersActs

/-!
# The sections of the timer thread

A round of the loop takes the earliest timer out of the heap, fires it, and puts it back in if it is
a tick.
-/

namespace Tsuzuri.Clock

open IndexedHeap List Nat

def Timers.withRun (s : Timers) (acts : List Act) : Timers := { s with run := acts }

def Batch.close (b : Batch) : Timers := b.s.withRun b.acts

/-- The record of the first heap item. -/
abbrev Batch.top (b : Batch) : Record := b.s.heap.item 0

theorem unlist_withRun (s : Timers) (t : Record) (acts : List Act) :
    (s.withRun acts).unlist t = (s.unlist t).withRun acts := by
  have hrec : (s.withRun acts).recs t = s.recs t := rfl
  unfold Timers.unlist
  rw [hrec]
  cases (s.recs t).scope <;> rfl

theorem total_withRun (f : Act → Nat) (s : Timers) (acts : List Act) :
    total f (s.withRun acts).acts = total f acts + total f s.todo.flatten := by
  change total f (acts ++ s.todo.flatten) = _
  rw [total_append]

variable {t : Record}

theorem beside_withRun (s : Timers) {as bs : List Act} (h : ∀ u ≠ t, claims u as = claims u bs) :
    Beside (s.withRun as) (s.withRun bs) t := by
  refine ⟨rfl, rfl, rfl, rfl, rfl, fun _ _ => rfl, fun _ _ => rfl, fun _ _ => rfl, fun u hut => ?_⟩
  have hu := h u hut
  simp only [claims, Claims.mk.injEq] at hu
  simp only [claims, total_withRun, hu]

section Round

variable {b : Batch} {now : Int}
variable {r r' : Timer} {b' : Batch} {n m : Nat} {es : List Event}

theorem Kept.afterFire {held refs : Nat} {after : Bool} {c c' : Claims} (hk : Kept r held refs after c)
    (hpends : r.state = .pending) (hcounts : refs = held + c'.ctx + c'.pin + c'.take)
    (hloose : r.handle = false → r.kind ≠ .send ∧ r.kind ≠ .tick) (hstate : r'.state = .fired)
    (hscope : r'.scope = none) (hkind : r'.kind = r.kind) (hhandle : r'.handle = r.handle)
    (hperiod : r'.period = r.period) (hbox : r'.box = none) (hfree : c'.free = c.free)
    (htimer : c'.timerFree = c.timerFree) (hctx : 0 < c'.ctx → r.kind = .ctx) (hpin : c'.pin = c.pin)
    (htake : c'.take = c.take) : Kept r' held refs after c' := by
  refine hk.still hkind hhandle hperiod (by simp [hstate]) (fun _ => hscope) (fun _ => hscope) (absurd hbox) hcounts ?_
    le_rfl hctx (by rw [hpin, htake]; exact hk.pinned)
  rw [hfree, htimer]
  rcases hk.owner with hown | hown | hown | ⟨-, -, -, hno, hor, -⟩
  · exact .inl hown
  · exact .inr (.inl hown)
  · exact absurd hpends hown.2.2.2.1
  · obtain ⟨hsend, htick⟩ := hloose hno
    exact absurd hor (by simp [hsend, htick])

theorem nextTick_gt (hperiod : 0 < r.period) (hnow : now < int64Max) : now < nextTick r now := by
  unfold nextTick deadline
  simp only
  split <;> split <;> try split
  all_goals try split
  all_goals omega

theorem acts_of_due (hdue : b.due now) : b.acts = [.gone b.gone] := by
  rw [Batch.acts, hdue.2.2.1, hdue.2.2.2]

theorem top_pends (h : b.close.Inv) (hdue : b.due now) : b.close.Pends b.top :=
  (h.heapOk.pends _).1 ⟨0, hdue.1, rfl⟩

theorem top_first (h : b.close.Inv) {u : Record} (hu : b.close.Pends u) : b.s.when b.top ≤ b.s.when u := by
  obtain ⟨i, hi, rfl⟩ := (h.heapOk.pends u).2 hu
  exact h.heapOk.ordered.root i hi

structure Rest (b b' : Batch) (now : Int) : Prop where
  others : ∀ u ≠ b.top, (b'.close.Pends u ↔ b.close.Pends u) ∧ b'.s.when u = b.s.when u
  top : b'.close.Pends b.top → now < b'.s.when b.top

structure RoundOk (b b' : Batch) (now : Int) : Prop where
  fired : b'.fired = b.fired ++ [(b.top, b.s.when b.top)]
  step : ∃ es, b'.events = b.events ++ es ∧ StepOk b.close b'.close es
  rest : Rest b b' now
  count : b'.s.heap.count + (if b'.continues then 1 else 0) ≤ b.s.heap.count

section Cases

variable {s₁ : Timers} {r' : Timer}

theorem rest_of_changed (ht : t = b.top) (hc : b.close.Changed s₁ t r' n m)
    (hb : Beside s₁ b'.close t) (hlive : b.close.live t = true)
    (hwhen : r'.state = .pending → now < r'.when) : Rest b b' now := by
  subst ht
  constructor
  · intro u hut
    refine ⟨pends_of_changed hc hb hut, ?_⟩
    have hrecs : b'.s.recs = Function.update b.s.recs _ r' := hb.recs.trans hc.recs
    rw [Timers.when, hrecs, Function.update_of_ne hut]
    rfl
  · intro hp
    have hrecs : b'.s.recs = Function.update b.s.recs _ r' := hb.recs.trans hc.recs
    rw [Timers.when, hrecs, Function.update_self]
    exact hwhen ((pends_here hlive hc hb).1 hp)

end Cases

variable (h : b.close.Inv)

include h

variable (hdue : b.due now)

include hdue

theorem round_of_changed (ht : t = b.top) (hc : b.close.Changed (b'.s.withRun b.acts) t r' n m)
    (hfired : b'.fired = b.fired ++ [(b.top, b.s.when b.top)])
    (hevents : b'.events = b.events ++ es) (hothers : ∀ u ≠ t, claims u b'.acts = claims u [])
    (howed : total owed b'.acts + n = b.gone + m) (hhanded : ∀ x, doneBy x es = 0 ∧ total (handed x) b'.acts = 0)
    (hkept : ∀ c, c = claims t b.s.todo.flatten → Kept r' (b.s.held t) (b.s.refs t) (b.s.afterFunc t)
        { c with ctx := c.ctx + total (ctxTokens t) b'.acts, pin := c.pin + total (pins t) b'.acts
                 take := c.take + total (takes t) b'.acts, free := c.free + total (frees t) b'.acts
                 timerFree := c.timerFree + total (timerFrees t) b'.acts })
    (htrace : ∀ u ≠ t, ∀ armed, armFold u armed es = some armed)
    (hhere : armFold t true es = some (decide (r'.state = .pending))) (hbox : r'.box = (b.s.recs t).box)
    (hclean : ∀ e ∈ es, e.Clean) (hwhen : r'.state = .pending → now < r'.when)
    (hcount : (if b'.continues then 1 else 0) + n ≤ m) : RoundOk b b' now := by
  have hpends := top_pends h hdue
  rw [← ht] at hpends
  have hacts := acts_of_due hdue
  have hb : Beside (b'.s.withRun b.acts) b'.close t := beside_withRun _ fun u hut => by
    rw [hothers u hut, hacts]
    rfl
  have htodo : b'.s.todo = b.s.todo := hc.same.todo
  refine ⟨hfired, ⟨es, hevents, .of_changed h hpends.1 hc hb ?_ ?_ htrace ?_ hbox (fun x => ?_) hclean⟩,
    rest_of_changed ht hc hb hpends.1 hwhen, ?_⟩
  · have hntimers : b'.close.ntimers = b.close.ntimers := hc.same.ntimers
    rw [hntimers, Batch.close, Batch.close, total_withRun, total_withRun, htodo, hacts]
    simp only [total_cons, total_nil, owed, add_zero]
    omega
  · have hheld : b'.close.held t = b.s.held t := congrFun hc.same.held t
    have hrefs : b'.close.refs t = b.s.refs t := congrFun hc.same.refs t
    have hafter : b'.close.afterFunc t = b.s.afterFunc t := congrFun hc.same.afterFunc t
    rw [hheld, hrefs, hafter]
    have := hkept _ rfl
    simpa [claims, Batch.close, total_withRun, htodo, add_comm] using this
  · rw [show decide ((b.close.recs t).state = .pending) = true from decide_eq_true hpends.2]
    exact hhere
  · rw [Batch.close, Batch.close, total_withRun, total_withRun, htodo, hacts, (hhanded x).1, (hhanded x).2]
    simp [handed]
  · have hheap : b'.s.heap.count + m = b.s.heap.count + n := hc.count
    omega

theorem round_of_gone {e : Event} (ht : t = b.top) (hc : b.close.Changed (b'.s.withRun b.acts) t r' n m)
    (hfired : b'.fired = b.fired ++ [(b.top, b.s.when b.top)])
    (hevents : b'.events = b.events ++ .fired t :: e :: es) (hspawn : b'.spawn = none)
    (hexpired : b'.expired = none) (hgone : b'.gone + n = b.gone + m)
    (he : e = .readied t ∨ e = .timedOut t ∨ e = .offered t now)
    (hes : es = if r'.state = .pending then [.armed t] else [])
    (hkept : Kept r' (b.s.held t) (b.s.refs t) (b.s.afterFunc t) (claims t b.s.todo.flatten))
    (hbox : r'.box = (b.s.recs t).box) (hwhen : r'.state = .pending → now < r'.when) (hle : n ≤ m) :
    RoundOk b b' now := by
  have hacts : b'.acts = [.gone b'.gone] := by rw [Batch.acts, hspawn, hexpired]
  refine round_of_changed h hdue ht hc hfired hevents (fun u _ => ?_) ?_ (fun x => ?_) (fun c hcl => ?_)
    (fun u hut armed => ?_) ?_ hbox (fun x hx => ?_) hwhen
    (by simpa [Batch.continues, hspawn, hexpired] using hle)
  · rw [hacts]
    rfl
  · rw [hacts]
    exact hgone
  · rw [hacts]
    refine ⟨?_, rfl⟩
    rcases he with rfl | rfl | rfl <;> rw [hes] <;> split <;> rfl
  · rw [hacts, hcl]
    exact hkept
  · rcases he with rfl | rfl | rfl <;> rw [hes] <;> split <;> simp [armFold, armStep, Ne.symm hut]
  · rcases he with rfl | rfl | rfl <;> rw [hes] <;> split <;> rename_i hstate <;> simp [armFold, armStep, hstate]
  · rw [hes] at hx
    rcases mem_cons.1 hx with rfl | hx
    · trivial
    · rcases mem_cons.1 hx with rfl | hx
      · rcases he with rfl | rfl | rfl <;> trivial
      · split at hx
        · exact clean_armed x hx
        · exact absurd hx not_mem_nil

theorem round_of_dealloc {S : Timers} (ht : t = b.top)
    (hc : b.close.Changed (S.withRun b.acts) t r' 0 1) (halike : Alike (S.dealloc t) b'.s)
    (htodo : b'.s.todo = S.todo) (hntimers : b'.s.ntimers = S.ntimers)
    (hfired : b'.fired = b.fired ++ [(b.top, b.s.when b.top)])
    (hevents : b'.events = b.events ++ .fired t :: es) (hspawn : b'.spawn = none)
    (hexpired : b'.expired = none) (hgone : b'.gone = b.gone + 1) (hes : es = [] ∨ es = [.offered t now])
    (hunused : Unused (b.s.held t) (claims t b.s.todo.flatten)) (hstate : r'.state ≠ .pending)
    (hscope : r'.scope = none) (hbox : (b.s.recs t).box = none) : RoundOk b b' now := by
  have hpends := top_pends h hdue
  rw [← ht] at hpends
  have hacts : b'.acts = [.gone b'.gone] := by rw [Batch.acts, hspawn, hexpired]
  have hacts₀ := acts_of_due hdue
  have htodo' : b'.s.todo = b.s.todo := htodo.trans hc.same.todo
  have hclaims : ∀ u, claims u b'.close.acts = claims u b.close.acts := by
    intro u
    simp only [claims, Batch.close, total_withRun, htodo', hacts, hacts₀, total_cons, total_nil, ctxTokens, pins,
      takes, frees, timerFrees]
  have hclaims₀ : claims t b'.close.acts = claims t b.s.todo.flatten := by
    simp only [claims, Batch.close, total_withRun, htodo', hacts, total_cons, total_nil, ctxTokens, pins,
      takes, frees, timerFrees, zero_add]
  have hb : Beside ((S.withRun b.acts).dealloc t) b'.close t :=
    ⟨halike.recs, halike.live, halike.heap, halike.lists, halike.made, fun u _ => congrFun halike.held u,
      fun u _ => congrFun halike.refs u, fun u _ => congrFun halike.afterFunc u, fun u _ => by
        rw [hclaims u, ← hc.same.acts]
        rfl⟩
  have hrecs : b'.s.recs = Function.update b.s.recs t r' := halike.recs.trans hc.recs
  have hlive' : b'.s.live = Function.update b.s.live t false := by
    have hlive := hc.same.live
    change S.live = b.s.live at hlive
    rw [halike.live, ← hlive]
    rfl
  refine ⟨hfired, ⟨.fired t :: es, hevents, .of_dealloc h hpends.1 hc hb ?_ ?_ hstate hscope hbox
    (fun u hut armed => ?_) ?_ (fun x => ?_) fun x hx => ?_⟩, ⟨?_, ?_⟩, ?_⟩
  · have hntimers' : b'.close.ntimers = b.close.ntimers := hntimers.trans hc.same.ntimers
    rw [hntimers', Batch.close, Batch.close, total_withRun, total_withRun, htodo', hacts, hacts₀]
    simp only [total_cons, total_nil, owed, add_zero]
    omega
  · have hheld : b'.close.held t = b.s.held t := (congrFun halike.held t).trans (congrFun hc.same.held t)
    rw [hheld, hclaims₀]
    exact hunused
  · rcases hes with rfl | rfl <;> simp [armFold, armStep, Ne.symm hut]
  · have hstate' : (b.close.recs t).state = .pending := hpends.2
    rcases hes with rfl | rfl <;> simp [armFold, armStep, hstate']
  · rw [Batch.close, Batch.close, total_withRun, total_withRun, htodo', hacts, hacts₀]
    rcases hes with rfl | rfl <;> simp [doneBy, handed]
  · rcases hes with rfl | rfl
    · rw [mem_singleton.1 hx]
      trivial
    · rcases mem_cons.1 hx with rfl | hx
      · trivial
      · rw [mem_singleton.1 hx]
        trivial
  · intro u hut
    rw [← ht] at hut
    refine ⟨?_, ?_⟩
    · change (b'.s.live u = true ∧ (b'.s.recs u).state = _) ↔ (b.s.live u = true ∧ (b.s.recs u).state = _)
      rw [hrecs, hlive', Function.update_of_ne hut, Function.update_of_ne hut]
    · rw [Timers.when, hrecs, Function.update_of_ne hut]
      rfl
  · intro hp
    have := hp.1
    rw [← ht] at this
    change b'.s.live t = true at this
    rw [hlive', Function.update_self] at this
    cases this
  · have hheap : b'.s.heap = S.heap := halike.heap
    have hcount : S.heap.count + 1 = b.s.heap.count + 0 := hc.count
    simp only [Batch.continues, hspawn, hexpired, hheap, Option.isSome_none, Bool.or_self, Bool.false_eq_true, if_false]
    omega

theorem changed_popped : b.close.Changed (b.pop.s.withRun b.acts) b.top
      { b.s.recs b.top with state := .fired } 0 1 :=
  changed_remove h.heapOk h.listsOk (top_pends h hdue) .fired nofun

theorem changed_popped_unlist : b.close.Changed ((b.pop.s.unlist b.top).withRun b.acts) b.top
      { b.s.recs b.top with state := .fired, scope := none } 0 1 := by
  have hc := changed_popped h hdue
  have hlive : (b.pop.s.withRun b.acts).live b.top = true := (top_pends h hdue).1
  have hcu := hc.trans (changed_unlist hc.heapOk hc.listsOk hlive)
  rw [hc.here, unlist_withRun] at hcu
  exact hcu

theorem round_of_moved {x : Box} (ht : t = b.top) (hc : b.close.Changed (b'.s.withRun b.acts) t r' n m)
    (hfired : b'.fired = b.fired ++ [(b.top, b.s.when b.top)])
    (hevents : b'.events = b.events ++ [.fired t]) (hacts' : b'.acts = [.spawn x, .gone (b.gone + m - n)])
    (hkept : Kept r' (b.s.held t) (b.s.refs t) (b.s.afterFunc t) (claims t b.s.todo.flatten))
    (hbox : r'.box = none) (hx : (b.s.recs t).box = some x) (hstate : r'.state ≠ .pending) (hlt : n < m) :
    RoundOk b b' now := by
  have hpends := top_pends h hdue
  rw [← ht] at hpends
  have hacts := acts_of_due hdue
  have hb : Beside (b'.s.withRun b.acts) b'.close t := beside_withRun _ fun u _ => by
    rw [hacts', hacts]
    rfl
  have htodo : b'.s.todo = b.s.todo := hc.same.todo
  refine ⟨hfired, ⟨_, hevents, .of_moved h hpends.1 hc hb ?_ ?_ (fun u hut armed => ?_) ?_ hbox (fun y => ?_)
    fun e he => ?_⟩, rest_of_changed ht hc hb hpends.1 fun e => absurd e hstate, ?_⟩
  · have hntimers : b'.close.ntimers = b.close.ntimers := hc.same.ntimers
    rw [hntimers, Batch.close, Batch.close, total_withRun, total_withRun, htodo, hacts, hacts']
    simp only [total_cons, total_nil, owed, add_zero]
    omega
  · have hheld : b'.close.held t = b.s.held t := congrFun hc.same.held t
    have hrefs : b'.close.refs t = b.s.refs t := congrFun hc.same.refs t
    have hafter : b'.close.afterFunc t = b.s.afterFunc t := congrFun hc.same.afterFunc t
    have hclaims : claims t b'.close.acts = claims t b.s.todo.flatten := by
      simp only [claims, Batch.close, total_withRun, htodo, hacts', total_cons, total_nil, ctxTokens, pins, takes,
        frees, timerFrees, zero_add]
    rw [hheld, hrefs, hafter, hclaims]
    exact hkept
  · simp [armFold, armStep, Ne.symm hut]
  · have hstate' : (b.close.recs t).state = .pending := hpends.2
    simp [armFold, armStep, hstate', hstate]
  · have hx' : (b.close.recs t).box = some x := hx
    rw [hx', Batch.close, Batch.close, total_withRun, total_withRun, htodo, hacts, hacts']
    simp [doneBy, handed, add_comm]
  · rw [mem_singleton.1 he]
    trivial
  · have hheap : b'.s.heap.count + m = b.s.heap.count + n := hc.count
    split <;> omega

theorem top_state : (b.s.recs b.top).state = .pending := (top_pends h hdue).2

theorem top_fired : b.pop.events = b.events ++ [.fired b.top] := by
  have hstale : b.s.stale (b.s.reach b.top) = [] := h.stale_reach (top_pends h hdue).1
  simp [Batch.pop, hstale]

theorem top_kept : Kept (b.s.recs b.top) (b.s.held b.top) (b.s.refs b.top) (b.s.afterFunc b.top)
      (claims b.top b.s.todo.flatten) := by
  have hk := h.keptLive (top_pends h hdue).1
  have hclaims : claims b.top b.close.acts = claims b.top b.s.todo.flatten := by
    simp only [claims, Batch.close, total_withRun, acts_of_due hdue, total_cons, total_nil, ctxTokens, pins, takes,
      frees, timerFrees, zero_add]
  rwa [hclaims] at hk

theorem top_boxed (hkind : (b.s.recs b.top).kind ≠ .func) : (b.s.recs b.top).box = none := by
  by_contra hbox
  exact hkind ((top_kept h hdue).boxed hbox)

theorem top_counts (hkind : (b.s.recs b.top).kind ≠ .ctx) : b.s.refs b.top = b.s.held b.top +
      (claims b.top b.s.todo.flatten).ctx + (claims b.top b.s.todo.flatten).pin +
        (claims b.top b.s.todo.flatten).take := by
  have hcounts := (top_kept h hdue).counts
  rwa [if_neg fun hboth => hkind hboth.1, add_zero] at hcounts

theorem round_func_ok (hkind : (b.s.recs b.top).kind = .func) : RoundOk b (b.round now) now := by
  have hlive := (top_pends h hdue).1
  have hk := top_kept h hdue
  have hstate := top_state h hdue
  obtain ⟨x, hx⟩ := Option.ne_none_iff_exists'.1 ((hk.func hkind).2 (.inl hstate))
  have hround : b.round now = b.pop.fire _ _ now .func := congrArg (b.pop.fire _ _ now) hkind
  have hevents := top_fired h hdue
  have hbox : (b.s.recs b.top).box = some x := hx
  have hfire : b.pop.fire b.top (b.s.recs b.top) now .func = { b.pop with
      s := (b.pop.s.setRec b.top { b.pop.s.recs b.top with box := none }).unlist
        b.top
      spawn := some (some x)
      events := b.pop.events } := by
    simp [Batch.fire, hbox]
  have hc := changed_popped h hdue
  have hrec : b.pop.s.recs b.top = { b.s.recs b.top with state := .fired } := hc.here
  rw [hround, hfire, hrec]
  have hcb := hc.trans (changed_fields (t := b.top)
    (r := { b.s.recs b.top with state := .fired, box := none }) hc.heapOk hc.listsOk
    (by rw [hc.here]) (by rw [hc.here]) (by rw [hc.here]))
  have hcu := hcb.trans (changed_unlist hcb.heapOk hcb.listsOk hlive)
  rw [hcb.here] at hcu
  have hsame : (b.pop.s.withRun b.acts).setRec b.top
      { b.s.recs b.top with state := .fired, box := none } =
      (b.pop.s.setRec b.top { b.s.recs b.top with state := .fired, box := none }).withRun
        b.acts := rfl
  rw [hsame, unlist_withRun] at hcu
  exact round_of_moved h hdue rfl hcu rfl hevents rfl
    (hk.afterFire hstate (top_counts h hdue (by simp [hkind])) (fun _ => by simp [hkind]) rfl rfl rfl rfl rfl rfl rfl
      rfl hk.ctxs rfl rfl) rfl hbox nofun (by omega)

/-- A wait that the time ends: the frame of the record is to free it. -/
theorem round_wait_ok {e : Event} (hkind : (b.s.recs b.top).kind = .wake ∨ (b.s.recs b.top).kind = .net)
    (he : e = .readied b.top ∨ e = .timedOut b.top)
    (hround : b.round now = { b.pop with events := b.pop.events ++ [e] }) : RoundOk b (b.round now) now := by
  have hk := top_kept h hdue
  have hfunc : (b.s.recs b.top).kind ≠ .func := by rcases hkind with e | e <;> simp [e]
  have hctx : (b.s.recs b.top).kind ≠ .ctx := by rcases hkind with e | e <;> simp [e]
  rw [hround]
  refine round_of_gone h hdue rfl (changed_popped h hdue) rfl ?_ hdue.2.2.1 hdue.2.2.2 rfl
    (he.imp_right .inl) rfl ?_ rfl nofun (by omega)
  · simp [top_fired h hdue]
  · exact hk.afterFire (top_state h hdue) (top_counts h hdue hctx) (fun _ => by rcases hkind with e | e <;> simp [e])
      rfl (hk.frame hkind).2 rfl rfl rfl (top_boxed h hdue hfunc) rfl rfl hk.ctxs rfl rfl

/-- A timer without a handle that fires for the last time is freed. -/
theorem round_freed_ok {c : Nat} {es : List Event} (hhandle : (b.s.recs b.top).handle = false)
    (hkind : (b.s.recs b.top).kind = .send ∨ (b.s.recs b.top).kind = .tick) (hes : es = [] ∨ es = [.offered b.top now])
    (hround : b.round now = { b.pop with
      s := { (b.pop.s.unlist b.top).dealloc b.top with
        chanRefs := Function.update (b.pop.s.unlist b.top).chanRefs (b.s.recs b.top).chan c }
      events := b.pop.events ++ es }) : RoundOk b (b.round now) now := by
  have hk := top_kept h hdue
  have hrefs := hk.loose hkind hhandle
  have hcounts := top_counts h hdue (by rcases hkind with e | e <;> simp [e])
  rw [hround]
  refine round_of_dealloc h hdue rfl (changed_popped_unlist h hdue) ⟨rfl, rfl, rfl, rfl, rfl, rfl, rfl, rfl⟩ rfl rfl rfl
    (by simp [top_fired h hdue]) hdue.2.2.1 hdue.2.2.2 rfl hes ?_ nofun rfl
    (top_boxed h hdue (by rcases hkind with e | e <;> simp [e]))
  rcases hk.owner with hown | hown | hown | hown
  · omega
  · rw [hhandle] at hown
    exact absurd hown.2.2.2 (by decide)
  · exact absurd (top_state h hdue) hown.2.2.2.1
  · exact ⟨by omega, by omega, by omega, by omega, hown.2.1, hown.2.2.1⟩

theorem round_send_ok (hkind : (b.s.recs b.top).kind = .send) : RoundOk b (b.round now) now := by
  have hround : b.round now = b.pop.fire _ _ now .send := congrArg (b.pop.fire _ _ now) hkind
  by_cases hhandle : (b.s.recs b.top).handle = true
  · rw [hround, Batch.fire, if_pos hhandle]
    refine round_of_gone h hdue rfl (changed_popped_unlist h hdue) rfl (by simp [top_fired h hdue]) hdue.2.2.1
      hdue.2.2.2 rfl (.inr (.inr rfl)) rfl ?_ rfl nofun (by omega)
    exact (top_kept h hdue).afterFire (top_state h hdue) (top_counts h hdue (by simp [hkind]))
      (fun hno => by rw [hhandle] at hno; cases hno) rfl rfl rfl rfl rfl (top_boxed h hdue (by simp [hkind])) rfl rfl
      (top_kept h hdue).ctxs rfl rfl
  · exact round_freed_ok h hdue (by simpa using hhandle) (.inl hkind) (.inr rfl)
      (hround.trans (by rw [Batch.fire, if_neg hhandle]))

theorem round_tick_ok (hnow : now < int64Max) (hkind : (b.s.recs b.top).kind = .tick) :
    RoundOk b (b.round now) now := by
  have hround : b.round now = b.pop.fire _ _ now .tick := congrArg (b.pop.fire _ _ now) hkind
  by_cases halone : (b.s.recs b.top).handle = false ∧ b.s.chanRefs (b.s.recs b.top).chan = 1
  · -- nobody can receive again
    exact round_freed_ok h hdue halone.1 (.inr hkind) (.inl rfl)
      (hround.trans ((if_pos halone).trans (by rw [append_nil])))
  · -- the tick comes back
    have hk := top_kept h hdue
    have hstate := top_state h hdue
    have hc := changed_popped h hdue
    have hfire : b.pop.fire b.top (b.s.recs b.top) now .tick = { b.pop with
        s := (b.pop.s.setRec b.top { b.pop.s.recs b.top with
          when := nextTick (b.s.recs b.top) now }).heapPush b.top
        gone := b.pop.gone - 1
        events := b.pop.events ++ [.offered b.top now, .armed b.top] } := if_neg halone
    have hrec : b.pop.s.recs b.top = { b.s.recs b.top with state := .fired } := hc.here
    rw [hround, hfire, hrec]
    have hout : ¬ (b.pop.s.withRun b.acts).Pends b.top := fun hp => by
      have := hp.2
      rw [hc.here] at this
      cases this
    have hcw := hc.trans (changed_setRec (t := b.top) (r := { b.s.recs b.top with
      state := .fired, when := nextTick (b.s.recs b.top) now }) hc.heapOk hc.listsOk hout
      nofun (by rw [hc.here]))
    have hout' : ¬ ((b.pop.s.withRun b.acts).setRec b.top { b.s.recs b.top with
        state := .fired, when := nextTick (b.s.recs b.top) now }).Pends b.top :=
      fun hp => by
        have := hp.2
        rw [hcw.here] at this
        cases this
    have hcp := hcw.trans (changed_heapPush hcw.heapOk hcw.listsOk (top_pends h hdue).1 hout')
    rw [hcw.here] at hcp
    refine round_of_gone h hdue rfl hcp rfl (by simp [top_fired h hdue]) hdue.2.2.1 hdue.2.2.2 rfl (.inr (.inr rfl)) rfl
      ?_ rfl (fun _ => nextTick_gt (hk.tick hkind) hnow) (by omega)
    exact ⟨by simpa [hkind] using top_counts h hdue (by simp [hkind]), by simpa [hstate] using hk.owner, hk.frame,
      hk.inner, hk.loose, hk.boxed, fun e => by simpa [hstate] using hk.func e, nofun, hk.tick,
      hk.single, hk.ctxs, hk.pinned, hk.after, fun hpos => absurd hstate (hk.taken hpos).1,
      fun _ hne => absurd rfl hne⟩

theorem round_ctx_ok (hkind : (b.s.recs b.top).kind = .ctx) : RoundOk b (b.round now) now := by
  have hround : b.round now = b.pop.fire _ _ now .ctx := congrArg (b.pop.fire _ _ now) hkind
  have hk := top_kept h hdue
  have hstate := top_state h hdue
  have hcounts := hk.counts
  simp only [hkind, hstate, and_self, if_true] at hcounts
  have hacts : (b.pop.fire b.top (b.s.recs b.top) now .ctx).acts = [.expire b.top, .gone (b.gone + 1)] := by
    have hspawn := hdue.2.2.1
    simp [Batch.fire, Batch.acts, Batch.pop, hspawn]
  rw [hround]
  refine round_of_changed h hdue rfl (changed_popped_unlist h hdue) rfl (top_fired h hdue) (fun u hut => ?_) ?_
    (fun x => ?_) (fun c hcl => ?_) (fun u hut armed => ?_) ?_ rfl (fun x hx => ?_) nofun
    (by split <;> omega)
  · rw [hacts]
    simp [claims, ctxTokens, pins, takes, frees, timerFrees, Ne.symm hut]
  · rw [hacts]
    simp [owed]
  · rw [hacts]
    exact ⟨rfl, rfl⟩
  · rw [hacts, hcl]
    exact hk.afterFire hstate (by simp [ctxTokens, pins, takes]; omega) (fun _ => by simp [hkind]) rfl rfl rfl rfl rfl
      (top_boxed h hdue (by simp [hkind])) rfl rfl (fun _ => hkind) rfl rfl
  · simp [armFold, armStep, Ne.symm hut]
  · simp [armFold, armStep]
  · rw [mem_singleton.1 hx]
    trivial

theorem round_ok (hnow : now < int64Max) : RoundOk b (b.round now) now := by
  cases hkind : (b.s.recs b.top).kind with
  | wake => exact round_wait_ok h hdue (.inl hkind) (.inl rfl) (congrArg (b.pop.fire _ _ now) hkind)
  | net => exact round_wait_ok h hdue (.inr hkind) (.inr rfl) (congrArg (b.pop.fire _ _ now) hkind)
  | send => exact round_send_ok h hdue hkind
  | tick => exact round_tick_ok h hdue hnow hkind
  | ctx => exact round_ctx_ok h hdue hkind
  | func => exact round_func_ok h hdue hkind

end Round

section Loop

variable {s : Timers} {now : Int}

structure Batch.Ok (s : Timers) (b : Batch) (now : Int) : Prop where
  step : StepOk s b.close b.events
  order : InOrder b.fired
  due : ∀ p ∈ b.fired, p.2 ≤ now
  first : ∀ p ∈ b.fired, ∀ u, b.close.Pends u → p.2 ≤ b.s.when u
  count : b.s.heap.count + (if b.continues then 1 else 0) ≤ s.heap.count

theorem inOrder_append {ps : List (Record × Int)} {q : Record × Int} (h : InOrder ps)
    (hle : ∀ p ∈ ps, p.2 ≤ q.2) : InOrder (ps ++ [q]) := by
  induction ps with
  | nil => trivial
  | cons p ps ih =>
    cases ps with
    | nil => exact ⟨hle p (mem_singleton.2 rfl), trivial⟩
    | cons p' ps => exact ⟨h.1, ih h.2 fun p hp => hle p (mem_cons_of_mem _ hp)⟩

theorem Batch.Ok.round {b : Batch} (hok : Batch.Ok s b now) (hdue : b.due now) (hnow : now < int64Max) :
    Batch.Ok s (b.round now) now := by
  obtain ⟨hfired, ⟨es, hevents, hstep⟩, hrest, hcount⟩ := round_ok hok.step.inv hdue hnow
  have htop := top_pends hok.step.inv hdue
  have hlast : ∀ p ∈ (b.round now).fired, p ∈ b.fired ∨ p = (b.top, b.s.when b.top) := by
    intro p hp
    rw [hfired] at hp
    rcases mem_append.1 hp with hp | hp
    · exact .inl hp
    · exact .inr (mem_singleton.1 hp)
  have hbound : ∀ p ∈ (b.round now).fired, p.2 ≤ now := by
    intro p hp
    rcases hlast p hp with hp | rfl
    · exact hok.due p hp
    · exact hdue.2.1
  refine ⟨?_, ?_, hbound, fun p hp u hu => ?_, ?_⟩
  · rw [hevents]
    exact hok.step.trans hstep
  · rw [hfired]
    exact inOrder_append hok.order fun p hp => hok.first p hp _ htop
  · by_cases hut : u = b.top
    · subst hut
      exact (hbound p hp).trans (hrest.top hu).le
    · obtain ⟨hpends, hwhen⟩ := hrest.others u hut
      rw [hwhen]
      rcases hlast p hp with hp | rfl
      · exact hok.first p hp u (hpends.1 hu)
      · exact top_first hok.step.inv (hpends.1 hu)
  · have := hok.count
    omega

theorem loop_ok (hnow : now < int64Max) : ∀ (fuel : Nat) (b : Batch) (due : List Record), Batch.Ok s b now →
    due.length ≤ fuel → (∀ u, b.close.Pends u → b.s.when u ≤ now → u ∈ due) →
    Batch.Ok s (Batch.loop now fuel b).1 now ∧ (Batch.loop now fuel b).2 = true
  | 0, b, due, hok, hlen, hall => by
    refine ⟨hok, decide_eq_true fun hdue => ?_⟩
    have hmem := hall _ (top_pends hok.step.inv hdue) hdue.2.1
    rw [length_eq_zero_iff.1 (le_zero.1 hlen)] at hmem
    exact absurd hmem not_mem_nil
  | fuel + 1, b, due, hok, hlen, hall => by
    rw [Batch.loop]
    split
    · rename_i hdue
      have htop := hall _ (top_pends hok.step.inv hdue) hdue.2.1
      refine loop_ok hnow fuel (b.round now) (due.erase b.top) (hok.round hdue hnow) ?_ fun u hu hle => ?_
      · rw [length_erase_of_mem htop]
        omega
      · obtain ⟨-, -, hrest, -⟩ := round_ok hok.step.inv hdue hnow
        by_cases hut : u = b.top
        · subst hut
          exact absurd (hrest.top hu) (by omega)
        · obtain ⟨hpends, hwhen⟩ := hrest.others u hut
          rw [hwhen] at hle
          exact (mem_erase_of_ne hut).2 (hall u (hpends.1 hu) hle)
    · exact ⟨hok, rfl⟩

theorem timersRun_ok (h : s.Inv) (hrun : s.run = []) (hnow : now < int64Max) :
    StepOk s (s.timersRun now).1 (s.timersRun now).2 ∧
      ((s.timersRun now).1.runs = s.runs ∧ (s.timersRun now).1.heap.count < s.heap.count ∨
        (s.timersRun now).1.runs = s.runs + 1 ∧ (s.timersRun now).1.heap.count ≤ s.heap.count) := by
  have hstart : StepOk s (Batch.start s).close [] := by
    have hclose : (Batch.start s).close.acts = .gone 0 :: s.todo.flatten := rfl
    have hacts : s.acts = s.todo.flatten := by simp [Timers.acts, hrun]
    refine .of_idle h rfl rfl rfl rfl rfl rfl rfl rfl (fun u => ?_) ?_ (fun x => ?_) (fun _ _ => rfl)
      fun e he => absurd he not_mem_nil
    · rw [hclose, hacts]
      exact claims_eq (zero_add _) (zero_add _) (zero_add _) (zero_add _) (zero_add _)
    · rw [hclose, hacts, total_cons]
      simp only [owed, zero_add]
      rfl
    · rw [hclose, hacts, total_cons]
      simp [doneBy, handed]
  have hok : Batch.Ok s (Batch.start s) now :=
    ⟨hstart, trivial, fun p hp => absurd hp not_mem_nil, fun p hp => absurd hp not_mem_nil, le_refl _⟩
  obtain ⟨hend, hended⟩ := loop_ok hnow s.heap.count (Batch.start s) s.heapRecords hok
    (by simp [Timers.heapRecords]) fun u hu _ => by
      obtain ⟨i, hi, rfl⟩ := (h.heapOk.pends u).2 hu
      exact mem_map.2 ⟨i, mem_range.2 hi, rfl⟩
  have hes : (s.timersRun now).2 = (Batch.loop now s.heap.count (Batch.start s)).1.events ++
      [.batch s.runs now (Batch.loop now s.heap.count (Batch.start s)).1.fired
        (Batch.loop now s.heap.count (Batch.start s)).2] := rfl
  refine ⟨?_, ?_⟩
  swap
  · have hcount := hend.count
    have hruns : (s.timersRun now).1.runs =
        if (Batch.loop now s.heap.count (Batch.start s)).1.continues then s.runs else s.runs + 1 := rfl
    change _ ∧ (Batch.loop now s.heap.count (Batch.start s)).1.s.heap.count < _ ∨
      _ ∧ (Batch.loop now s.heap.count (Batch.start s)).1.s.heap.count ≤ _
    rw [hruns]
    split at hcount
    · rename_i hcont
      exact .inl ⟨if_pos hcont, by omega⟩
    · rename_i hcont
      exact .inr ⟨if_neg hcont, by omega⟩
  rw [hes]
  refine hend.step.trans (.of_idle hend.step.inv rfl rfl rfl rfl rfl rfl rfl rfl (fun _ => rfl) rfl
    (fun x => zero_add _) (fun _ _ => rfl) fun e he => ?_)
  rw [mem_singleton.1 he]
  exact ⟨hended, hend.order, hend.due⟩

end Loop

end Tsuzuri.Clock
