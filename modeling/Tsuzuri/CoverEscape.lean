import Tsuzuri.CoverSearch
import Tsuzuri.PatternEscape

/-!
# What the search of the coverage check finds

A search with a witness has found a derivation that the rows leave something uncovered (`run_escapes`), and the
witness is its pattern.
-/

namespace Tsuzuri

open List

open PatternMatrix (Row Escapes specialize defaults)

/-! ## Replays -/

/-- Following the steps from `trace` back turns the witnesses of the columns into the witness `w`. -/
inductive Replays (steps : List (Step × Option Nat)) :
    Option Nat → List Witness → Witness → Prop
  | done {ws : List Witness} : Replays steps none ws (ws.headD .wild)
  | apply {i arity : Nat} {c : Constructor} {parent : Option Nat} {ws : List Witness} {w : Witness}
      (h : steps[i]? = some (.apply c arity, parent))
      (hw : Replays steps parent (.ctor c (ws.take arity) :: ws.drop arity) w) :
      Replays steps (some i) ws w
  | head {i : Nat} {head : Witness} {parent : Option Nat} {ws : List Witness} {w : Witness}
      (h : steps[i]? = some (.head head, parent)) (hw : Replays steps parent (head :: ws) w) :
      Replays steps (some i) ws w

def WithinSteps (steps : List (Step × Option Nat)) (trace : Option Nat) : Prop :=
  ∀ i, trace = some i → i < steps.length

def BackwardSteps (steps : List (Step × Option Nat)) : Prop :=
  ∀ (i : Nat) (st : Step) (parent : Nat), steps[i]? = some (st, some parent) → parent < i

variable {steps : List (Step × Option Nat)} {i : Nat}

theorem rebuild_replays (hsteps : BackwardSteps steps) (fuel : Nat) :
    ∀ {trace : Option Nat} {ws : List Witness}, WithinSteps steps trace →
      (∀ i, trace = some i → i < fuel) → Replays steps trace ws (rebuild steps fuel trace ws) := by
  induction fuel with
  | zero =>
    intro trace ws _ hfuel
    cases trace with
    | none => exact .done
    | some i => exact absurd (hfuel i rfl) (Nat.not_lt_zero i)
  | succ fuel ih =>
    intro trace ws hwithin hfuel
    cases trace with
    | none => exact .done
    | some i =>
      have hi := hwithin i rfl
      obtain ⟨⟨st, parent⟩, hst⟩ : ∃ p, steps[i]? = some p := ⟨_, getElem?_eq_getElem hi⟩
      have hparent (j : Nat) (hj : parent = some j) : j < i := hsteps i st j (hj ▸ hst)
      have hnext : WithinSteps steps parent := fun j hj => (hparent j hj).trans hi
      have hless (j : Nat) (hj : parent = some j) : j < fuel := by
        have := hparent j hj
        have := hfuel i rfl
        omega
      cases st with
      | apply c arity =>
        simp only [rebuild, hst]
        exact .apply hst (ih hnext hless)
      | head head =>
        simp only [rebuild, hst]
        exact .head hst (ih hnext hless)

theorem getElem?_extend {α : Type} {xs ys : List α} {x : α} (h : xs <+: ys) (hx : xs[i]? = some x) :
    ys[i]? = some x := by
  obtain ⟨zs, rfl⟩ := h
  have hi : i < xs.length := (List.getElem?_eq_some_iff.mp hx).1
  rwa [getElem?_append_left hi]

/-! ## The search -/

def CheckerSplits (checker : Checker) (rows : List (Row Constructor)) (c : Constructor) : Prop :=
  ∃ cs, signature checker rows = .complete cs ∧ c ∈ cs

def Heads (checker : Checker) (rows : List (Row Constructor)) (p : Pat) : Prop :=
  ∃ w, signature checker rows = .missing w ∧ p = witnessPattern w

section Search

variable {checker : Checker} {span : Span} {s s' : Search} {describe : Bool}
variable {parent : Option Nat} {rows : List (Row Constructor)} {c : Constructor} {n : Nat}
  {tail : Row Constructor} {task : Task} {tasks : List Task} {ws : List Witness} {w : Witness}

theorem step_traced {trace : Option Nat} {st : Step} (h : (step describe parent st).run s = .ok (trace, s'))
    (hparent : describe = true → WithinSteps s.steps parent) (hsteps : BackwardSteps s.steps) :
    s.steps <+: s'.steps ∧ BackwardSteps s'.steps ∧ (describe = true → WithinSteps s'.steps trace)
      ∧ (describe = true → ∃ i, trace = some i ∧ s'.steps[i]? = some (st, parent)) := by
  unfold step at h
  split at h
  · rename_i hdescribe
    obtain ⟨rfl, rfl⟩ := pure_ok h
    have hfalse : ¬ describe = true := by simpa using hdescribe
    exact ⟨prefix_rfl, hsteps, fun htrue => absurd htrue hfalse, fun htrue => absurd htrue hfalse⟩
  · rename_i hdescribe
    have htrue : describe = true := by simpa using hdescribe
    obtain ⟨_, s₁, h₁, h⟩ := seq_ok h
    obtain rfl := modify_ok h₁
    obtain ⟨_, _, h₂, h⟩ := seq_ok h
    obtain ⟨rfl, rfl⟩ := get_ok h₂
    obtain ⟨rfl, rfl⟩ := pure_ok h
    refine ⟨prefix_append _ _, ?_, fun _ i hi => ?_, fun _ => ⟨s.steps.length, by simp, by simp⟩⟩
    · intro i st' parent' hi
      rw [getElem?_append] at hi
      split at hi
      · exact hsteps i st' parent' hi
      · rename_i hlen
        have hzero : i - s.steps.length = 0 := by
          by_contra hne
          rw [getElem?_eq_none (by simp; omega)] at hi
          cases hi
        rw [hzero] at hi
        obtain ⟨-, rfl⟩ : st = st' ∧ parent = some parent' := by simpa using hi
        have := hparent htrue parent' rfl
        omega
    · obtain rfl : s.steps.length = i := by simpa using hi
      simp

theorem specializeRows_steps {rows' : List (Row Constructor)}
    (h : (specializeRows span rows c n).run s = .ok (rows', s')) :
    rows' = specialize c n rows ∧ s'.steps = s.steps := by
  unfold specializeRows at h
  obtain ⟨_, s₁, h₁, h⟩ := seq_ok h
  obtain ⟨rfl, -⟩ := charge_ok h₁
  obtain ⟨rfl, rfl⟩ := pure_ok h
  exact ⟨rfl, rfl⟩

/-- A task for the constructor `c` of a column of `rows`, with the step that says so. -/
structure SplitTask (checker : Checker) (describe : Bool) (steps : List (Step × Option Nat))
    (rows : List (Row Constructor)) (tail : Row Constructor) (parent : Option Nat)
    (c : Constructor) (task : Task) : Prop where
  rows_eq : task.rows = specialize c (arity checker c) rows
  query_eq : task.query = List.replicate (arity checker c) .wild ++ tail
  step : describe = true → ∃ i, task.trace = some i ∧ steps[i]? = some (.apply c (arity checker c), parent)

theorem SplitTask.mono {steps' : List (Step × Option Nat)}
    (h : SplitTask checker describe steps rows tail parent c task) (hextends : steps <+: steps') :
    SplitTask checker describe steps' rows tail parent c task := by
  refine ⟨h.rows_eq, h.query_eq, fun hd => ?_⟩
  obtain ⟨i, hi, hst⟩ := h.step hd
  exact ⟨i, hi, getElem?_extend hextends hst⟩

theorem splitTasks_traced {cs : List Constructor} {tasks' : List Task}
    (h : (splitTasks checker span describe rows tail parent cs tasks).run s = .ok (tasks', s'))
    (hparent : describe = true → WithinSteps s.steps parent) (hsteps : BackwardSteps s.steps)
    (htasks : ∀ task ∈ tasks, describe = true → WithinSteps s.steps task.trace) :
    s.steps <+: s'.steps ∧ BackwardSteps s'.steps ∧ (∀ task ∈ tasks', describe = true → WithinSteps s'.steps task.trace)
      ∧ ∀ task ∈ tasks', task ∈ tasks ∨ ∃ c ∈ cs, SplitTask checker describe s'.steps rows tail parent c task := by
  induction cs generalizing tasks s with
  | nil =>
    rw [splitTasks] at h
    obtain ⟨rfl, rfl⟩ := pure_ok h
    exact ⟨prefix_rfl, hsteps, htasks, fun task ht => .inl ht⟩
  | cons c cs ih =>
    rw [splitTasks] at h
    obtain ⟨rows', s₁, h₁, h⟩ := seq_ok h
    obtain ⟨trace', s₂, h₂, h⟩ := seq_ok h
    obtain ⟨rfl, hs₁⟩ := specializeRows_steps h₁
    rw [← hs₁] at hparent hsteps htasks
    obtain ⟨hextends, hback, hwithin, hstep⟩ := step_traced h₂ hparent hsteps
    have hlonger {trace : Option Nat} (ht : WithinSteps s₁.steps trace) : WithinSteps s₂.steps trace :=
      fun i hi => (ht i hi).trans_le hextends.length_le
    obtain ⟨hextends', hback', hwithin', hcases⟩ := ih h (fun hd => hlonger (hparent hd)) hback
      (forall_mem_cons.mpr ⟨hwithin, fun task ht hd => hlonger (htasks task ht hd)⟩)
    rw [← hs₁]
    refine ⟨hextends.trans hextends', hback', hwithin', fun task ht => ?_⟩
    rcases hcases task ht with hmem | ⟨c', hc', htask⟩
    · rcases mem_cons.mp hmem with rfl | hmem
      · exact .inr ⟨c, mem_cons_self, ⟨rfl, rfl, fun hd => by
          obtain ⟨i, hi, hst⟩ := hstep hd
          exact ⟨i, hi, getElem?_extend hextends' hst⟩⟩⟩
      · exact .inl hmem
    · exact .inr ⟨c', mem_cons_of_mem _ hc', htask⟩

def Found (checker : Checker) (describe : Bool) (steps : List (Step × Option Nat)) (w : Witness) (task : Task) : Prop :=
  ∃ ws : List Witness, Escapes (arity checker) (CheckerSplits checker) (Heads checker) task.rows
      task.query.length (ws.map witnessPattern)
    ∧ (describe = true → Replays steps task.trace ws w)

theorem Replays.apply_inv (h : Replays steps (some i) ws w) (hst : steps[i]? = some (.apply c n, parent)) :
    Replays steps parent (.ctor c (ws.take n) :: ws.drop n) w := by
  cases h with
  | apply h hw =>
    obtain ⟨⟨rfl, rfl⟩, rfl⟩ : (c = _ ∧ n = _) ∧ parent = _ := by simpa [hst] using h
    exact hw
  | head h hw => simp [hst] at h

theorem Replays.head_inv {head : Witness} (h : Replays steps (some i) ws w)
    (hst : steps[i]? = some (.head head, parent)) : Replays steps parent (head :: ws) w := by
  cases h with
  | apply h hw => simp [hst] at h
  | head h hw =>
    obtain ⟨rfl, rfl⟩ : head = _ ∧ parent = _ := by simpa [hst] using h
    exact hw

theorem Found.split (h : Found checker describe steps w task)
    (htask : SplitTask checker describe steps rows tail parent c task) (hc : CheckerSplits checker rows c) :
    Found checker describe steps w { rows, query := .wild :: tail, trace := parent } := by
  obtain ⟨ws, hescapes, hreplays⟩ := h
  rw [htask.rows_eq, htask.query_eq, length_append, length_replicate] at hescapes
  have hlen : ws.length = arity checker c + tail.length := by simpa using hescapes.length_eq
  refine ⟨.ctor c (ws.take (arity checker c)) :: ws.drop (arity checker c), ?_, fun hd => ?_⟩
  · rw [map_cons, witnessPattern]
    refine .split hc (by simp [hlen]) ?_
    rw [← map_append, take_append_drop]
    exact hescapes
  · obtain ⟨i, hi, hst⟩ := htask.step hd
    exact (hi ▸ hreplays hd).apply_inv hst

theorem runLoop_found {fuel : Nat} (h : (runLoop checker span describe fuel tasks).run s = .ok (some w, s'))
    (hsteps : BackwardSteps s.steps) (hwild : ∀ task ∈ tasks, ∃ n, task.query = List.replicate n .wild)
    (htasks : ∀ task ∈ tasks, describe = true → WithinSteps s.steps task.trace) :
    s.steps <+: s'.steps ∧ ∃ task ∈ tasks, Found checker describe s'.steps w task := by
  induction fuel generalizing tasks s with
  | zero =>
    rw [runLoop] at h
    cases h
  | succ fuel ih =>
    cases tasks with
    | nil =>
      rw [runLoop] at h
      obtain ⟨hnone, -⟩ := pure_ok h
      cases hnone
    | cons task tasks =>
      obtain ⟨rows, query, trace⟩ := task
      obtain ⟨⟨n, hquery⟩, hrest⟩ := forall_mem_cons.mp hwild
      obtain ⟨htrace, hpending⟩ := forall_mem_cons.mp htasks
      simp only at hquery htrace
      subst hquery
      rw [runLoop.eq_def] at h
      obtain ⟨_, s₁, h₁, h⟩ := seq_ok h
      obtain ⟨rfl, -⟩ := charge_ok h₁
      split at h
      · obtain ⟨hextends, task, ht, hfound⟩ := ih h hsteps hrest hpending
        exact ⟨hextends, task, mem_cons_of_mem _ ht, hfound⟩
      · rename_i hany
        cases n with
        | zero =>
          obtain ⟨_, s₂, h₂, h⟩ := seq_ok h
          obtain ⟨rfl, rfl⟩ := get_ok h₂
          obtain ⟨hw, rfl⟩ := pure_ok h
          refine ⟨prefix_rfl, _, mem_cons_self, [], .done fun row hrow => ?_, ?_⟩
          · by_contra hall
            refine hany (any_eq_true.mpr ⟨row, hrow, ?_⟩)
            simpa [concrete, countP_eq_zero] using hall
          · intro hd
            obtain rfl := Option.some.inj hw
            rw [if_pos hd]
            exact rebuild_replays hsteps _ (htrace hd) fun i hi => (htrace hd i hi).trans (Nat.lt_succ_self _)
        | succ n =>
          rw [replicate_succ] at h
          simp only at h
          split at h
          · rename_i cs hcs
            obtain ⟨tasks', s₂, h₂, h⟩ := seq_ok h
            obtain ⟨hextends, hback, hwithin, hcases⟩ :=
              splitTasks_traced h₂ htrace hsteps hpending
            have hwild' : ∀ task ∈ tasks', ∃ n, task.query = List.replicate n .wild := by
              intro task ht
              rcases hcases task ht with hmem | ⟨c, -, htask⟩
              · exact hrest task hmem
              · exact ⟨_, htask.query_eq.trans (replicate_append_replicate ..)⟩
            obtain ⟨hextends', task, ht, hfound⟩ := ih h hback hwild' hwithin
            refine ⟨hextends.trans hextends', ?_⟩
            rcases hcases task ht with hmem | ⟨c, hc, htask⟩
            · exact ⟨task, mem_cons_of_mem _ hmem, hfound⟩
            · exact ⟨_, mem_cons_self, hfound.split (htask.mono hextends') ⟨cs, hcs, mem_reverse.mp hc⟩⟩
          · rename_i head hhead
            obtain ⟨trace', s₂, h₂, h⟩ := seq_ok h
            obtain ⟨hextends, hback, hwithin, hstep⟩ := step_traced h₂ htrace hsteps
            have hlonger (task : Task) (ht : task ∈ tasks) (hd : describe = true) : WithinSteps s₂.steps task.trace :=
              fun i hi => (hpending task ht hd i hi).trans_le hextends.length_le
            obtain ⟨hextends', task, ht, hfound⟩ := ih h hback (forall_mem_cons.mpr ⟨⟨n, rfl⟩, hrest⟩)
              (forall_mem_cons.mpr ⟨hwithin, hlonger⟩)
            refine ⟨hextends.trans hextends', ?_⟩
            rcases mem_cons.mp ht with rfl | ht
            · obtain ⟨ws, hescapes, hreplays⟩ := hfound
              refine ⟨_, mem_cons_self, head :: ws, ?_, fun hd => ?_⟩
              · rw [map_cons, length_replicate]
                rw [length_replicate] at hescapes
                exact .head ⟨head, hhead, rfl⟩ hescapes
              · obtain ⟨i, hi, hst⟩ := hstep hd
                exact (hi ▸ hreplays hd).head_inv (getElem?_extend hextends' hst)
            · exact ⟨task, mem_cons_of_mem _ ht, hfound⟩

theorem run_escapes (h : (run checker span rows [.wild] describe).run s = .ok (some w, s')) :
    ∃ w', Escapes (arity checker) (CheckerSplits checker) (Heads checker) rows 1 [witnessPattern w']
      ∧ (describe = true → w' = w) := by
  unfold run at h
  obtain ⟨_, s₁, h₁, h⟩ := seq_ok h
  obtain rfl := modify_ok h₁
  obtain ⟨-, task, ht, ws, hescapes, hreplays⟩ := runLoop_found h (fun i st parent hi => by simp at hi)
    (fun task ht => ⟨1, by simp [mem_singleton.mp ht]⟩)
    (fun task ht hd i hi => by simp [mem_singleton.mp ht] at hi)
  obtain rfl := mem_singleton.mp ht
  obtain ⟨w', rfl⟩ := length_eq_one_iff.mp (by simpa using hescapes.length_eq)
  refine ⟨w', hescapes, fun hd => ?_⟩
  cases hreplays hd
  rfl

end Search

end Tsuzuri
