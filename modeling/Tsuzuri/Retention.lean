import Mathlib.Algebra.BigOperators.Group.Finset.Basic
import Mathlib.Algebra.Order.BigOperators.Group.Finset
import Mathlib.Data.Finset.Sort
import Mathlib.Data.Fintype.Basic
import Mathlib.Data.List.Sort
import Mathlib.Logic.Relation

/-!
# The facts of the retained arguments

`parameter_retention_within` (`ownership.rs`) finds which arguments the result of a function holds. The calls and the
check of one body are parameters.
-/

namespace Tsuzuri.Retention

abbrev Facts (arity : Nat → Nat) := (id : Nat) → Option (Fin (arity id) → Bool)

/-- A module, as far as the work list reads it. -/
structure Module where
  arity : Nat → Nat
  calls : List (Nat × Nat)
  /-- The parameters that may hold borrows but get no loan in the body. -/
  hidden : (id : Nat) → Fin (arity id) → Bool
  untracked : Bool
  noFacts : Nat → Bool
  check : (id : Nat) → Facts arity → Option (Fin (arity id) → Bool)

def treeSet (xs : List Nat) : List Nat := xs.dedup.mergeSort

theorem mem_treeSet {x : Nat} {xs : List Nat} : x ∈ treeSet xs ↔ x ∈ xs := by
  rw [treeSet, List.mem_mergeSort, List.mem_dedup]

namespace Module

variable (m : Module)

/-- The keys of `callers`: the functions that facts are computed for. -/
def keys : List Nat := treeSet (m.calls.map Prod.snd)

def callers (id : Nat) : List Nat := treeSet ((m.calls.filter fun call => call.2 = id).map Prod.fst)

def callees (id : Nat) : List Nat := treeSet ((m.calls.filter fun call => call.1 = id).map Prod.snd)

abbrev Key := {id // id ∈ m.keys}

def retainedParameters (id : Nat) (facts : Facts m.arity) : Option (Fin (m.arity id) → Bool) :=
  if m.untracked || m.noFacts id then none else m.check id facts

def children (id : m.Key) : List m.Key :=
  (m.callees id).filterMap fun callee => if h : callee ∈ m.keys then some ⟨callee, h⟩ else none

def unvisited (visited : Finset m.Key) : Nat := (m.keys.attach.toFinset \ visited).card

theorem unvisited_insert {visited : Finset m.Key} {k : m.Key} (h : k ∉ visited) :
    m.unvisited (insert k visited) < m.unvisited visited := by
  rw [unvisited, unvisited, Finset.sdiff_insert]
  exact Finset.card_erase_lt_of_mem (by simp [h])

def turnsLeft : List (m.Key × List m.Key) → Nat
  | [] => 0
  | (_, next) :: rest => next.length + 1 + turnsLeft rest

theorem turnsLeft_next (id child : m.Key) (next : List m.Key) (rest : List (m.Key × List m.Key)) :
    m.turnsLeft ((id, next) :: rest) < m.turnsLeft ((id, child :: next) :: rest) :=
  Nat.add_lt_add_right (Nat.lt_succ_self _) _

theorem turnsLeft_pop (id : m.Key) (rest : List (m.Key × List m.Key)) :
    m.turnsLeft rest < m.turnsLeft ((id, []) :: rest) :=
  Nat.lt_add_of_pos_left (Nat.succ_pos _)

def walk : List (m.Key × List m.Key) → Finset m.Key → List m.Key → Finset m.Key × List m.Key
  | [], visited, order => (visited, order)
  | (id, child :: next) :: rest, visited, order =>
    if child ∈ visited then walk ((id, next) :: rest) visited order
    else walk ((child, m.children child) :: (id, next) :: rest) (insert child visited) order
  | (id, []) :: rest, visited, order => walk rest visited (order ++ [id])
termination_by stack visited _ => (m.unvisited visited, m.turnsLeft stack)
decreasing_by
  · exact .right _ (m.turnsLeft_next ..)
  · exact .left _ _ (m.unvisited_insert ‹_›)
  · exact .right _ (m.turnsLeft_pop ..)

def visit (s : Finset m.Key × List m.Key) (root : m.Key) : Finset m.Key × List m.Key :=
  if root ∈ s.1 then s else m.walk [(root, m.children root)] (insert root s.1) s.2

def order : List m.Key := (m.keys.attach.foldl m.visit (∅, [])).2

/-! ## The work list -/

/-- The facts so far, of the functions that facts are computed for. -/
structure State where
  retained : (id : Nat) → Fin (m.arity id) → Bool
  work : List Nat
  queued : Finset Nat

def view (retained : (id : Nat) → Fin (m.arity id) → Bool) : Facts m.arity :=
  fun id => if id ∈ m.keys then some (retained id) else none

def start : m.State :=
  ⟨m.hidden, m.order.map Subtype.val, (m.order.map Subtype.val).toFinset⟩

/-- The callers that are not in a set yet, and the set with them. -/
def fresh : List Nat → Finset Nat → List Nat × Finset Nat
  | [], seen => ([], seen)
  | caller :: rest, seen =>
    if caller ∈ m.keys ∧ caller ∉ seen then
      (caller :: (fresh rest (insert caller seen)).1, (fresh rest (insert caller seen)).2)
    else fresh rest seen

def raised (retained : (id : Nat) → Fin (m.arity id) → Bool) (id : Nat) : Fin (m.arity id) → Bool :=
  match m.retainedParameters id (m.view retained) with
  | some found => fun i => retained id i || found i
  | none => fun _ => true

def turn (s : m.State) (id : Nat) (rest : List Nat) : m.State :=
  if ∀ i, s.retained id i = m.raised s.retained id i then
    { s with work := rest, queued := s.queued.erase id }
  else
    { retained := Function.update s.retained id (m.raised s.retained id)
      work := rest ++ (m.fresh (m.callers id) (s.queued.erase id)).1
      queued := (m.fresh (m.callers id) (s.queued.erase id)).2 }

def run : Nat → m.State → m.State
  | 0, s => s
  | budget + 1, s =>
    match s.work with
    | [] => s
    | id :: rest => run budget (m.turn s id rest)

theorem fresh_spec : ∀ (callers : List Nat) (seen : Finset Nat),
    (m.fresh callers seen).2 = seen ∪ (m.fresh callers seen).1.toFinset ∧ (m.fresh callers seen).1.Nodup ∧
      (∀ c ∈ (m.fresh callers seen).1, c ∈ callers ∧ c ∈ m.keys ∧ c ∉ seen) ∧
      ∀ c ∈ callers, c ∈ m.keys → c ∈ (m.fresh callers seen).2
  | [], seen => ⟨by simp [fresh], .nil, by simp [fresh], by simp⟩
  | caller :: rest, seen => by
    rw [fresh]
    split
    · rename_i hnew
      obtain ⟨heq, hnodup, hmem, hall⟩ := fresh_spec rest (insert caller seen)
      refine ⟨?_, List.nodup_cons.2 ⟨fun h => (hmem _ h).2.2 (Finset.mem_insert_self ..), hnodup⟩, ?_, ?_⟩
      · rw [heq, List.toFinset_cons, Finset.insert_union, Finset.union_insert]
      · intro c hc
        rcases List.mem_cons.1 hc with rfl | hc
        · exact ⟨List.mem_cons_self, hnew⟩
        · obtain ⟨hin, hkey, hnot⟩ := hmem c hc
          exact ⟨List.mem_cons_of_mem _ hin, hkey, fun h => hnot (Finset.mem_insert_of_mem h)⟩
      · intro c hc hkey
        rcases List.mem_cons.1 hc with rfl | hc
        · rw [heq]
          exact Finset.mem_union_left _ (Finset.mem_insert_self ..)
        · exact hall c hc hkey
    · rename_i hold
      obtain ⟨heq, hnodup, hmem, hall⟩ := fresh_spec rest seen
      refine ⟨heq, hnodup, fun c hc => ⟨List.mem_cons_of_mem _ (hmem c hc).1, (hmem c hc).2⟩, fun c hc hkey => ?_⟩
      rcases List.mem_cons.1 hc with rfl | hc
      · rw [heq]
        exact Finset.mem_union_left _ (by_contra fun h => hold ⟨hkey, h⟩)
      · exact hall c hc hkey

def unsettle (pending : List Nat) (unsettled : Finset Nat) : Finset Nat :=
  match pending with
  | [] => unsettled
  | callee :: rest =>
    unsettle ((m.fresh (m.callers callee) unsettled).1.reverse ++ rest) (m.fresh (m.callers callee) unsettled).2
termination_by ((m.keys.toFinset \ unsettled).card, pending.length)
decreasing_by
  obtain ⟨heq, -, hmem, -⟩ := m.fresh_spec (m.callers callee) unsettled
  cases hnew : (m.fresh (m.callers callee) unsettled).1 with
  | nil =>
    rw [hnew, List.toFinset_nil, Finset.union_empty] at heq
    rw [heq]
    exact .right _ (Nat.lt_succ_self _)
  | cons c cs =>
    have hc : c ∈ (m.fresh (m.callers callee) unsettled).1 := hnew ▸ List.mem_cons_self
    refine .left _ _ (Finset.card_lt_card ⟨?_, fun h => ?_⟩)
    · exact Finset.sdiff_subset_sdiff (Finset.Subset.refl _) (heq ▸ Finset.subset_union_left)
    · have hin := h (Finset.mem_sdiff.2 ⟨List.mem_toFinset.2 (hmem c hc).2.1, (hmem c hc).2.2⟩)
      rw [heq] at hin
      exact (Finset.mem_sdiff.1 hin).2 (Finset.mem_union_right _ (List.mem_toFinset.2 hc))

def settle (s : m.State) : Facts m.arity :=
  match s.work with
  | [] => m.view s.retained
  | _ :: _ => fun id =>
    if id ∈ m.unsettle (s.queued.sort (· ≤ ·)).reverse s.queued then none else m.view s.retained id

def retentionChecksPerFunction : Nat := 8

def retentionExtraChecks : Nat := 1024

def turns (budget : Option Nat) : Nat :=
  budget.getD (m.keys.length * retentionChecksPerFunction + retentionExtraChecks)

def parameterRetentionWithin (budget : Option Nat) : Facts m.arity :=
  if m.untracked then fun _ => none else m.settle (m.run (m.turns budget) m.start)

variable {m}

theorem walk_spec {stack : List (m.Key × List m.Key)} {visited : Finset m.Key} {order : List m.Key}
    (hnodup : (order ++ stack.map Prod.fst).Nodup) (hmem : ∀ k, k ∈ visited ↔ k ∈ order ++ stack.map Prod.fst) :
    (m.walk stack visited order).2.Nodup ∧
      (∀ k, k ∈ (m.walk stack visited order).1 ↔ k ∈ (m.walk stack visited order).2) ∧
      visited ⊆ (m.walk stack visited order).1 := by
  induction stack, visited, order using walk.induct with
  | case1 visited order =>
    rw [walk]
    rw [List.map_nil, List.append_nil] at hnodup hmem
    exact ⟨hnodup, hmem, Finset.Subset.refl _⟩
  | case2 visited order id child next rest hold ih =>
    rw [walk, if_pos hold]
    exact ih hnodup hmem
  | case3 visited order id child next rest hnew ih =>
    rw [walk, if_neg hnew]
    rw [hmem] at hnew
    obtain ⟨hdone, hsame, hsub⟩ := ih (List.nodup_middle.2 (List.nodup_cons.2 ⟨hnew, hnodup⟩)) fun k => by
      rw [Finset.mem_insert, hmem]
      simp only [List.map_cons, List.mem_append, List.mem_cons]
      tauto
    exact ⟨hdone, hsame, fun k hk => hsub (Finset.mem_insert_of_mem hk)⟩
  | case4 visited order id rest ih =>
    rw [walk]
    exact ih (by rwa [List.append_assoc]) fun k => by rw [hmem, List.append_assoc]; rfl

theorem visit_spec {s : Finset m.Key × List m.Key} (hnodup : s.2.Nodup) (hmem : ∀ k, k ∈ s.1 ↔ k ∈ s.2)
    (root : m.Key) : (m.visit s root).2.Nodup ∧ (∀ k, k ∈ (m.visit s root).1 ↔ k ∈ (m.visit s root).2) ∧
      insert root s.1 ⊆ (m.visit s root).1 := by
  unfold visit
  split
  · rename_i hold
    exact ⟨hnodup, hmem, Finset.insert_subset hold (Finset.Subset.refl _)⟩
  · rename_i hnew
    refine walk_spec ?_ fun k => ?_
    · rw [hmem] at hnew
      show (s.2 ++ root :: []).Nodup
      rw [List.nodup_middle, List.append_nil]
      exact List.nodup_cons.2 ⟨hnew, hnodup⟩
    · rw [Finset.mem_insert, hmem, List.mem_append, List.map_singleton, List.mem_singleton]
      exact or_comm

theorem foldl_visit : ∀ (roots : List m.Key) {s : Finset m.Key × List m.Key}, s.2.Nodup →
    (∀ k, k ∈ s.1 ↔ k ∈ s.2) → (roots.foldl m.visit s).2.Nodup ∧
      ∀ k, k ∈ roots ∨ k ∈ s.2 → k ∈ (roots.foldl m.visit s).2
  | [], s, hnodup, _ => ⟨hnodup, fun k hk => hk.resolve_left List.not_mem_nil⟩
  | root :: roots, s, hnodup, hmem => by
    obtain ⟨hnodup', hmem', hsub⟩ := visit_spec hnodup hmem root
    obtain ⟨hdone, hall⟩ := foldl_visit roots hnodup' hmem'
    refine ⟨hdone, fun k hk => hall k ?_⟩
    rw [List.mem_cons] at hk
    rcases hk with (rfl | hk) | hk
    · exact .inr ((hmem' _).1 (hsub (Finset.mem_insert_self ..)))
    · exact .inl hk
    · exact .inr ((hmem' k).1 (hsub (Finset.mem_insert_of_mem ((hmem k).2 hk))))

theorem order_spec : m.order.Nodup ∧ ∀ k, k ∈ m.order := by
  obtain ⟨hnodup, hall⟩ := foldl_visit m.keys.attach (s := (∅, [])) .nil (by simp)
  exact ⟨hnodup, fun k => hall k (.inl (List.mem_attach _ k))⟩

/-! ## What a run keeps -/

def Retains {n : Nat} (r : Option (Fin n → Bool)) (i : Fin n) : Prop := ∀ found ∈ r, found i = true

theorem retains_none {n : Nat} {i : Fin n} : Retains none i := fun _ h => absurd h (Option.not_mem_none _)

def Below {arity : Nat → Nat} (f g : Facts arity) : Prop := ∀ id i, Retains (f id) i → Retains (g id) i

/-- What the check of a body finds depends on its callees only, and more facts about them give no fewer. -/
structure Sound (m : Module) : Prop where
  congr : ∀ id f g, (∀ callee, (id, callee) ∈ m.calls → f callee = g callee) → m.check id f = m.check id g
  mono : ∀ id f g, Below f g → ∀ i, Retains (m.check id f) i → Retains (m.check id g) i

def Closed (m : Module) (f : Facts m.arity) : Prop :=
  ∀ id i, Retains (m.retainedParameters id f) i → Retains (f id) i

def Starts (m : Module) (f : Facts m.arity) : Prop :=
  (∀ id ∉ m.keys, f id = none) ∧ ∀ id i, m.hidden id i = true → Retains (f id) i

theorem mem_callers {caller id : Nat} : caller ∈ m.callers id ↔ (caller, id) ∈ m.calls := by
  rw [callers, mem_treeSet, List.mem_map]
  simp only [List.mem_filter, decide_eq_true_eq]
  constructor
  · rintro ⟨call, ⟨hcall, rfl⟩, rfl⟩
    exact hcall
  · exact fun h => ⟨_, ⟨h, rfl⟩, rfl⟩

variable {id : Nat} {i : Fin (m.arity id)} {retained : (id : Nat) → Fin (m.arity id) → Bool}

theorem retains_view : Retains (m.view retained id) i ↔ (id ∈ m.keys → retained id i = true) := by
  unfold Retains view
  split <;> simp [*]

theorem raised_iff : m.raised retained id i = true ↔
    retained id i = true ∨ Retains (m.retainedParameters id (m.view retained)) i := by
  unfold raised Retains
  cases m.retainedParameters id (m.view retained) <;> simp

theorem Sound.retainedParameters_congr (hm : Sound m) {f g : Facts m.arity}
    (h : ∀ callee, (id, callee) ∈ m.calls → f callee = g callee) :
    m.retainedParameters id f = m.retainedParameters id g := by
  rw [Module.retainedParameters, Module.retainedParameters, hm.congr id f g h]

theorem Sound.retainedParameters_mono (hm : Sound m) {f g : Facts m.arity} (h : Below f g)
    (hf : Retains (m.retainedParameters id f) i) : Retains (m.retainedParameters id g) i := by
  unfold Module.retainedParameters at *
  split
  · exact retains_none
  · rw [if_neg ‹_›] at hf
    exact hm.mono id f g h i hf

/-- Between two turns: what is not in the work list was checked under facts below all closed facts. -/
structure Inv (s : m.State) : Prop where
  nodup : s.work.Nodup
  queued : ∀ id, id ∈ s.queued ↔ id ∈ s.work
  keyed : ∀ id ∈ s.work, id ∈ m.keys
  hidden : ∀ id i, m.hidden id i = true → s.retained id i = true
  checked : ∀ id ∈ m.keys, id ∉ s.work → ∀ i,
    Retains (m.retainedParameters id (m.view s.retained)) i → s.retained id i = true
  below : ∀ g, Closed m g → Starts m g → Below (m.view s.retained) g

theorem start_inv : Inv m.start where
  nodup := List.Nodup.map Subtype.val_injective order_spec.1
  queued _ := List.mem_toFinset
  keyed id h := by
    obtain ⟨k, -, rfl⟩ := List.mem_map.1 h
    exact k.2
  hidden _ _ h := h
  checked id hkey hnot := absurd (List.mem_map_of_mem (order_spec.2 ⟨id, hkey⟩)) hnot
  below g _ hstarts id i h := by
    by_cases hkey : id ∈ m.keys
    · exact hstarts.2 id i (retains_view.1 h hkey)
    · exact fun _ hsome => absurd ((hstarts.1 id hkey).symm.trans hsome) (Option.some_ne_none _).symm

theorem Inv.turn {s : m.State} {rest : List Nat} (hm : Sound m) (h : Inv s) (hwork : s.work = id :: rest) :
    Inv (m.turn s id rest) := by
  have hnodup := h.nodup
  have hqueued := h.queued
  rw [hwork] at hnodup hqueued
  obtain ⟨hid, hrest⟩ := List.nodup_cons.1 hnodup
  have hkeys : ∀ c ∈ rest, c ∈ m.keys := fun c hc => h.keyed c (hwork ▸ List.mem_cons_of_mem _ hc)
  have herase : ∀ c, c ∈ s.queued.erase id ↔ c ∈ rest := fun c => by
    rw [Finset.mem_erase, hqueued, List.mem_cons]
    constructor
    · exact fun hc => hc.2.resolve_left hc.1
    · exact fun hc => ⟨fun heq => hid (heq ▸ hc), .inr hc⟩
  have hold : ∀ c ∈ m.keys, c ∉ rest → c ≠ id → ∀ i,
      Retains (m.retainedParameters c (m.view s.retained)) i → s.retained c i = true := fun c hkey hc hne =>
    h.checked c hkey (by rw [hwork, List.mem_cons]; tauto)
  unfold Module.turn
  split
  · rename_i hsame
    refine ⟨hrest, herase, hkeys, h.hidden, fun c hkey hc i hi => ?_, h.below⟩
    by_cases hne : c = id
    · subst hne
      rw [hsame i]
      exact raised_iff.2 (.inr hi)
    · exact hold c hkey hc hne i hi
  · obtain ⟨heq, hnew, hmem, hall⟩ := m.fresh_spec (m.callers id) (s.queued.erase id)
    refine ⟨List.nodup_append.2 ⟨hrest, hnew, ?_⟩, fun c => ?_, fun c hc => ?_, fun c i hi => ?_, ?_, ?_⟩
    · rintro c hc d hd rfl
      exact (hmem c hd).2.2 ((herase c).2 hc)
    · rw [heq, Finset.mem_union, herase, List.mem_toFinset, List.mem_append]
    · exact (List.mem_append.1 hc).elim (hkeys c) fun hc => (hmem c hc).2.1
    · show Function.update s.retained id _ c i = true
      by_cases hne : c = id
      · subst hne
        rw [Function.update_self]
        exact raised_iff.2 (.inl (h.hidden c i hi))
      · rw [Function.update_of_ne hne]
        exact h.hidden c i hi
    · intro c hkey hc i hi
      -- A caller of the function would be in the work list.
      have hcall : (c, id) ∉ m.calls := fun hcall => by
        have hin := hall c (mem_callers.2 hcall) hkey
        rw [heq, Finset.mem_union, herase, List.mem_toFinset] at hin
        exact hc (List.mem_append.2 hin)
      have hview : m.retainedParameters c (m.view (Function.update s.retained id (m.raised s.retained id))) =
          m.retainedParameters c (m.view s.retained) :=
        hm.retainedParameters_congr fun callee hcallee => by
          have hne : callee ≠ id := fun heq => hcall (heq ▸ hcallee)
          rw [Module.view, Module.view, Function.update_of_ne hne]
      have hi' : Retains (m.retainedParameters c (m.view s.retained)) i := by
        rw [← hview]
        exact hi
      show Function.update s.retained id _ c i = true
      by_cases hne : c = id
      · subst hne
        rw [Function.update_self]
        exact raised_iff.2 (.inr hi')
      · rw [Function.update_of_ne hne]
        exact hold c hkey (fun hr => hc (List.mem_append_left _ hr)) hne i hi'
    · intro g hg hstarts c i hi
      by_cases hne : c = id
      · subst hne
        by_cases hkey : c ∈ m.keys
        · have hraised : Function.update s.retained c (m.raised s.retained c) c i = true := retains_view.1 hi hkey
          rw [Function.update_self] at hraised
          rcases raised_iff.1 hraised with hr | hr
          · exact h.below g hg hstarts c i (retains_view.2 fun _ => hr)
          · exact hg c i (hm.retainedParameters_mono (h.below g hg hstarts) hr)
        · exact h.below g hg hstarts c i (retains_view.2 fun hk => absurd hk hkey)
      · refine h.below g hg hstarts c i (retains_view.2 fun hkey => ?_)
        have hkept : Function.update s.retained id (m.raised s.retained id) c i = true := retains_view.1 hi hkey
        rwa [Function.update_of_ne hne] at hkept

theorem Inv.run (hm : Sound m) : ∀ (budget : Nat) {s : m.State}, Inv s → Inv (m.run budget s)
  | 0, s, h => h
  | budget + 1, s, h => by
    rw [Module.run]
    split
    · exact h
    · rename_i id rest hwork
      exact Inv.run hm budget (h.turn hm hwork)

def temporary (m : Module) (retained : (id : Nat) → Fin (m.arity id) → Bool) : Nat :=
  ∑ id ∈ m.keys.toFinset, (Finset.univ.filter fun i => retained id i = false).card

def left (m : Module) (s : m.State) : Nat :=
  m.temporary s.retained * (m.keys.length + 1) + s.work.length

theorem temporary_update (hkey : id ∈ m.keys) (h : ¬∀ i, retained id i = m.raised retained id i) :
    m.temporary (Function.update retained id (m.raised retained id)) < m.temporary retained := by
  have hlt : (Finset.univ.filter fun i => m.raised retained id i = false) ⊂
      Finset.univ.filter fun i => retained id i = false := by
    obtain ⟨i, hi⟩ := not_forall.1 h
    refine ⟨fun j hj => ?_, fun hsub => hi ?_⟩
    · simp only [Finset.mem_filter, Finset.mem_univ, true_and, Bool.eq_false_iff] at hj ⊢
      exact fun hr => hj (raised_iff.2 (.inl hr))
    · cases hr : retained id i with
      | false => exact (Finset.mem_filter.1 (hsub (Finset.mem_filter.2 ⟨Finset.mem_univ i, hr⟩))).2.symm
      | true => exact (raised_iff.2 (.inl hr)).symm
  refine Finset.sum_lt_sum (fun c _ => ?_) ⟨id, List.mem_toFinset.2 hkey, ?_⟩
  · by_cases hne : c = id
    · subst hne
      rw [Function.update_self]
      exact (Finset.card_lt_card hlt).le
    · rw [Function.update_of_ne hne]
  · rw [Function.update_self]
    exact Finset.card_lt_card hlt

theorem Inv.turn_left {s : m.State} {rest : List Nat} (hm : Sound m) (h : Inv s) (hwork : s.work = id :: rest) :
    m.left (m.turn s id rest) < m.left s := by
  have hturn := h.turn hm hwork
  have hlen : (m.turn s id rest).work.length ≤ m.keys.length :=
    (List.subperm_of_subset hturn.nodup hturn.keyed).length_le
  unfold left
  by_cases hsame : ∀ i, s.retained id i = m.raised s.retained id i
  · rw [Module.turn, if_pos hsame, hwork]
    exact Nat.add_lt_add_left (Nat.lt_succ_self _) _
  · have htemp : m.temporary (m.turn s id rest).retained < m.temporary s.retained := by
      rw [Module.turn, if_neg hsame]
      exact temporary_update (h.keyed id (hwork ▸ List.mem_cons_self)) hsame
    calc m.temporary (m.turn s id rest).retained * (m.keys.length + 1) + (m.turn s id rest).work.length
      _ < m.temporary (m.turn s id rest).retained * (m.keys.length + 1) + (m.keys.length + 1) :=
        Nat.add_lt_add_left (Nat.lt_succ_of_le hlen) _
      _ = (m.temporary (m.turn s id rest).retained + 1) * (m.keys.length + 1) := (Nat.succ_mul ..).symm
      _ ≤ m.temporary s.retained * (m.keys.length + 1) := Nat.mul_le_mul_right _ htemp
      _ ≤ m.temporary s.retained * (m.keys.length + 1) + s.work.length := Nat.le_add_right ..

theorem Inv.run_empties (hm : Sound m) : ∀ (budget : Nat) {s : m.State}, Inv s → m.left s ≤ budget →
    (m.run budget s).work = []
  | 0, s, _, hleft => List.eq_nil_of_length_eq_zero (Nat.le_zero.1 ((Nat.le_add_left ..).trans hleft))
  | budget + 1, s, h, hleft => by
    rw [Module.run]
    split
    · rename_i hnil
      exact hnil
    · rename_i id rest hwork
      exact Inv.run_empties hm budget (h.turn hm hwork) (Nat.le_of_lt_succ ((h.turn_left hm hwork).trans_le hleft))

/-! ## The facts that are given up -/

def Feeds (m : Module) (callee caller : Nat) : Prop := (caller, callee) ∈ m.calls ∧ caller ∈ m.keys

def Pending (m : Module) (s : m.State) (id : Nat) : Prop :=
  ∃ pending ∈ s.work, Relation.ReflTransGen m.Feeds pending id

theorem unsettle_spec {pending : List Nat} {unsettled : Finset Nat} (hpending : ∀ c ∈ pending, c ∈ unsettled)
    (h : ∀ c ∈ unsettled, c ∈ pending ∨ ∀ caller, m.Feeds c caller → caller ∈ unsettled) :
    unsettled ⊆ m.unsettle pending unsettled ∧
      (∀ c ∈ m.unsettle pending unsettled, ∀ caller, m.Feeds c caller → caller ∈ m.unsettle pending unsettled) ∧
      ∀ c ∈ m.unsettle pending unsettled, ∃ p ∈ unsettled, Relation.ReflTransGen m.Feeds p c := by
  induction pending, unsettled using unsettle.induct m with
  | case1 unsettled =>
    rw [unsettle]
    exact ⟨Finset.Subset.refl _, fun c hc => (h c hc).resolve_left List.not_mem_nil, fun c hc => ⟨c, hc, .refl⟩⟩
  | case2 unsettled callee rest ih =>
    rw [unsettle]
    obtain ⟨heq, -, hmem, hall⟩ := m.fresh_spec (m.callers callee) unsettled
    have hold : unsettled ⊆ (m.fresh (m.callers callee) unsettled).2 := by
      rw [heq]
      exact Finset.subset_union_left
    have hnext : ∀ c ∈ (m.fresh (m.callers callee) unsettled).1.reverse ++ rest,
        c ∈ (m.fresh (m.callers callee) unsettled).2 := by
      intro c hc
      rcases List.mem_append.1 hc with hc | hc
      · rw [heq]
        exact Finset.mem_union_right _ (List.mem_toFinset.2 (List.mem_reverse.1 hc))
      · exact hold (hpending c (List.mem_cons_of_mem _ hc))
    have hdone : ∀ c ∈ (m.fresh (m.callers callee) unsettled).2,
        c ∈ (m.fresh (m.callers callee) unsettled).1.reverse ++ rest ∨
          ∀ caller, m.Feeds c caller → caller ∈ (m.fresh (m.callers callee) unsettled).2 := by
      intro c hc
      rw [heq, Finset.mem_union, List.mem_toFinset] at hc
      rcases hc with hc | hc
      · rcases h c hc with hp | hdone
        · rcases List.mem_cons.1 hp with rfl | hp
          · exact .inr fun caller hf => hall caller (mem_callers.2 hf.1) hf.2
          · exact .inl (List.mem_append_right _ hp)
        · exact .inr fun caller hf => hold (hdone caller hf)
      · exact .inl (List.mem_append_left _ (List.mem_reverse.2 hc))
    obtain ⟨hsub, hup, hreach⟩ := ih hnext hdone
    refine ⟨hold.trans hsub, hup, fun c hc => ?_⟩
    obtain ⟨p, hp, hpc⟩ := hreach c hc
    rw [heq, Finset.mem_union, List.mem_toFinset] at hp
    rcases hp with hp | hp
    · exact ⟨p, hp, hpc⟩
    · have hfeeds : m.Feeds callee p := ⟨mem_callers.1 (hmem p hp).1, (hmem p hp).2.1⟩
      exact ⟨callee, hpending callee List.mem_cons_self, .head hfeeds hpc⟩

theorem mem_unsettle {unsettled : Finset Nat} {c : Nat} : c ∈ m.unsettle (unsettled.sort (· ≤ ·)).reverse unsettled ↔
      ∃ p ∈ unsettled, Relation.ReflTransGen m.Feeds p c := by
  have hsort : ∀ c, c ∈ (unsettled.sort (· ≤ ·)).reverse ↔ c ∈ unsettled := fun c => by
    rw [List.mem_reverse, Finset.mem_sort]
  obtain ⟨hsub, hup, hreach⟩ :=
    unsettle_spec (m := m) (fun c => (hsort c).1) fun c hc => .inl ((hsort c).2 hc)
  refine ⟨hreach c, ?_⟩
  rintro ⟨p, hp, hpc⟩
  induction hpc with
  | refl => exact hsub hp
  | tail _ hf ih => exact hup _ ih _ hf

theorem settle_cases {s : m.State} (h : Inv s) (id : Nat) :
    m.Pending s id ∧ m.settle s id = none ∨ ¬m.Pending s id ∧ m.settle s id = m.view s.retained id := by
  cases hwork : s.work with
  | nil =>
    refine .inr ⟨?_, by simp only [settle, hwork]⟩
    rintro ⟨p, hp, -⟩
    rw [hwork] at hp
    exact List.not_mem_nil hp
  | cons next rest =>
    have heq : m.settle s id = if id ∈ m.unsettle (s.queued.sort (· ≤ ·)).reverse s.queued then none
        else m.view s.retained id := by
      simp only [settle, hwork]
    have hmem : id ∈ m.unsettle (s.queued.sort (· ≤ ·)).reverse s.queued ↔ m.Pending s id :=
      mem_unsettle.trans (exists_congr fun p => and_congr_left fun _ => h.queued p)
    rw [heq, ← hmem]
    by_cases hid : id ∈ m.unsettle (s.queued.sort (· ≤ ·)).reverse s.queued
    · exact .inl ⟨hid, if_pos hid⟩
    · exact .inr ⟨hid, if_neg hid⟩

theorem Inv.closed {s : m.State} (hm : Sound m) (h : Inv s) : Closed m (m.settle s) := by
  intro id i hi
  rcases settle_cases h id with ⟨-, hnone⟩ | ⟨hsettled, heq⟩
  · rw [hnone]
    exact retains_none
  · rw [heq]
    refine retains_view.2 fun hkey => h.checked id hkey (fun hw => hsettled ⟨id, hw, .refl⟩) i ?_
    have hsame : m.retainedParameters id (m.settle s) = m.retainedParameters id (m.view s.retained) :=
      hm.retainedParameters_congr fun callee hcall => by
        rcases settle_cases h callee with ⟨⟨p, hp, hreach⟩, -⟩ | ⟨-, hview⟩
        · exact absurd ⟨p, hp, hreach.tail ⟨hcall, hkey⟩⟩ hsettled
        · exact hview
    rw [← hsame]
    exact hi

theorem Inv.starts {s : m.State} (h : Inv s) : Starts m (m.settle s) := by
  refine ⟨fun id hkey => ?_, fun id i hi => ?_⟩
  · rcases settle_cases h id with ⟨-, hnone⟩ | ⟨-, heq⟩
    · exact hnone
    · rw [heq]
      exact if_neg hkey
  · rcases settle_cases h id with ⟨-, hnone⟩ | ⟨-, heq⟩
    · rw [hnone]
      exact retains_none
    · rw [heq]
      exact retains_view.2 fun _ => h.hidden id i hi

/-- The least facts that no check of a body contradicts. -/
structure Least (m : Module) (f : Facts m.arity) : Prop where
  closed : Closed m f
  starts : Starts m f
  below : ∀ g, Closed m g → Starts m g → Below f g

theorem within_closed (hm : Sound m) (budget : Option Nat) :
    Closed m (m.parameterRetentionWithin budget) ∧ Starts m (m.parameterRetentionWithin budget) := by
  unfold parameterRetentionWithin
  split
  · exact ⟨fun _ _ _ => retains_none, fun _ _ => rfl, fun _ _ _ => retains_none⟩
  · exact ⟨(Inv.run hm _ start_inv).closed hm, (Inv.run hm _ start_inv).starts⟩

theorem within_below (hm : Sound m) {budget : Nat} (hwork : (m.run budget m.start).work = []) (g : Facts m.arity)
    (hg : Closed m g) (hstarts : Starts m g) : Below (m.parameterRetentionWithin (some budget)) g := by
  intro id i hi
  unfold parameterRetentionWithin at hi
  split at hi
  · rename_i huntracked
    refine hg id i ?_
    rw [Module.retainedParameters, if_pos (by rw [huntracked, Bool.true_or])]
    exact retains_none
  · have hinv := Inv.run hm budget start_inv
    rcases settle_cases hinv id with ⟨⟨p, hp, -⟩, -⟩ | ⟨-, heq⟩
    · rw [hwork] at hp
      exact absurd hp List.not_mem_nil
    · refine hinv.below g hg hstarts id i ?_
      rw [← heq]
      exact hi

theorem within_none (hm : Sound m) (budget : Option Nat) (hkey : id ∈ m.keys) :
    m.parameterRetentionWithin budget id = none ↔
      m.untracked = true ∨ m.Pending (m.run (m.turns budget) m.start) id := by
  unfold parameterRetentionWithin
  split
  · rename_i huntracked
    exact iff_of_true rfl (.inl huntracked)
  · rename_i hneg
    rw [or_iff_right hneg]
    rcases settle_cases (Inv.run hm (m.turns budget) start_inv) id with ⟨hpending, hnone⟩ | ⟨hsettled, heq⟩
    · exact iff_of_true hnone hpending
    · refine iff_of_false ?_ hsettled
      rw [heq, view, if_pos hkey]
      exact Option.some_ne_none _

/-- With any budget the facts are closed and no less than the least ones, which they are with enough. The
functions given up are those that the facts of one still to check flow into. -/
theorem retention_closed (hm : Sound m) : (∃ enough, ∀ budget, enough ≤ budget →
      (m.run budget m.start).work = [] ∧ Least m (m.parameterRetentionWithin (some budget))) ∧
    ∀ budget, Closed m (m.parameterRetentionWithin budget) ∧ Starts m (m.parameterRetentionWithin budget) ∧
      (∀ least, Least m least → Below least (m.parameterRetentionWithin budget)) ∧
      ∀ id ∈ m.keys, m.parameterRetentionWithin budget id = none ↔
        m.untracked = true ∨ m.Pending (m.run (m.turns budget) m.start) id := by
  refine ⟨⟨m.left m.start, fun budget hle => ?_⟩, fun budget => ?_⟩
  · have hwork := Inv.run_empties hm budget start_inv hle
    exact ⟨hwork, (within_closed hm _).1, (within_closed hm _).2, within_below hm hwork⟩
  · obtain ⟨hclosed, hstarts⟩ := within_closed hm budget
    exact ⟨hclosed, hstarts, fun least hleast => hleast.below _ hclosed hstarts,
      fun id hkey => within_none hm budget hkey⟩

def twins : Module where
  arity _ := 1
  calls := [(0, 1), (1, 0)]
  hidden id _ := id = 0
  untracked := false
  noFacts _ := false
  check id f := if id < 2 then f (1 - id) else some fun _ => false

theorem twins_sound : Sound twins where
  congr id f g h := by
    show (if id < 2 then f (1 - id) else some fun _ => false) = if id < 2 then g (1 - id) else some fun _ => false
    split
    · refine h (1 - id) ?_
      obtain rfl | rfl : id = 0 ∨ id = 1 := by omega
      · decide
      · decide
    · rfl
  mono id f g h i hi := by
    change Retains (if id < 2 then f (1 - id) else some fun _ => false) i at hi
    show Retains (if id < 2 then g (1 - id) else some fun _ => false) i
    split
    · rw [if_pos ‹_›] at hi
      exact h (1 - id) i hi
    · rw [if_neg ‹_›] at hi
      exact hi

theorem retention_closed_twins : Closed twins (twins.parameterRetentionWithin (some 1)) ∧
    ∃ enough, Least twins (twins.parameterRetentionWithin (some enough)) := by
  obtain ⟨⟨enough, hleast⟩, hclosed⟩ := retention_closed twins_sound
  exact ⟨(hclosed (some 1)).1, enough, (hleast enough (Nat.le_refl _)).2⟩

end Module

end Tsuzuri.Retention
