import Tsuzuri.RecursiveSound

/-!
# The memo of recursive types

What an analysis stores is what an analysis of its own would find, but a cycle of records is rejected only if the
search closes it on its way.
-/

namespace Tsuzuri.Recursive

open Relation Components List

variable {types : TypeContext} {root : Ty}

/-! ## One analysis -/

theorem isNominal_of_mem_heads {c : Ty} (ty : Ty) (h : c ∈ heads ty) : isNominal c = true := by
  induction hsize : sizeOf ty using Nat.strongRecOn generalizing ty with
  | ind n ih =>
    subst hsize
    cases ty with
    | record id args =>
      obtain rfl := mem_singleton.1 (show c ∈ [Ty.record id args] by simpa [heads] using h)
      rfl
    | union id args =>
      obtain rfl := mem_singleton.1 (show c ∈ [Ty.union id args] by simpa [heads] using h)
      rfl
    | array inner => exact ih _ (by rw [Ty.array.sizeOf_spec]; omega) inner (by simpa [heads] using h) rfl
    | list inner => exact ih _ (by rw [Ty.list.sizeOf_spec]; omega) inner (by simpa [heads] using h) rfl
    | vec inner => exact ih _ (by rw [Ty.vec.sizeOf_spec]; omega) inner (by simpa [heads] using h) rfl
    | fixedArray inner length =>
      exact ih _ (by rw [Ty.fixedArray.sizeOf_spec]; omega) inner (by simpa [heads] using h) rfl
    | shared inner kind => exact ih _ (by rw [Ty.shared.sizeOf_spec]; omega) inner (by simpa [heads] using h) rfl
    | tuple elements =>
      obtain ⟨element, he, hc⟩ := mem_headsAll.1 (show c ∈ headsAll elements by simpa [heads] using h)
      refine ih _ ?_ element hc rfl
      have := sizeOf_lt_of_mem he
      rw [Ty.tuple.sizeOf_spec]
      omega
    | _ => simp [heads] at h

variable {ty : Ty} {entries : List (Ty × Bool)} {flag : Bool} {s : System} {i : Nat} {v : Answer}
  {a : Act} {es : List Event}

theorem isNominal_of_reach (hnominal : isNominal root = true) (h : Reach (edges types) root ty) :
    isNominal ty = true := by
  induction h with
  | refl => exact hnominal
  | tail _ hedge _ =>
    obtain ⟨field, -, hc⟩ := mem_headsAll.1 hedge
    exact isNominal_of_mem_heads field hc

theorem lookup_map {f : Ty → Bool} : ∀ {nodes : List Ty}, ty ∈ nodes →
    (nodes.map fun node => (node, f node)).lookup ty = some (f ty)
  | node :: nodes, h => by
    rw [map_cons, lookup_cons]
    by_cases heq : ty = node
    · subst heq
      simp
    · rw [beq_false_of_ne heq]
      exact lookup_map ((mem_cons.1 h).resolve_left heq)

structure Analyzed (types : TypeContext) (root : Ty) (entries : List (Ty × Bool)) : Prop where
  entry : ∀ ty flag, (ty, flag) ∈ entries → Reach (edges types) root ty ∧ (flag = true ↔ OnCycle (edges types) ty)
  own : ∃ flag, entries.lookup root = some flag ∧ (flag = true ↔ OnCycle (edges types) root)
  value : ∀ ty, Reach (edges types) root ty → OnCycle (edges types) ty → HasValue types ty

theorem analyze_spec (hnominal : isNominal root = true) :
    (∀ entries, analyze types root = .ok entries → Analyzed types root entries) ∧ ∀ e, analyze types root = .error e →
        (e = .infinite → ReachesUnguarded types root) ∧ (e = .changes → genericDeclaration types root = true) ∧
          (e = .noBaseCase → ∃ ty, Reach (edges types) root ty ∧ OnCycle (edges types) ty ∧ ¬HasValue types ty) := by
  have hstart : Inv types root (.start root) := inv_start hnominal
  obtain ⟨hok, herror⟩ := hstart.run
  unfold analyze
  split
  · rename_i e hrun
    refine ⟨fun entries h => (by cases h), fun e' h => ?_⟩
    obtain rfl := Except.error.inj h
    obtain ⟨g, hinv, hstep⟩ := herror e hrun
    obtain ⟨hinfinite, hchanges, hbase⟩ := hinv.error hstep
    refine ⟨hinfinite, fun he => ?_, fun he => absurd he hbase⟩
    by_contra hnot
    exact hchanges he (if_neg hnot)
  · rename_i g hrun
    obtain ⟨hinv, hpending⟩ := hok g hrun
    have hnodes : ∀ {ty : Ty}, ty ∈ g.nodes ↔ Reach (edges types) root ty := hinv.mem_nodes hpending
    have hclosed : ∀ node ∈ g.nodes, ∀ c ∈ edges types node, c ∈ g.nodes := fun node hnode c hc =>
      hnodes.2 ((hnodes.1 hnode).tail hc)
    have hnom : ∀ node ∈ g.nodes, isNominal node = true := fun node hnode =>
      isNominal_of_reach hnominal (hnodes.1 hnode)
    have hcyclic : ∀ ty, ty ∈ cyclic (edges types) g.nodes g.recursive ↔ ty ∈ g.nodes ∧ OnCycle (edges types) ty := by
      intro ty
      rw [mem_cyclic hclosed]
      exact or_iff_right_of_imp (hinv.recursive ty)
    unfold Graph.finish
    dsimp only
    split
    · rename_i hany
      refine ⟨fun entries h => (by cases h), fun e h => ?_⟩
      obtain rfl := Except.error.inj h
      refine ⟨fun he => (by cases he), fun he => (by cases he), fun _ => ?_⟩
      obtain ⟨ty, hty, hnot⟩ := any_eq_true.1 hany
      obtain ⟨hnode, hcycle⟩ := (hcyclic ty).1 hty
      exact ⟨ty, hnodes.1 hnode, hcycle, fun hvalue =>
        of_decide_eq_true hnot ((mem_inhabited hnom hclosed hnode).2 hvalue)⟩
    · rename_i hany
      refine ⟨fun entries h => ?_, fun e h => (by cases h)⟩
      obtain rfl := Except.ok.inj h
      have hflag : ∀ ty ∈ g.nodes, (decide (ty ∈ cyclic (edges types) g.nodes g.recursive) = true ↔
          OnCycle (edges types) ty) := fun ty hty => by
        rw [decide_eq_true_iff, hcyclic, and_iff_right hty]
      have hroot : root ∈ g.nodes := hnodes.2 .refl
      refine ⟨fun ty flag hentry => ?_, ⟨_, lookup_map hroot, hflag root hroot⟩, fun ty hreach hcycle => ?_⟩
      · obtain ⟨node, hnode, heq⟩ := mem_map.1 hentry
        cases heq
        exact ⟨hnodes.1 hnode, hflag _ hnode⟩
      · by_contra hnot
        refine hany (any_eq_true.2 ⟨ty, (hcyclic ty).2 ⟨hnodes.2 hreach, hcycle⟩, decide_eq_true fun hmem => ?_⟩)
        exact hnot ((mem_inhabited hnom hclosed (hnodes.2 hreach)).1 hmem)

theorem exists_entry (hnominal : isNominal root = true) (h : analyze types root = .ok entries)
    (hreach : Reach (edges types) root ty) : ∃ flag, (ty, flag) ∈ entries := by
  unfold analyze at h
  split at h
  · cases h
  · rename_i g hrun
    obtain ⟨hinv, hpending⟩ := (inv_start hnominal).run.1 g hrun
    unfold Graph.finish at h
    dsimp only at h
    split at h
    · cases h
    · obtain rfl := Except.ok.inj h
      exact ⟨_, mem_map_of_mem ((hinv.mem_nodes hpending).2 hreach)⟩

/-- The entries are the types that the root reaches. -/
structure Classified (types : TypeContext) (root : Ty) (entries : List (Ty × Bool)) : Prop where
  reached : ∀ ty, (∃ flag, (ty, flag) ∈ entries) ↔ Reach (edges types) root ty
  flagged : ∀ ty flag, (ty, flag) ∈ entries → (flag = true ↔ OnCycle (edges types) ty)
  value : ∀ ty, (ty, true) ∈ entries → HasValue types ty

/-- The analysis of a type classifies what it reaches, and misses a base case only where a type that would be flagged
has no finite value. -/
theorem analyze_classifies (types : TypeContext) (root : Ty) (hnominal : isNominal root = true) :
    (∀ entries, analyze types root = .ok entries → Classified types root entries) ∧
      (analyze types root = .error .noBaseCase →
        ∃ ty, Reach (edges types) root ty ∧ OnCycle (edges types) ty ∧ ¬HasValue types ty) := by
  obtain ⟨hok, herror⟩ := @analyze_spec types root hnominal
  refine ⟨fun entries h => ?_, fun h => (herror _ h).2.2 rfl⟩
  have hanalyzed := hok entries h
  refine ⟨fun ty => ⟨?_, exists_entry hnominal h⟩, fun ty flag hentry => (hanalyzed.entry ty flag hentry).2,
    fun ty hentry => ?_⟩
  · rintro ⟨flag, hentry⟩
    exact (hanalyzed.entry ty flag hentry).1
  · obtain ⟨hreach, hcycle⟩ := hanalyzed.entry ty true hentry
    exact hanalyzed.value ty hreach (hcycle.1 rfl)

def verdict (types : TypeContext) (ty : Ty) : Answer :=
  if isNominal ty then
    match analyze types ty with
    | .ok entries => .ok ((entries.lookup ty).getD false)
    | .error e => .error e.kind
  else .ok false

def WithinLimits (types : TypeContext) (ty : Ty) : Prop := ∀ e, analyze types ty = .error e → e.isLimit = false

theorem verdict_of_ok (hnominal : isNominal ty = true) (h : analyze types ty = .ok entries) :
    verdict types ty = .ok ((entries.lookup ty).getD false) := by
  rw [verdict, if_pos hnominal, h]

theorem verdict_of_error (hnominal : isNominal ty = true) {e : Failure} (h : analyze types ty = .error e) :
    verdict types ty = .error e.kind := by
  rw [verdict, if_pos hnominal, h]

theorem Analyzed.verdict_eq (h : Analyzed types root entries) (hnominal : isNominal root = true)
    (hentry : (ty, flag) ∈ entries) (hgeneric : genericDeclaration types ty = false)
    (hguarded : ¬ReachesUnguarded types ty) (hlimits : WithinLimits types ty) : verdict types ty = .ok flag := by
  obtain ⟨hreach, hflag⟩ := h.entry ty flag hentry
  have htnominal := isNominal_of_reach hnominal hreach
  obtain ⟨hok, herror⟩ := analyze_spec htnominal
  cases hanalyze : analyze types ty with
  | ok own =>
    obtain ⟨flag', hlookup, hflag'⟩ := (hok own hanalyze).own
    rw [verdict_of_ok htnominal hanalyze, hlookup, Option.getD_some, Bool.eq_iff_iff.2 (hflag'.trans hflag.symm)]
  | error e =>
    obtain ⟨hinfinite, hchanges, hbase⟩ := herror e hanalyze
    have hlimit := hlimits e hanalyze
    cases e with
    | infinite => exact absurd (hinfinite rfl) hguarded
    | changes => exact absurd (hchanges rfl) (by simp [hgeneric])
    | noBaseCase =>
      obtain ⟨node, hnode, hcycle, hnone⟩ := hbase rfl
      exact absurd (h.value node (hreach.trans hnode) hcycle) hnone
    | growing | expansion | polymorphic => cases hlimit

/-! ## Runs -/

/-- The condition on a step: a query is within the limits, and where an analysis stores an answer for another type, no
cycle without a union or a shared pointer is reached from it. Nothing is stored for another generic declaration. -/
def Met (types : TypeContext) (s : System) : Act → Prop
  | .query _ ty => WithinLimits types ty
  | .store i k => ∀ ty result entries node flag, s.threads i = .storing ty result entries →
      entries[k]? = some (node, flag) → node ≠ ty → genericDeclaration types node = false →
      ¬ReachesUnguarded types node
  | .analyze _ | .answer _ => True

def Thread.Right (types : TypeContext) : Thread → Prop
  | .idle => True
  | .missed ty => isNominal ty = true
  | .storing ty result entries => isNominal ty = true ∧ verdict types ty = .ok result ∧
      ∃ all, Analyzed types ty all ∧ all.lookup ty = some result ∧ ∀ entry ∈ entries, entry ∈ all
  | .failed ty kind => verdict types ty = .error kind

structure System.Right (types : TypeContext) (s : System) : Prop where
  memo : ∀ ty v, (ty, v) ∈ s.memo → WithinLimits types ty → v = verdict types ty
  threads : ∀ i, (s.threads i).Right types

theorem System.Right.goto (h : s.Right types) {thread : Thread} (ht : thread.Right types) :
    (s.goto i thread).Right types := by
  refine ⟨h.memo, fun j => ?_⟩
  show (Function.update s.threads i thread j).Right types
  by_cases hj : j = i
  · rw [hj, Function.update_self]
    exact ht
  · rw [Function.update_of_ne hj]
    exact h.threads j

theorem System.Right.insert (h : s.Right types) (hv : WithinLimits types ty → v = verdict types ty) :
    System.Right types { s with memo := (ty, v) :: s.memo } := by
  refine ⟨fun ty' v' hmem hlimits => ?_, h.threads⟩
  rcases mem_cons.1 hmem with heq | hmem
  · cases heq
    exact hv hlimits
  · exact h.memo ty' v' hmem hlimits

theorem System.Right.store (h : s.Right types) {k : Nat} {node : Ty} {result : Bool}
    (hthread : s.threads i = .storing ty result entries) (hentry : entries[k]? = some (node, flag))
    (hmet : Met types s (.store i k)) : Thread.Right types (.storing ty result (entries.eraseIdx k)) ∧
      (¬(node ≠ ty && genericDeclaration types node) = true → WithinLimits types node →
        verdict types node = .ok flag) := by
  have hright := h.threads i
  rw [hthread] at hright
  obtain ⟨hnominal, hverdict, all, hanalyzed, hlookup, hsub⟩ := hright
  have hmem : (node, flag) ∈ all := hsub _ (mem_of_getElem? hentry)
  refine ⟨⟨hnominal, hverdict, all, hanalyzed, hlookup, fun e he => hsub e (mem_of_mem_eraseIdx he)⟩, ?_⟩
  intro hcond hlimits
  by_cases heq : node = ty
  · subst heq
    have hflag := (hanalyzed.entry node flag hmem).2
    obtain ⟨flag', hlookup', hflag'⟩ := hanalyzed.own
    obtain rfl := Option.some.inj (hlookup.symm.trans hlookup')
    rw [hverdict, Bool.eq_iff_iff.2 (hflag'.trans hflag.symm)]
  · have hgeneric : genericDeclaration types node = false := by
      simpa [heq] using hcond
    exact hanalyzed.verdict_eq hnominal hmem hgeneric (hmet _ _ _ _ _ hthread hentry heq hgeneric) hlimits

theorem System.Right.step {t : System} (h : s.Right types) (hmet : Met types s a)
    (hstep : step types s a = some (t, es)) : t.Right types ∧ ∀ ty v, (ty, v) ∈ es → v = verdict types ty := by
  have hnone : ∀ ty v, ((ty, v) : Event) ∈ [] → v = verdict types ty := fun _ _ hmem => absurd hmem not_mem_nil
  have hone : ∀ {ty v}, v = verdict types ty → ∀ ty' v', ((ty', v') : Event) ∈ [(ty, v)] → v' = verdict types ty' := by
    intro ty v hv ty' v' hmem
    obtain ⟨rfl, rfl⟩ := Prod.mk.inj (mem_singleton.1 hmem)
    exact hv
  cases a with
  | query i ty =>
    unfold Recursive.step at hstep
    dsimp only at hstep
    split at hstep
    · split at hstep
      · rename_i hnominal
        split at hstep
        · rename_i v hlookup
          cases hstep
          have hmem : (ty, v) ∈ s.memo := by
            obtain ⟨before, after, heq, -⟩ := lookup_eq_some_iff.mp hlookup
            simp [heq]
          exact ⟨h, hone (h.memo ty v hmem hmet)⟩
        · cases hstep
          exact ⟨h.goto hnominal, hnone⟩
      · rename_i hnominal
        cases hstep
        exact ⟨h, hone (by rw [verdict, if_neg hnominal])⟩
    · cases hstep
  | analyze i =>
    unfold Recursive.step at hstep
    dsimp only at hstep
    split at hstep
    · rename_i ty hthread
      have hnominal : isNominal ty = true := by
        have := h.threads i
        rwa [hthread] at this
      split at hstep
      · rename_i entries hanalyze
        cases hstep
        have hanalyzed := (analyze_spec hnominal).1 entries hanalyze
        obtain ⟨flag, hlookup, -⟩ := hanalyzed.own
        refine ⟨h.goto ⟨hnominal, verdict_of_ok hnominal hanalyze, entries, hanalyzed, ?_, fun _ he => he⟩, hnone⟩
        rw [hlookup, Option.getD_some]
      · rename_i e hanalyze
        cases hstep
        exact ⟨h.goto (verdict_of_error hnominal hanalyze), hnone⟩
    · cases hstep
  | store i k =>
    unfold Recursive.step at hstep
    dsimp only at hstep
    split at hstep
    · rename_i ty result entries hthread
      split at hstep
      · rename_i node flag hentry
        obtain ⟨hthread', hverdict⟩ := h.store hthread hentry hmet
        split at hstep
        · cases hstep
          exact ⟨h.goto hthread', hnone⟩
        · rename_i hcond
          cases hstep
          exact ⟨(h.goto hthread').insert fun hlimits => (hverdict hcond hlimits).symm, hnone⟩
      · cases hstep
    · cases hstep
  | answer i =>
    unfold Recursive.step at hstep
    dsimp only at hstep
    have hright := h.threads i
    split at hstep
    · rename_i ty result hthread
      cases hstep
      rw [hthread] at hright
      exact ⟨h.goto (show Thread.Right types .idle from trivial), hone hright.2.1.symm⟩
    · rename_i ty kind hthread
      cases hstep
      rw [hthread] at hright
      exact ⟨(h.goto (show Thread.Right types .idle from trivial)).insert fun _ => hright.symm, hone hright.symm⟩
    · cases hstep

theorem run_right (h : Transition.RunWhen (step types) (Met types) start es s) :
    s.Right types ∧ ∀ ty v, (ty, v) ∈ es → v = verdict types ty := by
  refine h.invariant (P := fun es s => s.Right types ∧ ∀ ty v, (ty, v) ∈ es → v = verdict types ty) ?_ ?_
  · exact ⟨⟨fun _ _ hmem => absurd hmem not_mem_nil, fun _ => trivial⟩, fun _ _ hmem => absurd hmem not_mem_nil⟩
  · rintro es es' t u a ⟨hright, hanswers⟩ hmet hstep
    obtain ⟨hright', hnew⟩ := hright.step hmet hstep
    refine ⟨hright', fun ty v hmem => ?_⟩
    rcases mem_append.1 hmem with hmem | hmem
    · exact hanswers ty v hmem
    · exact hnew ty v hmem

/-- Two runs of queries, of any threads and in any order, give a type the same answer: that of a first query. -/
theorem answers_agree {es es' : List Event} {s s' : System} {ty : Ty} {v v' : Answer}
    (h : Transition.RunWhen (step types) (Met types) start es s)
    (h' : Transition.RunWhen (step types) (Met types) start es' s') (hv : (ty, v) ∈ es) (hv' : (ty, v') ∈ es') :
    v = v' ∧ v = verdict types ty := by
  have hfirst := (run_right h).2 ty v hv
  exact ⟨hfirst.trans ((run_right h').2 ty v' hv').symm, hfirst⟩

/-! ## A list, and a cycle that is seen from one side -/

/-- `union Tail = Nil | Cons of Cell`, `record Cell { tail: Tail }` -/
def listTypes : TypeContext where
  records := [⟨"Cell", [], [("tail", .union 0 [])], false⟩]
  unions := [⟨"Tail", [], [("Nil", none), ("Cons", some (.record 0 []))], false⟩]

/-- `union U = End | Of of B`, `record A { u: U, b: [B] }`, `record B { a: A }` -/
def mixedTypes : TypeContext where
  records := [⟨"A", [], [("u", .union 0 []), ("b", .array (.record 1 []))], false⟩,
    ⟨"B", [], [("a", .record 0 [])], false⟩]
  unions := [⟨"U", [], [("End", none), ("Of", some (.record 1 []))], false⟩]

theorem analyzeFor_samples :
    (analyzeFor 10 listTypes (.record 0 []) = some (.ok [(.union 0 [], true), (.record 0 [], true)]) ∧
      analyzeFor 10 listTypes (.union 0 []) = some (.ok [(.record 0 [], true), (.union 0 [], true)])) ∧
    analyzeFor 12 mixedTypes (.record 0 []) =
      some (.ok [(.record 1 [], true), (.union 0 [], true), (.record 0 [], true)]) ∧
    analyzeFor 12 mixedTypes (.record 1 []) = some (.error .infinite) := by
  decide +kernel

theorem analyze_cell : analyze listTypes (.record 0 []) = .ok [(.union 0 [], true), (.record 0 [], true)] :=
  analyze_of_analyzeFor analyzeFor_samples.1.1

theorem analyze_classifies_cell : Classified listTypes (.record 0 []) [(.union 0 [], true), (.record 0 [], true)] :=
  (analyze_classifies listTypes _ rfl).1 _ analyze_cell

theorem analyze_tail : analyze listTypes (.union 0 []) = .ok [(.record 0 [], true), (.union 0 [], true)] :=
  analyze_of_analyzeFor analyzeFor_samples.1.2

theorem plainEdges_list (ty : Ty) : plainEdges listTypes ty = [] := by
  unfold plainEdges
  split
  · rfl
  · cases ty with
    | record id args =>
      cases id with
      | zero => cases args <;> rfl
      | succ id => rfl
    | union id args => rename_i h; exact absurd rfl h
    | _ => rfl

theorem guarded_list (ty : Ty) : ¬ReachesUnguarded listTypes ty := by
  rintro ⟨node, -, hcycle⟩
  obtain ⟨b, hedge, -⟩ := hcycle.exists_edge
  rw [plainEdges_list] at hedge
  exact not_mem_nil hedge

/-- The queries of `Cell` and `Tail`. -/
def listQuery (_ : System) : Act → Bool
  | .query _ ty => ty == .record 0 [] || ty == .union 0 []
  | _ => true

theorem met_list (h : listQuery s a = true) : Met listTypes s a := by
  cases a with
  | query i ty =>
    rcases (Bool.or_eq_true _ _).mp h with h | h <;> rw [beq_iff_eq] at h <;> subst h <;> intro e he
    · cases he.symm.trans analyze_cell
    · cases he.symm.trans analyze_tail
  | store i k => exact fun _ _ _ node _ _ _ _ _ => guarded_list node
  | analyze i => trivial
  | answer i => trivial

theorem plain_list : ∀ ty ∈ [Ty.record 0 [], .union 0 []], genericDeclaration listTypes ty = false := by decide

theorem run_list {as : List Act} (h : (Transition.runActs (Transition.tested listQuery (step listTypes)) start as).any
      (fun r => decide (r.2 = es)) = true) : ∃ s, Transition.RunWhen (step listTypes) (Met listTypes) start es s := by
  obtain ⟨es', s, hrun, hes⟩ := Transition.runWhen_of_any (I := fun _ => True) trivial (fun _ _ => trivial)
    (fun _ => met_list) h
  exact ⟨s, of_decide_eq_true hes ▸ hrun⟩

theorem run_cell_tail : ∃ s, Transition.RunWhen (step listTypes) (Met listTypes) start
    [(.record 0 [], .ok true), (.union 0 [], .ok true)] s := by
  have hc := plain_list (.record 0 []) (by simp)
  have ht := plain_list (.union 0 []) (by simp)
  have hct : (Ty.record 0 [] == .union 0 []) = false := beq_false_of_ne (by simp)
  have hrun : (Transition.runActs (Transition.tested listQuery (step listTypes)) start
      [.query 0 (.record 0 []), .analyze 0, .store 0 1, .store 0 0, .answer 0, .query 1 (.union 0 [])]).any
      (fun r => decide (r.2 = [(.record 0 [], .ok true), (.union 0 [], .ok true)])) = true := by
    simp [Transition.runActs, Transition.tested, listQuery, step, start, System.goto, isNominal, analyze_cell,
      List.lookup_cons, List.lookup_nil, hc, ht, hct]
  exact run_list hrun

theorem run_tail : ∃ s, Transition.RunWhen (step listTypes) (Met listTypes) start [(.union 0 [], .ok true)] s := by
  have hc := plain_list (.record 0 []) (by simp)
  have ht := plain_list (.union 0 []) (by simp)
  have htc : (Ty.union 0 [] == .record 0 []) = false := beq_false_of_ne (by simp)
  have hrun : (Transition.runActs (Transition.tested listQuery (step listTypes)) start
      [.query 0 (.union 0 []), .analyze 0, .store 0 0, .store 0 0, .answer 0]).any
      (fun r => decide (r.2 = [(.union 0 [], .ok true)])) = true := by
    simp [Transition.runActs, Transition.tested, listQuery, step, start, System.goto, isNominal, analyze_tail,
      List.lookup_cons, List.lookup_nil, hc, ht, htc]
  exact run_list hrun

/-- `Tail` is answered from the memo of `Cell` as it is asked for at first. -/
theorem answers_agree_list :
    (Ty.union 0 [], (Except.ok true : Answer)) ∈ [((Ty.record 0 [], .ok true) : Event), (.union 0 [], .ok true)] ∧
      verdict listTypes (.union 0 []) = .ok true := by
  obtain ⟨s, hrun⟩ := run_cell_tail
  obtain ⟨s', hrun'⟩ := run_tail
  have hmem : (Ty.union 0 [], (Except.ok true : Answer)) ∈
      [((Ty.record 0 [], .ok true) : Event), (.union 0 [], .ok true)] :=
    mem_cons_of_mem _ (mem_singleton_self _)
  exact ⟨hmem, (answers_agree hrun hrun' hmem (mem_singleton_self _)).2.symm⟩

theorem analyze_a :
    analyze mixedTypes (.record 0 []) = .ok [(.record 1 [], true), (.union 0 [], true), (.record 0 [], true)] :=
  analyze_of_analyzeFor analyzeFor_samples.2.1

theorem analyze_b : analyze mixedTypes (.record 1 []) = .error .infinite :=
  analyze_of_analyzeFor analyzeFor_samples.2.2

theorem run_b : ∃ s, Transition.Run (step mixedTypes) start [(.record 1 [], .error .infiniteRecursiveLayout)] s := by
  have hrun : ∃ s, Transition.runActs (step mixedTypes) start [.query 0 (.record 1 []), .analyze 0, .answer 0] =
      some (s, [(.record 1 [], .error .infiniteRecursiveLayout)]) := by
    simp [Transition.runActs, step, start, System.goto, isNominal, analyze_b, Failure.kind]
  obtain ⟨s, hrun⟩ := hrun
  exact ⟨s, Transition.run_of_runActs hrun⟩

theorem plain_mixed : ∀ ty ∈ [Ty.record 0 [], .record 1 [], .union 0 []], genericDeclaration mixedTypes ty = false := by
  decide

theorem run_a_b :
    ∃ s, Transition.Run (step mixedTypes) start [(.record 0 [], .ok true), (.record 1 [], .ok true)] s := by
  have hrun : ∃ s, Transition.runActs (step mixedTypes) start
      [.query 0 (.record 0 []), .analyze 0, .store 0 0, .store 0 0, .store 0 0, .answer 0, .query 0 (.record 1 [])] =
      some (s, [(.record 0 [], .ok true), (.record 1 [], .ok true)]) := by
    have ha := plain_mixed (.record 0 []) (by simp)
    have hb := plain_mixed (.record 1 []) (by simp)
    have hu := plain_mixed (.union 0 []) (by simp)
    have hba : (Ty.record 1 [] == .record 0 []) = false := beq_false_of_ne (by simp)
    have hbu : (Ty.record 1 [] == .union 0 []) = false := beq_false_of_ne (by simp)
    have hab : (Ty.record 0 [] == .record 1 []) = false := beq_false_of_ne (by simp)
    have hau : (Ty.record 0 [] == .union 0 []) = false := beq_false_of_ne (by simp)
    simp [Transition.runActs, step, start, System.goto, isNominal, analyze_a, List.lookup_cons, List.lookup_nil,
      ha, hb, hu, hba, hbu, hab, hau]
  obtain ⟨s, hrun⟩ := hrun
  exact ⟨s, Transition.run_of_runActs hrun⟩

/-- Asked for at first, `B` is rejected; after `A`, it is accepted. -/
theorem order_changes_answer : ¬∀ (types : TypeContext) (es es' : List Event) (s s' : System) (ty : Ty) (v v' : Answer),
      Transition.Run (step types) start es s → Transition.Run (step types) start es' s' →
      (∀ event ∈ es ++ es', WithinLimits types event.1) → (ty, v) ∈ es → (ty, v') ∈ es' → v = v' := by
  intro h
  obtain ⟨s, hb⟩ := run_b
  obtain ⟨s', hab⟩ := run_a_b
  have hlimits : ∀ event ∈ [((.record 1 [], .error .infiniteRecursiveLayout) : Event)] ++
      [(.record 0 [], .ok true), (.record 1 [], .ok true)], WithinLimits mixedTypes event.1 := by
    have hbl : WithinLimits mixedTypes (.record 1 []) := fun e he => by
      rw [Except.error.inj (he.symm.trans analyze_b)]
      rfl
    have hal : WithinLimits mixedTypes (.record 0 []) := fun e he => by
      cases he.symm.trans analyze_a
    intro event hevent
    simp only [cons_append, nil_append, mem_cons, not_mem_nil, or_false] at hevent
    rcases hevent with rfl | rfl | rfl
    · exact hbl
    · exact hal
    · exact hbl
  cases h mixedTypes _ _ s s' (.record 1 []) _ _ hb hab hlimits (mem_singleton_self _)
    (mem_cons_of_mem _ (mem_singleton_self _))

end Tsuzuri.Recursive
