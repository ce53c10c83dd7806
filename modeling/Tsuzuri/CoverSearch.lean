import Tsuzuri.CoverValue

/-!
# The search of the coverage check

A search without a witness has derived coverage (`run_refuted`). The fuel of `runLoop` is never used up before the
limit on the work (`runLoop_fuel`).
-/

namespace Tsuzuri

open List

open PatternMatrix (Row Matches MatchesAll TypedAll RowsTyped Covers Exhausts Refuted specialize
  defaults matches_wild matchesAll_cons matchesAll_nil typedAll_cons typedAll_nil typed_wild)

/-! ## Complete signatures -/

variable {cs : List Constructor} {rows : List (Row Constructor)} {c : Constructor}

section Signatures

variable {checker : Checker} {equals : TypedExpr → Value → Prop} {d : Nat}

theorem present_complete {all hs : List Constructor} (h : present checker all hs = .complete cs) : cs = all := by
  unfold present at h
  split at h
  · split at h
    · cases h
    · exact (Signature.complete.inj h).symm
  · exact (Signature.complete.inj h).symm

variable {τ : Ty}

theorem isSome_of_mem_heads {fields : Constructor → Ty → Option (List Ty)} {τs : List Ty}
    (hrows : RowsTyped fields rows (τ :: τs)) (hc : c ∈ heads rows) : (fields c τ).isSome := by
  obtain ⟨row, hrow, hhead⟩ := mem_filterMap.mp hc
  have htyped := hrows row hrow
  match row, hhead, htyped with
  | .ctor c' args :: tail, hhead, htyped =>
    obtain rfl : c' = c := by simpa using hhead
    obtain ⟨hctor, -⟩ := typedAll_cons.mp htyped
    rw [PatternMatrix.Pat.Typed] at hctor
    obtain ⟨σs, hσ, -⟩ := hctor
    simp [hσ]

def Belongs (types : TypeContext) : Constructor → Ty → Prop
  | .bool _, τ => τ = .bool
  | .unit, τ => τ = .unit
  | .union id case, τ => ∃ args, τ = .union id args ∧ case < (types.union id).cases.length
  | .tuple count, τ => ∃ elements, τ = .tuple elements ∧ count = elements.length
  | .record id count, τ => ∃ args, τ = .record id args ∧ count = (types.recordFields id args).length
  | .arrayLen _, τ => ∃ element, τ = .array element
  | .listNil, τ | .listCons, τ => ∃ element, τ = .list element
  | .literal _, τ => τ.literalDomain

theorem belongs_of_fieldTypes {types : TypeContext} (h : (fieldTypes types c τ).isSome) : Belongs types c τ.strip := by
  unfold fieldTypes at h
  split at h
  case h_3 unionId caseId id args hτ =>
      rw [hτ]
      split at h
      · rename_i hid
        subst hid
        exact ⟨args, rfl, by simpa [TypeContext.unionPayloads] using h⟩
      · simp at h
  case h_9 key ty => simpa [Belongs] using h
  all_goals simp_all [Belongs]

/-- The constructors beside `first` in its type, but for literals. -/
def Siblings (types : TypeContext) : Constructor → Constructor → Prop
  | .bool _, c => c = .bool true ∨ c = .bool false
  | .unit, c => c = .unit
  | .union id _, c => ∃ case < (types.union id).cases.length, .union id case = c
  | .tuple count, c => c = .tuple count
  | .record id count, c => c = .record id count
  | .listNil, c | .listCons, c => c = .listNil ∨ c = .listCons
  | .arrayLen _, _ | .literal _, _ => True

theorem Belongs.siblings {types : TypeContext} {first : Constructor} (hfirst : Belongs types first τ)
    (hc : Belongs types c τ) (hlit : ∀ key, c ≠ .literal key) : Siblings types first c := by
  cases first <;> cases c <;> simp_all [Belongs, Siblings]
  all_goals grind

theorem HasType.constructed {v : Value} (hv : HasType checker.types v τ)
    (hc : Belongs checker.types c τ.strip) (hlit : ∀ key, c ≠ .literal key) :
    ∃ c' vs, Constructed c' vs v ∧ (fieldTypes checker.types c' τ).isSome ∧ vs.length = arity checker c' := by
  cases hv with
  | bool h | unit h | listNil h | listCons h =>
    exact ⟨_, _, rfl, by simp [fieldTypes, h], rfl⟩
  | union h hcase | payload h hcase hv =>
    refine ⟨_, _, rfl, by simp [fieldTypes, h, hcase], ?_⟩
    obtain ⟨⟨name, payload⟩, hdecl, hp⟩ := Option.map_eq_some_iff.mp (getElem?_map ▸ hcase)
    cases payload <;> simp_all [arity]
  | tuple h hvs | record h hvs => exact ⟨_, _, rfl, by simp [fieldTypes, h, hvs.length_eq], rfl⟩
  | array h hvs => exact ⟨_, _, rfl, by simp [fieldTypes, h], rfl⟩
  | number h | unknown h | other h | text16 h | text8 h =>
    cases c <;> simp only [Belongs] at hc <;>
      grind [Ty.isNumeric, Ty.isUnknown, Ty.isOpaque]

theorem signature_siblings (h : signature checker rows = .complete cs) :
    ∃ first ∈ heads rows, (∀ key, first ≠ .literal key) ∧ ∀ c, Siblings checker.types first c → c ∈ cs := by
  unfold signature at h
  split at h
  · cases h
  rename_i first others hheads
  refine ⟨first, by rw [hheads]; exact mem_cons_self, ?_⟩
  split at h
  case h_1 | h_2 | h_3 | h_4 =>
      obtain rfl := present_complete h
      simp [Siblings]
  case h_5 | h_6 | h_7 =>
      obtain rfl := Signature.complete.inj h
      simp [Siblings]
  all_goals cases h

theorem signature_exhausts (h : signature checker rows = .complete cs) :
    Exhausts (fieldTypes checker.types) (Built checker equals d) (HasType checker.types) (arity checker) rows cs := by
  intro τ τs hrows v hv
  obtain ⟨first, hmem, hlit, hall⟩ := signature_siblings h
  have hfirst := belongs_of_fieldTypes (isSome_of_mem_heads hrows hmem)
  obtain ⟨c, vs, hcv, hsome, hlen⟩ := hv.constructed hfirst hlit
  have hc := hfirst.siblings (belongs_of_fieldTypes hsome) hcv.ne_literal
  exact ⟨c, hall c hc, vs, .inl hcv, hlen, hsome⟩

end Signatures

/-! ## Runs of the search -/

section Search

variable {checker : Checker} {span : Span} {s s' : Search}

theorem seq_ok {α β : Type} {x : SearchM α} {f : α → SearchM β} {b : β} (h : (x >>= f).run s = .ok (b, s')) :
    ∃ a s₁, x.run s = .ok (a, s₁) ∧ (f a).run s₁ = .ok (b, s') := by
  rw [StateT.run_bind] at h
  cases hx : x.run s with
  | error e => rw [hx] at h; cases h
  | ok r => exact ⟨r.1, r.2, rfl, by rw [hx] at h; exact h⟩

theorem pure_ok {α : Type} {a b : α} (h : (pure a : SearchM α).run s = .ok (b, s')) : a = b ∧ s = s' := by
  rw [StateT.run_pure] at h
  cases h
  exact ⟨rfl, rfl⟩

theorem get_ok {a : Search} (h : (get : SearchM Search).run s = .ok (a, s')) : a = s ∧ s' = s := by
  cases h
  exact ⟨rfl, rfl⟩

theorem modify_ok {f : Search → Search} {u : PUnit} (h : (modify f : SearchM PUnit).run s = .ok (u, s')) :
    s' = f s := by
  cases h
  rfl

theorem charge_ok {work : Nat} {u : Unit} (h : (charge span work).run s = .ok (u, s')) :
    s' = { s with work := s.work + work } ∧ s'.work ≤ maxWork := by
  simp only [charge] at h
  obtain ⟨_, s₁, h₁, h⟩ := seq_ok h
  cases h₁
  obtain ⟨s₂, _, h₂, h⟩ := seq_ok h
  cases h₂
  split at h
  · cases h
  · cases h
    exact ⟨rfl, by omega⟩

variable {describe : Bool} {trace : Option Nat} {tasks : List Task} {fuel : Nat} {found : Option Witness}

theorem step_ok {parent : Option Nat} {st : Step} (h : (step describe parent st).run s = .ok (trace, s')) :
    s'.distinct = s.distinct ∧ s'.work = s.work := by
  unfold step at h
  split at h
  · obtain ⟨-, rfl⟩ := pure_ok h
    exact ⟨rfl, rfl⟩
  · obtain ⟨_, s₁, h₁, h⟩ := seq_ok h
    obtain rfl := modify_ok h₁
    obtain ⟨_, _, h₂, h⟩ := seq_ok h
    obtain ⟨-, rfl⟩ := get_ok h₂
    obtain ⟨-, rfl⟩ := pure_ok h
    exact ⟨rfl, rfl⟩

theorem specializeRows_ok {rows' : List (Row Constructor)} {n : Nat}
    (h : (specializeRows span rows c n).run s = .ok (rows', s')) :
    rows' = specialize c n rows ∧ s'.distinct = s.distinct ∧ s.work ≤ s'.work := by
  unfold specializeRows at h
  obtain ⟨_, s₁, h₁, h⟩ := seq_ok h
  obtain ⟨rfl, -⟩ := charge_ok h₁
  obtain ⟨rfl, rfl⟩ := pure_ok h
  exact ⟨rfl, rfl, Nat.le_add_right ..⟩

theorem splitTasks_ok {tail : Row Constructor} {tasks' : List Task}
    (h : (splitTasks checker span describe rows tail trace cs tasks).run s = .ok (tasks', s')) :
    (s'.distinct = s.distinct ∧ s.work ≤ s'.work) ∧ (∀ task ∈ tasks, task ∈ tasks')
      ∧ ∀ c ∈ cs, ∃ task ∈ tasks', task.rows = specialize c (arity checker c) rows
        ∧ task.query = List.replicate (arity checker c) .wild ++ tail := by
  induction cs generalizing tasks s with
  | nil =>
    rw [splitTasks] at h
    obtain ⟨rfl, rfl⟩ := pure_ok h
    exact ⟨⟨rfl, le_rfl⟩, fun _ h => h, by simp⟩
  | cons c cs ih =>
    rw [splitTasks] at h
    obtain ⟨rows', s₁, h₁, h⟩ := seq_ok h
    obtain ⟨trace', s₂, h₂, h⟩ := seq_ok h
    obtain ⟨rfl, hd₁, hw₁⟩ := specializeRows_ok h₁
    obtain ⟨hd₂, hw₂⟩ := step_ok h₂
    obtain ⟨⟨hd₃, hw₃⟩, hkeep, hadd⟩ := ih h
    refine ⟨⟨by rw [hd₃, hd₂, hd₁], by omega⟩, fun task ht => hkeep _ (mem_cons_of_mem _ ht), ?_⟩
    intro c' hc'
    rcases mem_cons.mp hc' with rfl | hc'
    · exact ⟨_, hkeep _ mem_cons_self, rfl, rfl⟩
    · exact hadd c' hc'

theorem all_isWild_of_concrete {row : Row Constructor} (h : concrete row = 0) :
    row.all PatternMatrix.Pat.isWild = true := by
  simpa [concrete, countP_eq_zero] using h

theorem runLoop_refuted {equals : TypedExpr → Value → Prop} {d : Nat}
    (h : (runLoop checker span describe fuel tasks).run s = .ok (found, s')) :
    s'.distinct = s.distinct ∧ (found = none → ∀ task ∈ tasks,
      Refuted (fieldTypes checker.types) (Built checker equals d) (HasType checker.types)
        (arity checker) task.rows task.query) := by
  induction fuel generalizing tasks s with
  | zero =>
    rw [runLoop] at h
    cases h
  | succ fuel ih =>
    match tasks with
    | [] =>
      rw [runLoop] at h
      obtain ⟨rfl, rfl⟩ := pure_ok h
      exact ⟨rfl, by simp⟩
    | { rows, query, trace } :: tasks =>
      rw [runLoop.eq_def] at h
      obtain ⟨_, s₁, h₁, h⟩ := seq_ok h
      obtain ⟨rfl, -⟩ := charge_ok h₁
      split at h
      · rename_i hany
        obtain ⟨row, hrow, hconcrete⟩ := any_eq_true.mp hany
        obtain ⟨hd, hrest⟩ := ih h
        refine ⟨hd, fun hnone => ?_⟩
        simp only [forall_mem_cons]
        exact ⟨.covered hrow (all_isWild_of_concrete (by simpa using hconcrete)), hrest hnone⟩
      · match query with
        | [] =>
          obtain ⟨_, _, h₂, h⟩ := seq_ok h
          cases h₂
          obtain ⟨rfl, rfl⟩ := pure_ok h
          exact ⟨rfl, by simp⟩
        | .ctor c arguments :: tail =>
          obtain ⟨rows', s₂, h₂, h⟩ := seq_ok h
          obtain ⟨trace', s₃, h₃, h⟩ := seq_ok h
          obtain ⟨rfl, hd₂, -⟩ := specializeRows_ok h₂
          obtain ⟨hd, hrest⟩ := ih h
          refine ⟨by rw [hd, (step_ok h₃).1, hd₂], fun hnone => ?_⟩
          obtain ⟨hfirst, hrest⟩ := forall_mem_cons.mp (hrest hnone)
          exact forall_mem_cons.mpr ⟨.ctor hfirst, hrest⟩
        | .wild :: tail =>
          simp only at h
          split at h
          · rename_i cs hcs
            obtain ⟨tasks', s₂, h₂, h⟩ := seq_ok h
            obtain ⟨⟨hd₂, -⟩, hkeep, hadd⟩ := splitTasks_ok h₂
            obtain ⟨hd, hrest⟩ := ih h
            refine ⟨by rw [hd, hd₂], fun hnone => ?_⟩
            refine forall_mem_cons.mpr ⟨.complete (signature_exhausts hcs) fun c hc => ?_,
                fun task ht => hrest hnone task (hkeep task ht)⟩
            obtain ⟨task, ht, hrows, hquery⟩ := hadd c (mem_reverse.mpr hc)
            simpa only [hrows, hquery] using hrest hnone task ht
          · obtain ⟨trace', s₂, h₂, h⟩ := seq_ok h
            obtain ⟨hd, hrest⟩ := ih h
            refine ⟨by rw [hd, (step_ok h₂).1], fun hnone => ?_⟩
            obtain ⟨hfirst, hrest⟩ := forall_mem_cons.mp (hrest hnone)
            exact forall_mem_cons.mpr ⟨.missing hfirst, hrest⟩

theorem run_refuted (equals : TypedExpr → Value → Prop) (d : Nat) {query : Row Constructor}
    (h : (run checker span rows query describe).run s = .ok (found, s')) : s'.distinct = s.distinct ∧ (found = none →
      Refuted (fieldTypes checker.types) (Built checker equals d) (HasType checker.types)
        (arity checker) rows query) := by
  unfold run at h
  obtain ⟨_, _, h₁, h⟩ := seq_ok h
  cases h₁
  obtain ⟨hd, htasks⟩ := runLoop_refuted h
  exact ⟨hd, fun hnone => htasks hnone _ mem_cons_self⟩

theorem bind_congr_ok {α β : Type} {x : SearchM α} {f g : α → SearchM β}
    (h : ∀ a s₁, x.run s = .ok (a, s₁) → (f a).run s₁ = (g a).run s₁) : (x >>= f).run s = (x >>= g).run s := by
  rw [StateT.run_bind, StateT.run_bind]
  cases hx : x.run s with
  | error e => rfl
  | ok r => exact h r.1 r.2 hx

theorem runLoop_fuel (hpos : 0 < fuel) (hfuel : maxWork < fuel + s.work) :
    (runLoop checker span describe fuel tasks).run s = (runLoop checker span describe (fuel + 1) tasks).run s := by
  induction fuel generalizing tasks s with
  | zero => omega
  | succ fuel ih =>
    match tasks with
    | [] => rw [runLoop, runLoop]
    | { rows, query, trace } :: tasks =>
      rw [runLoop.eq_def, runLoop.eq_def _ _ _ (fuel + 1 + 1)]
      refine bind_congr_ok fun _ s₁ h₁ => ?_
      obtain ⟨rfl, hwork⟩ := charge_ok h₁
      have hnext {s₂ : Search} (hle : s.work + (rows.length + 1) ≤ s₂.work)
          (hmax : s.work + (rows.length + 1) ≤ maxWork) (tasks : List Task) :
          (runLoop checker span describe fuel tasks).run s₂ = (runLoop checker span describe (fuel + 1) tasks).run s₂ :=
        ih (by omega) (by omega)
      split
      · exact hnext le_rfl hwork _
      · match query with
        | [] => rfl
        | .ctor c arguments :: tail =>
          refine bind_congr_ok fun rows' s₂ h₂ => bind_congr_ok fun trace' s₃ h₃ => ?_
          have := (specializeRows_ok h₂).2.2
          have := (step_ok h₃).2
          exact hnext (by simp_all) hwork _
        | .wild :: tail =>
          simp only
          split
          · refine bind_congr_ok fun tasks' s₂ h₂ => ?_
            exact hnext (splitTasks_ok h₂).1.2 hwork _
          · refine bind_congr_ok fun trace' s₂ h₂ => ?_
            exact hnext (step_ok h₂).2.ge hwork _

end Search

end Tsuzuri
