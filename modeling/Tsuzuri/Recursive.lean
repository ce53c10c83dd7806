import Tsuzuri.Types
import Tsuzuri.Components
import Tsuzuri.Transition

/-!
# Recursive types

`recursive.rs`: the analysis of the types that a record or union stores (`analyze`) and its memo
(`recursive_checked`). Spans are left out.
-/

namespace Tsuzuri.Recursive

inductive DiagnosticKind
  | infiniteRecursiveLayout | recursiveTypeChangesArguments | recursiveTypeExpansionLimit
  | polymorphicTypeExpansionLimit | recursiveUnionWithoutBaseCase
deriving DecidableEq

/-- Why an analysis fails; `growing`, `expansion` and `polymorphic` are the limits. -/
inductive Failure
  | infinite | changes | growing | expansion | polymorphic | noBaseCase
deriving DecidableEq

namespace Failure

def kind : Failure → DiagnosticKind
  | .infinite => .infiniteRecursiveLayout
  | .changes | .growing => .recursiveTypeChangesArguments
  | .expansion => .recursiveTypeExpansionLimit
  | .polymorphic => .polymorphicTypeExpansionLimit
  | .noBaseCase => .recursiveUnionWithoutBaseCase

def isLimit : Failure → Bool
  | .growing | .expansion | .polymorphic => true
  | .infinite | .changes | .noBaseCase => false

end Failure

mutual

def containsError : Ty → Bool
  | .error => true
  | .partialApp _ trailing => anyError trailing
  | .application head arguments => containsError head || anyError arguments
  | .array ty | .arrayView ty | .list ty | .vec ty | .once ty | .shared ty _ | .reference ty _ => containsError ty
  | .function types _ _ result => anyError types || containsError result
  | .tuple elements => anyError elements
  | .fixedArray element length => containsError element || containsError length
  | .record _ args | .union _ args => anyError args
  | _ => false

def anyError : List Ty → Bool
  | [] => false
  | ty :: tys => containsError ty || anyError tys

end

mutual

/-- The visit of `type_size`: the count after `ty`, unless a limit is passed. -/
def sizeFrom (depth : Nat) (ty : Ty) (count : Nat) : Option Nat :=
  if maxNesting < depth ∨ 4096 < count + 1 then none
  else
    match ty with
    | .partialApp _ trailing => sizeAll (depth + 1) trailing (count + 1)
    | .application head arguments =>
      (sizeFrom (depth + 1) head (count + 1)).bind (sizeAll (depth + 1) arguments)
    | .array ty | .arrayView ty | .list ty | .vec ty | .once ty | .shared ty _ | .reference ty _ =>
      sizeFrom (depth + 1) ty (count + 1)
    | .function types _ _ result =>
      (sizeAll (depth + 1) types (count + 1)).bind (sizeFrom (depth + 1) result)
    | .tuple elements => sizeAll (depth + 1) elements (count + 1)
    | .fixedArray element length =>
      (sizeFrom (depth + 1) element (count + 1)).bind (sizeFrom (depth + 1) length)
    | .record _ args | .union _ args => sizeAll (depth + 1) args (count + 1)
    | _ => some (count + 1)

def sizeAll (depth : Nat) (tys : List Ty) (count : Nat) : Option Nat :=
  match tys with
  | [] => some count
  | ty :: tys => (sizeFrom depth ty count).bind (sizeAll depth tys)

end

def boundedType (ty : Ty) : Bool := containsError ty || (sizeFrom 0 ty 0).isSome

def isUnion : Ty → Bool
  | .union .. => true
  | _ => false

def genericDeclaration (types : TypeContext) : Ty → Bool
  | .record id args => !(types.record id).parameters.isEmpty && args = (types.record id).parameters.map .variable
  | .union id args => !(types.union id).parameters.isEmpty && args = (types.union id).parameters.map .variable
  | _ => false

def sameDeclaration : Ty → Ty → Bool
  | .record left _, .record right _ | .union left _, .union right _ => left == right
  | _, _ => false

def fields (types : TypeContext) : Ty → List Ty
  | .record id args => types.recordFields id args
  | .union id args => (types.unionPayloads id args).filterMap fun payload => payload
  | _ => []

/-! ## The search -/

inductive Task
  | visit (ty : Ty)
  | field (ty : Ty)
  | leave
  | unshare

structure Graph where
  nodes : List Ty
  active : List Ty
  shared : List Nat
  recursive : List Ty
  pending : List Task

namespace Graph

def start (root : Ty) : Graph := { nodes := [], active := [], shared := [], recursive := [], pending := [.visit root] }

def enter (types : TypeContext) (genericRoot : Option Ty) (g : Graph) (ty : Ty) : Except Failure Graph :=
  match g.active.idxOf? ty with
  | some start =>
    if !(g.active.drop start).any isUnion && !g.shared.any (start < ·) then .error .infinite
    else .ok { g with recursive := g.recursive ++ g.active.drop start }
  | none =>
    if genericRoot.any fun root => root ≠ ty && sameDeclaration root ty then .error .changes
    else if ty ∈ g.nodes then .ok g
    else if 4096 ≤ g.nodes.length ∨ maxNesting ≤ g.active.length then
      .error (if g.active.any fun active => active ≠ ty && sameDeclaration active ty then .growing else .expansion)
    else
      .ok { g with
        nodes := ty :: g.nodes
        active := g.active ++ [ty]
        pending := (fields types ty).map .field ++ .leave :: g.pending }

def visit (types : TypeContext) (genericRoot : Option Ty) (g : Graph) (ty : Ty) : Except Failure Graph :=
  match ty with
  | .record .. | .union .. => g.enter types genericRoot ty
  | .array inner | .list inner | .vec inner | .fixedArray inner _ => .ok { g with pending := .visit inner :: g.pending }
  | .shared inner _ =>
    .ok { g with shared := g.active.length :: g.shared, pending := .visit inner :: .unshare :: g.pending }
  | .tuple elements => .ok { g with pending := elements.map .visit ++ g.pending }
  | _ => .ok g

def step (types : TypeContext) (genericRoot : Option Ty) (g : Graph) : Except Failure Graph :=
  match g.pending with
  | [] => .ok g
  | .visit ty :: pending => { g with pending }.visit types genericRoot ty
  | .field ty :: pending =>
    if boundedType ty then { g with pending }.visit types genericRoot ty else .error .polymorphic
  | .leave :: pending => .ok { g with active := g.active.dropLast, pending }
  | .unshare :: pending => .ok { g with shared := g.shared.tail, pending }

/-! Each task adds a node, up to 4096, or leaves smaller ones. -/

noncomputable def taskSize : Task → Nat
  | .visit ty => 2 * sizeOf ty
  | .field ty => 2 * sizeOf ty + 1
  | .leave | .unshare => 1

noncomputable def sizes (pending : List Task) : Nat := pending.foldr (fun task n => taskSize task + n) 0

@[simp] theorem sizes_cons (task : Task) (pending : List Task) :
    sizes (task :: pending) = taskSize task + sizes pending := rfl

theorem sizes_append (new pending : List Task) : sizes (new ++ pending) = sizes new + sizes pending := by
  induction new with
  | nil => simp [sizes]
  | cons task new ih => simp [ih, Nat.add_assoc]

theorem sizes_visits (elements : List Ty) : sizes (elements.map .visit) < 2 * sizeOf elements := by
  induction elements with
  | nil => simp [sizes]
  | cons ty elements ih => simp [taskSize]; omega

noncomputable def left (g : Graph) : Nat × Nat := (4096 - g.nodes.length, sizes g.pending)

variable {genericRoot : Option Ty} {g g' : Graph}

theorem visit_lt {types : TypeContext} {ty : Ty} (h : g.visit types genericRoot ty = .ok g') :
    g'.nodes.length > g.nodes.length ∧ g.nodes.length < 4096 ∨
      g'.nodes = g.nodes ∧ sizes g'.pending < 2 * sizeOf ty + sizes g.pending := by
  have hpos : 0 < sizeOf ty := by cases ty <;> simp +arith
  unfold visit at h
  split at h
  case h_1 | h_2 =>
    unfold enter at h
    split at h
    · split at h
      · cases h
      · cases h
        exact .inr ⟨rfl, by show sizes g.pending < _; omega⟩
    · split at h
      · cases h
      split at h
      · cases h
        exact .inr ⟨rfl, by omega⟩
      split at h
      · cases h
      · rename_i hlimit
        cases h
        exact .inl ⟨Nat.lt_succ_self _, by omega⟩
  case h_8 =>
    rename_i elements
    cases h
    refine .inr ⟨rfl, ?_⟩
    have := sizes_visits elements
    show sizes (elements.map .visit ++ g.pending) < _
    rw [sizes_append]
    simp
    omega
  case h_9 =>
    cases h
    exact .inr ⟨rfl, by omega⟩
  all_goals
    cases h
    exact .inr ⟨rfl, by simp [taskSize] <;> omega⟩

theorem step_lt {types : TypeContext} (hpending : g.pending ≠ []) (h : g.step types genericRoot = .ok g') :
    Prod.Lex (· < ·) (· < ·) g'.left g.left := by
  have hvisit : ∀ {ty : Ty} {pending : List Task} {n : Nat}, 2 * sizeOf ty ≤ n → sizes g.pending = n + sizes pending →
      { g with pending }.visit types genericRoot ty = .ok g' → Prod.Lex (· < ·) (· < ·) g'.left g.left := by
    intro ty pending n hn hsize hv
    rcases visit_lt hv with ⟨hgrow, hlt⟩ | ⟨hnodes, hlt⟩
    · replace hgrow : g.nodes.length < g'.nodes.length := hgrow
      replace hlt : g.nodes.length < 4096 := hlt
      exact .left _ _ (by omega)
    · replace hlt : sizes g'.pending < 2 * sizeOf ty + sizes pending := hlt
      unfold left
      rw [hnodes]
      exact .right _ (by omega)
  unfold step at h
  split at h
  · contradiction
  · rename_i ty pending heq
    exact hvisit (Nat.le_refl _) (by rw [heq]; rfl) h
  · rename_i ty pending heq
    split at h
    · exact hvisit (Nat.le_succ _) (by rw [heq]; rfl) h
    · cases h
  · rename_i pending heq
    cases h
    exact .right _ (by rw [heq]; simp [taskSize])
  · rename_i pending heq
    cases h
    exact .right _ (by rw [heq]; simp [taskSize])

def run (types : TypeContext) (genericRoot : Option Ty) (g : Graph) : Except Failure Graph :=
  if _h : g.pending = [] then .ok g
  else
    match _hstep : g.step types genericRoot with
    | .error e => .error e
    | .ok g' => g'.run types genericRoot
termination_by g.left
decreasing_by exact step_lt _h _hstep

def runFor (types : TypeContext) (genericRoot : Option Ty) : Nat → Graph → Option (Except Failure Graph)
  | 0, _ => none
  | n + 1, g =>
    if g.pending.isEmpty then some (.ok g)
    else
      match g.step types genericRoot with
      | .error e => some (.error e)
      | .ok g' => runFor types genericRoot n g'

theorem run_of_runFor {types : TypeContext} {result : Except Failure Graph} (n : Nat) :
    ∀ {g : Graph}, runFor types genericRoot n g = some result → g.run types genericRoot = result := by
  induction n with
  | zero => exact fun h => by cases h
  | succ n ih =>
    intro g h
    unfold runFor at h
    rw [run]
    split at h
    · rename_i hempty
      rw [dif_pos (List.isEmpty_iff.1 hempty)]
      exact Option.some.inj h
    · rename_i hempty
      rw [dif_neg fun hnil => hempty (List.isEmpty_iff.2 hnil)]
      split at h
      · rename_i e hstep
        split
        · rename_i e' hstep'
          rw [Except.error.inj (hstep'.symm.trans hstep)]
          exact Option.some.inj h
        · rename_i g' hstep'
          cases hstep'.symm.trans hstep
      · rename_i g' hstep
        split
        · rename_i e hstep'
          cases hstep'.symm.trans hstep
        · rename_i g'' hstep'
          rw [Except.ok.inj (hstep'.symm.trans hstep)]
          exact ih h

end Graph

/-! ## The analysis -/

mutual

def heads : Ty → List Ty
  | .record id args => [.record id args]
  | .union id args => [.union id args]
  | .array inner | .list inner | .vec inner | .fixedArray inner _ | .shared inner _ => heads inner
  | .tuple elements => headsAll elements
  | _ => []

def headsAll : List Ty → List Ty
  | [] => []
  | ty :: tys => headsAll tys ++ heads ty

end

def edges (types : TypeContext) (ty : Ty) : List Ty := headsAll (fields types ty)

mutual

/-- Whether a type has a finite value, if those of `known` have one. -/
def finite (known : List Ty) : Ty → Bool
  | .record id args => .record id args ∈ known
  | .union id args => .union id args ∈ known
  | .tuple elements => finiteAll known elements
  | .fixedArray element _ | .shared element _ => finite known element
  | _ => true

def finiteAll (known : List Ty) : List Ty → Bool
  | [] => true
  | ty :: tys => finite known ty && finiteAll known tys

end

/-- Whether a record or union has a finite value, if those of `known` have one. -/
def valid (types : TypeContext) (known : List Ty) : Ty → Bool
  | .union id args => (types.unionPayloads id args).any fun payload => payload.all (finite known)
  | ty => finiteAll known (fields types ty)

def pass (types : TypeContext) (nodes known : List Ty) : List Ty :=
  nodes.foldl (fun known ty => if valid types known ty then known.insert ty else known) known

def inhabitedFrom (types : TypeContext) (nodes : List Ty) : Nat → List Ty → List Ty
  | 0, known => known
  | n + 1, known =>
    if (pass types nodes known).length = known.length then pass types nodes known
    else inhabitedFrom types nodes n (pass types nodes known)

def inhabited (types : TypeContext) (nodes : List Ty) : List Ty := inhabitedFrom types nodes (nodes.length + 1) []

def Graph.finish (types : TypeContext) (g : Graph) : Except Failure (List (Ty × Bool)) :=
  let recursive := Components.cyclic (edges types) g.nodes g.recursive
  if recursive.any fun ty => ty ∉ inhabited types g.nodes then .error .noBaseCase
  else .ok (g.nodes.map fun ty => (ty, decide (ty ∈ recursive)))

def genericRoot (types : TypeContext) (root : Ty) : Option Ty :=
  if genericDeclaration types root then some root else none

def analyze (types : TypeContext) (root : Ty) : Except Failure (List (Ty × Bool)) :=
  match (Graph.start root).run types (genericRoot types root) with
  | .error e => .error e
  | .ok g => g.finish types

/-- The analysis, if its search takes at most `n` tasks. -/
def analyzeFor (n : Nat) (types : TypeContext) (root : Ty) : Option (Except Failure (List (Ty × Bool))) :=
  ((Graph.start root).runFor types (genericRoot types root) n).map fun result =>
    match result with
    | .error e => .error e
    | .ok g => g.finish types

theorem analyze_of_analyzeFor {n : Nat} {types : TypeContext} {root : Ty}
    {result : Except Failure (List (Ty × Bool))} (h : analyzeFor n types root = some result) :
    analyze types root = result := by
  obtain ⟨searched, hrun, rfl⟩ := Option.map_eq_some_iff.1 h
  rw [analyze, Graph.run_of_runFor n hrun]

def isNominal : Ty → Bool
  | .record .. | .union .. => true
  | _ => false

abbrev Answer := Except DiagnosticKind Bool

abbrev Memo := List (Ty × Answer)

/-- In `recursive_checked`: out of it, after a lookup without a result, or before the entries are stored. -/
inductive Thread
  | idle
  | missed (ty : Ty)
  | storing (ty : Ty) (result : Bool) (entries : List (Ty × Bool))
  | failed (ty : Ty) (kind : DiagnosticKind)

structure System where
  memo : Memo
  threads : Nat → Thread

def System.goto (s : System) (i : Nat) (thread : Thread) : System :=
  { s with threads := Function.update s.threads i thread }

/-- `store i k`: the thread stores the entry at `k` next. -/
inductive Act
  | query (i : Nat) (ty : Ty)
  | analyze (i : Nat)
  | store (i k : Nat)
  | answer (i : Nat)

abbrev Event := Ty × Answer

def start : System := { memo := [], threads := fun _ => .idle }

/-- A step of `recursive_checked` in some thread. -/
def step (types : TypeContext) (s : System) : Act → Option (System × List Event)
  | .query i ty =>
    match s.threads i with
    | .idle =>
      if isNominal ty then
        match s.memo.lookup ty with
        | some value => some (s, [(ty, value)])
        | none => some (s.goto i (.missed ty), [])
      else some (s, [(ty, .ok false)])
    | _ => none
  | .analyze i =>
    match s.threads i with
    | .missed ty =>
      match analyze types ty with
      | .ok nodes => some (s.goto i (.storing ty ((nodes.lookup ty).getD false) nodes), [])
      | .error e => some (s.goto i (.failed ty e.kind), [])
    | _ => none
  | .store i k =>
    match s.threads i with
    | .storing ty result entries =>
      match entries[k]? with
      | some (node, recursive) =>
        -- only the analysis rooted at a generic declaration checks it for changed arguments
        if node ≠ ty && genericDeclaration types node then
          some (s.goto i (.storing ty result (entries.eraseIdx k)), [])
        else
          some ({ s.goto i (.storing ty result (entries.eraseIdx k)) with
            memo := (node, .ok recursive) :: s.memo }, [])
      | none => none
    | _ => none
  | .answer i =>
    match s.threads i with
    | .storing ty result [] => some (s.goto i .idle, [(ty, .ok result)])
    | .failed ty kind => some ({ s.goto i .idle with memo := (ty, .error kind) :: s.memo }, [(ty, .error kind)])
    | _ => none

end Tsuzuri.Recursive
