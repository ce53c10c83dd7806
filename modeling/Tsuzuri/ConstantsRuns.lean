import Tsuzuri.ConstantsSound

/-!
# The order of evaluation

The work list is a depth-first search: its finishing entries are the path that the evaluation is on (`Stacked`), and
what they refer to has a value or stands above them (`Awaited`, `Supported`).
-/

namespace Tsuzuri.Constants

open Dependencies Relation List

variable {p : Program} {m : Machine p}

def stack (pending : List Entry) : List (Nat × Bool) := pending.map fun entry => (entry.id, entry.finishing)

variable {depth d id c : Nat} {visited : List Named}

theorem dependencies_waiting {e : Nat × Bool} (h : e ∈ stack (dependencies depth visited)) :
    e.2 = false ∧ ∃ span, .constant e.1 span ∈ visited := by
  simp only [stack, dependencies, map_reverse, mem_reverse, mem_map, mem_filterMap] at h
  obtain ⟨entry, ⟨n, hn, heq⟩, rfl⟩ := h
  cases n with
  | constant d span =>
    cases heq
    exact ⟨rfl, span, hn⟩
  | constDef callee => cases heq

theorem mem_dependencies {span : Span} (h : .constant d span ∈ visited) :
    (d, false) ∈ stack (dependencies depth visited) := by
  simp only [stack, dependencies, map_reverse, mem_reverse, mem_map, mem_filterMap]
  exact ⟨⟨d, false, depth + 1, span⟩, ⟨_, h, rfl⟩, rfl⟩

def path (stack : List (Nat × Bool)) : List Nat := (stack.filter Prod.snd).map Prod.fst

@[simp] theorem path_open (id : Nat) (rest : List (Nat × Bool)) : path ((id, true) :: rest) = id :: path rest := rfl
@[simp] theorem path_waiting (id : Nat) (rest : List (Nat × Bool)) : path ((id, false) :: rest) = path rest := rfl

@[simp] theorem stack_cons (entry : Entry) (pending : List Entry) :
    stack (entry :: pending) = (entry.id, entry.finishing) :: stack pending := rfl

theorem path_append {new rest : List (Nat × Bool)} (h : ∀ e ∈ new, e.2 = false) : path (new ++ rest) = path rest := by
  have : new.filter Prod.snd = [] := filter_eq_nil_iff.mpr fun e he => by simp [h e he]
  simp [path, this]

theorem mem_of_mem_path {stack : List (Nat × Bool)} (h : id ∈ path stack) : (id, true) ∈ stack := by
  obtain ⟨⟨a, b⟩, hmem, rfl⟩ := mem_map.mp h
  obtain ⟨hmem, hopen⟩ := mem_filter.mp hmem
  obtain rfl : b = true := hopen
  exact hmem

namespace Evaluator

variable {s t : Evaluator}

def ids (s : Evaluator) : List Nat := s.values.map Prod.fst

theorem isSome_valueOf : (s.valueOf id).isSome ↔ id ∈ s.ids := by
  unfold valueOf ids
  induction s.values with
  | nil => simp
  | cons pair values ih =>
    obtain ⟨id', value⟩ := pair
    rw [lookup_cons]
    by_cases heq : id = id'
    · simp [heq]
    · have hne : (id == id') = false := beq_false_of_ne heq
      simp only [hne, map_cons, mem_cons, heq, false_or]
      exact ih

/-- The turns of the constants before `root` are over. -/
def Turn (p : Program) (s : Evaluator) : Prop :=
  (s.root = none ∧ s.roots = p.constants ∧ s.pending = []) ∨
    ∃ root before, s.root = some root ∧ p.constants = before ++ root :: s.roots ∧
      (∀ c ∈ before, c ∈ s.ids) ∧ (root ∈ s.ids ∨ root ∈ (stack s.pending).map Prod.fst) ∧
      Stacked (Refers p) root (stack s.pending)

structure Inv (p : Program) (s : Evaluator) : Prop where
  memo : Remembers p s.memo
  supported : Supported (Refers p) s.ids
  active : s.active = path (stack s.pending)
  nodup : s.active.Nodup
  unvalued : ∀ id ∈ s.active, id ∉ s.ids
  awaited : Awaited (Refers p) (· ∈ s.ids) [] (stack s.pending)
  turn : s.Turn p

theorem inv_start : Inv p (start p) where
  memo _ _ h := by cases h
  supported := trivial
  active := rfl
  nodup := nodup_nil
  unvalued _ h := absurd h not_mem_nil
  awaited := trivial
  turn := .inl ⟨rfl, rfl, rfl⟩

theorem Inv.pending (h : Inv p s) {entry : Entry} {pending : List Entry} (hpending : s.pending = entry :: pending) :
    ∃ root before, s.root = some root ∧ p.constants = before ++ root :: s.roots ∧
      (∀ c ∈ before, c ∈ s.ids) ∧ (root ∈ s.ids ∨ root = entry.id ∨ root ∈ (stack pending).map Prod.fst) ∧
      Stacked (Refers p) root ((entry.id, entry.finishing) :: stack pending) := by
  obtain ⟨-, -, hnil⟩ | ⟨root, before, hroot, hconstants, hbefore, hplace, hstacked⟩ := h.turn
  · rw [hpending] at hnil
    cases hnil
  · rw [hpending] at hplace hstacked
    exact ⟨root, before, hroot, hconstants, hbefore, hplace.imp_right mem_cons.mp, hstacked⟩

theorem Inv.ready (h : Inv p s) {entry : Entry} {pending : List Entry}
    (hpending : s.pending = entry :: pending) (hfinishing : entry.finishing = true)
    (href : Refers p entry.id d) : d ∈ s.ids := by
  have hawaited := h.awaited
  rw [hpending] at hawaited
  exact (hawaited.1 hfinishing d href).resolve_right not_mem_nil

theorem Inv.begin (h : Inv p s) {root : Nat} {roots : List Nat} (hpending : s.pending = [])
    (hroots : s.roots = root :: roots) : Inv p (s.turn p root roots) where
  memo := h.memo
  supported := h.supported
  active := by
    rw [show (s.turn p root roots).active = s.active from rfl, h.active, hpending]
    rfl
  nodup := h.nodup
  unvalued := h.unvalued
  awaited := ⟨fun hopen => absurd hopen Bool.false_ne_true, trivial⟩
  turn := by
    refine .inr ⟨root, ?_⟩
    obtain ⟨-, hconstants, -⟩ | ⟨last, before, -, hconstants, hbefore, hplace, -⟩ := h.turn
    · exact ⟨[], rfl, by rw [← hconstants, hroots]; rfl, fun c hc => absurd hc not_mem_nil,
        .inr (mem_singleton_self _), rfl, trivial⟩
    · refine ⟨before ++ [last], rfl, ?_, fun c hc => ?_, .inr (mem_singleton_self _), rfl, trivial⟩
      · rw [hconstants, hroots, append_assoc]
        rfl
      · obtain hc | hc := mem_append.mp hc
        · exact hbefore c hc
        · obtain rfl := mem_singleton.mp hc
          refine hplace.resolve_right ?_
          rw [hpending]
          exact not_mem_nil

section Entry

variable {entry : Entry} {pending : List Entry}

theorem Inv.skip (h : Inv p s) (hpending : s.pending = entry :: pending) (hvalue : entry.id ∈ s.ids) :
    Inv p { s with pending } := by
  have hactive := h.active
  rw [hpending, stack_cons] at hactive
  have hwaiting : entry.finishing = false := by
    cases hfinishing : entry.finishing with
    | false => rfl
    | true =>
      rw [hfinishing] at hactive
      exact absurd hvalue (h.unvalued entry.id (hactive ▸ mem_cons_self ..))
  have hawaited := h.awaited
  rw [hpending] at hawaited
  obtain ⟨root, before, hroot, hconstants, hbefore, hplace, hstacked⟩ := h.pending hpending
  refine ⟨h.memo, h.supported, ?_, h.nodup, h.unvalued, hawaited.2.mono ?_, .inr
    ⟨root, before, hroot, hconstants, hbefore, ?_, hstacked.2⟩⟩
  · rw [hwaiting] at hactive
    exact hactive
  · rintro d (hd | hd)
    · exact .inl hd
    · obtain rfl := mem_singleton.mp hd
      exact .inl hvalue
  · obtain hroot | rfl | hroot := hplace
    · exact .inl hroot
    · exact .inl hvalue
    · exact .inr hroot

theorem Inv.finish (h : Inv p s) (hpending : s.pending = entry :: pending) (hfinishing : entry.finishing = true)
    (value : Value) (remaining : Nat) : Inv p { s with
      pending, remaining, active := s.active.filter (· ≠ entry.id), values := (entry.id, value) :: s.values } := by
  have hactive := h.active
  rw [hpending, stack_cons] at hactive
  rw [hfinishing, path_open] at hactive
  have hnodup := h.nodup
  rw [hactive] at hnodup
  obtain ⟨hnew, hnodup⟩ := nodup_cons.mp hnodup
  have hrest : s.active.filter (· ≠ entry.id) = path (stack pending) := by
    rw [hactive, filter_cons_of_neg (by simp)]
    exact filter_eq_self.mpr fun id hid => by
      simpa using fun heq : id = entry.id => hnew (heq ▸ hid)
  have hawaited := h.awaited
  rw [hpending] at hawaited
  obtain ⟨root, before, hroot, hconstants, hbefore, hplace, hstacked⟩ := h.pending hpending
  refine ⟨h.memo, ⟨fun d href => h.ready hpending hfinishing href, h.supported⟩, hrest, ?_, ?_, hawaited.2.mono ?_,
    .inr ⟨root, before, hroot, hconstants, fun c hc => mem_cons_of_mem _ (hbefore c hc), ?_, hstacked.2⟩⟩
  · rw [hrest]
    exact hnodup
  · intro id hid hvalue
    rw [hrest] at hid
    obtain rfl | hvalue := mem_cons.mp hvalue
    · exact hnew hid
    · exact h.unvalued id (hactive ▸ mem_cons_of_mem _ hid) hvalue
  · rintro d (hd | hd)
    · exact .inl (mem_cons_of_mem _ hd)
    · obtain rfl := mem_singleton.mp hd
      exact .inl (mem_cons_self ..)
  · obtain hroot | rfl | hroot := hplace
    · exact .inl (mem_cons_of_mem _ hroot)
    · exact .inl (mem_cons_self ..)
    · exact .inr hroot

theorem Inv.enter (h : Inv p s) (hpending : s.pending = entry :: pending) (hwaiting : entry.finishing = false)
    (hvalue : entry.id ∉ s.ids) (hnew : entry.id ∉ s.active) :
    Inv p { s with
      memo := (p.walk s.memo entry.id).memo
      active := entry.id :: s.active
      references := s.references + 1
      pending := dependencies entry.depth (p.walk s.memo entry.id).visited ++
        { entry with finishing := true } :: pending } := by
  have hactive := h.active
  rw [hpending, stack_cons] at hactive
  have hawaited := h.awaited
  rw [hpending] at hawaited
  obtain ⟨root, before, hroot, hconstants, hbefore, hplace, hstacked⟩ := h.pending hpending
  have hstack : stack (dependencies entry.depth (p.walk s.memo entry.id).visited ++
      { entry with finishing := true } :: pending) =
      stack (dependencies entry.depth (p.walk s.memo entry.id).visited) ++ (entry.id, true) :: stack pending := by
    simp [stack]
  have hfalse : ∀ e ∈ stack (dependencies entry.depth (p.walk s.memo entry.id).visited), e.2 = false :=
    fun e he => (dependencies_waiting he).1
  refine ⟨(walk_inv h.memo entry.id).memo, h.supported, ?_, nodup_cons.mpr ⟨hnew, h.nodup⟩, ?_, ?_,
    .inr ⟨root, before, hroot, hconstants, hbefore, ?_, ?_⟩⟩
  · show entry.id :: s.active = _
    rw [hstack, path_append hfalse, hactive, hwaiting]
    rfl
  · intro id hid
    obtain rfl | hid := mem_cons.mp hid
    · exact hvalue
    · exact h.unvalued id hid
  · rw [hstack]
    refine .append hfalse ⟨fun _ d href => .inr ?_, hawaited.2.mono ?_⟩
    · obtain ⟨span, hspan⟩ := (walk_visits h.memo).mpr href
      exact mem_append_right _ (mem_map_of_mem (mem_dependencies hspan))
    · rintro d (hd | hd)
      · exact .inl hd
      · exact .inr (mem_append_right _ hd)
  · refine hplace.imp_right fun hplace => ?_
    rw [hstack, map_append, map_cons]
    exact mem_append_right _ (mem_cons.mpr hplace)
  · rw [hstack]
    refine .append hfalse (nearest_open ..) (fun e he => ?_) ⟨hstacked.1, hstacked.2⟩
    obtain ⟨span, hspan⟩ := (dependencies_waiting he).2
    exact (walk_visits h.memo).mp ⟨span, hspan⟩

end Entry

theorem Inv.step (h : Inv p s) (hstep : s.step m = .next t) : Inv p t := by
  unfold Evaluator.step at hstep
  split at hstep
  · rename_i hpending
    split at hstep
    · exact Progress.noConfusion hstep
    · rename_i root roots hroots
      cases hstep
      exact h.begin hpending hroots
  · rename_i entry pending hpending
    split at hstep
    · rename_i hvalue
      cases hstep
      exact h.skip hpending (isSome_valueOf.mp hvalue)
    rename_i hvalue
    split at hstep
    · rename_i hfinishing
      unfold Evaluator.finish at hstep
      split at hstep
      · exact Progress.noConfusion hstep
      split at hstep
      · exact Progress.noConfusion hstep
      cases hstep
      exact h.finish hpending hfinishing ..
    · rename_i hfinishing
      unfold Evaluator.enter at hstep
      split at hstep
      · exact Progress.noConfusion hstep
      split at hstep
      · exact Progress.noConfusion hstep
      rename_i hnew
      cases hstep
      exact h.enter hpending ((Bool.not_eq_true _).mp hfinishing) (fun hmem => hvalue (isSome_valueOf.mpr hmem)) hnew

theorem Inv.cyclic (h : Inv p s) {d : Diagnostic} (hstep : s.step m = .fail d) (hkind : d.kind = .constCycle) :
    ∃ root before, s.root = some root ∧ p.constants = before ++ root :: s.roots ∧ (∀ c ∈ before, c ∈ s.ids) ∧
      Cyclic (Refers p) root := by
  unfold Evaluator.step at hstep
  split at hstep
  · split at hstep <;> exact Progress.noConfusion hstep
  rename_i entry pending hpending
  obtain ⟨root, before, hroot, hconstants, hbefore, -, hstacked⟩ := h.pending hpending
  split at hstep
  · exact Progress.noConfusion hstep
  refine ⟨root, before, hroot, hconstants, hbefore, ?_⟩
  split at hstep
  · rename_i hfinishing
    unfold Evaluator.finish at hstep
    split at hstep
    · rename_i d' hevaluate
      cases hstep
      have hruns := m.runs entry.id { s with pending }.valueOf { s with pending }.remaining
      rw [hevaluate] at hruns
      cases hruns with
      | stops _ hother => exact absurd hkind hother
      | constant hmeets hconst hvalue =>
        have hready := isSome_valueOf.mpr (h.ready hpending hfinishing ⟨_, hmeets, hconst⟩)
        rw [show s.valueOf _ = none from hvalue] at hready
        cases hready
    split at hstep
    · rename_i d' hcharge
      cases hstep
      unfold charge at hcharge
      split at hcharge
      · cases hcharge
        cases hkind
      · cases hcharge
    · exact Progress.noConfusion hstep
  · unfold Evaluator.enter at hstep
    split at hstep
    · cases hstep
      cases hkind
    split at hstep
    · rename_i hfinishing _ hmem
      have hactive := h.active
      rw [hpending, stack_cons, (Bool.not_eq_true _).mp hfinishing] at hactive
      have hpath : entry.id ∈ path (stack pending) := by
        rw [← path_waiting, ← hactive]
        exact hmem
      have hopen := mem_of_mem_path hpath
      exact ⟨entry.id, hstacked.root_reach, hstacked.reach hopen⟩
    · exact Progress.noConfusion hstep

/-! ## The end of a run -/

def Next (m : Machine p) (s t : Evaluator) : Prop := s.step m = .next t

theorem Inv.reaches (h : Inv p s) (hreach : ReflTransGen (Next m) s t) : Inv p t := by
  induction hreach with
  | refl => exact h
  | tail _ hstep ih => exact ih.step hstep

def ending : Except Diagnostic Unit → Progress
  | .ok () => .done
  | .error d => .fail d

theorem run_next (h : s.step m = .next t) : s.run m = t.run m := by
  rw [run]
  split
  · rename_i u heq
    obtain rfl := Progress.next.inj (heq.symm.trans h)
    rfl
  · rename_i heq
    cases heq.symm.trans h
  · rename_i heq
    cases heq.symm.trans h

theorem run_fail {d : Diagnostic} (h : s.step m = .fail d) : s.run m = (s, .error d) := by
  rw [run]
  split
  · rename_i heq
    cases heq.symm.trans h
  · rename_i heq
    cases heq.symm.trans h
  · rename_i heq
    obtain rfl := Progress.fail.inj (heq.symm.trans h)
    rfl

theorem run_done (h : s.step m = .done) : s.run m = (s, .ok ()) := by
  rw [run]
  split
  · rename_i heq
    cases heq.symm.trans h
  · rfl
  · rename_i heq
    cases heq.symm.trans h

theorem run_reaches (s : Evaluator) :
    ReflTransGen (Next m) s (s.run m).1 ∧ (s.run m).1.step m = ending (s.run m).2 := by
  induction s using run.induct m with
  | case1 s t hstep ih =>
    rw [run_next hstep]
    exact ⟨ih.1.head hstep, ih.2⟩
  | case2 s hstep =>
    rw [run_done hstep]
    exact ⟨.refl, hstep⟩
  | case3 s d hstep =>
    rw [run_fail hstep]
    exact ⟨.refl, hstep⟩

theorem Inv.not_cyclic (h : Inv p s) (hc : c ∈ s.ids) : ¬Cyclic (Refers p) c :=
  h.supported.not_cyclic hc

theorem Inv.done (h : Inv p s) (hstep : s.step m = .done) (hc : c ∈ p.constants) : c ∈ s.ids := by
  unfold Evaluator.step at hstep
  split at hstep
  · rename_i hpending
    split at hstep
    · rename_i hroots
      obtain ⟨-, hnone, -⟩ | ⟨root, before, -, hconstants, hbefore, hplace, -⟩ := h.turn
      · rw [← hnone, hroots] at hc
        exact absurd hc not_mem_nil
      · rw [hconstants, hroots] at hc
        obtain hc | hc := mem_append.mp hc
        · exact hbefore c hc
        · obtain rfl := mem_singleton.mp hc
          refine hplace.resolve_right ?_
          rw [hpending]
          exact not_mem_nil
    · exact Progress.noConfusion hstep
  · split at hstep
    · exact Progress.noConfusion hstep
    split at hstep
    · unfold Evaluator.finish at hstep
      split at hstep
      · exact Progress.noConfusion hstep
      split at hstep <;> exact Progress.noConfusion hstep
    · unfold Evaluator.enter at hstep
      split at hstep
      · exact Progress.noConfusion hstep
      split at hstep <;> exact Progress.noConfusion hstep

end Evaluator

def FirstCyclic (p : Program) (c : Nat) : Prop :=
  ∃ before after, p.constants = before ++ c :: after ∧ Cyclic (Refers p) c ∧ ∀ b ∈ before, ¬Cyclic (Refers p) b

theorem FirstCyclic.unique (hc : FirstCyclic p c) (hd : FirstCyclic p d) : c = d := by
  obtain ⟨before, after, heq, hcyclic, hnone⟩ := hc
  obtain ⟨before', after', heq', hcyclic', hnone'⟩ := hd
  rw [heq] at heq'
  obtain ⟨rest, rfl, hrest⟩ | ⟨rest, rfl, hrest⟩ := append_eq_append_iff.mp heq'
  · cases rest with
    | nil => exact (List.cons.inj hrest).1
    | cons r rest =>
      obtain ⟨rfl, -⟩ := List.cons.inj hrest
      exact absurd hcyclic (hnone' c (mem_append_right _ (mem_cons_self ..)))
  · cases rest with
    | nil => exact (List.cons.inj hrest).1.symm
    | cons r rest =>
      obtain ⟨rfl, -⟩ := List.cons.inj hrest
      exact absurd hcyclic' (hnone d (mem_append_right _ (mem_cons_self ..)))

theorem exists_firstCyclic {constants : List Nat} (h : ∃ c ∈ constants, Cyclic (Refers p) c) :
    ∃ before c after, constants = before ++ c :: after ∧ Cyclic (Refers p) c ∧ ∀ b ∈ before, ¬Cyclic (Refers p) b := by
  induction constants with
  | nil =>
    obtain ⟨c, hc, -⟩ := h
    exact absurd hc not_mem_nil
  | cons c rest ih =>
    by_cases hcyclic : Cyclic (Refers p) c
    · exact ⟨[], c, rest, rfl, hcyclic, fun b hb => absurd hb not_mem_nil⟩
    · obtain ⟨d, hd, hdcyclic⟩ := h
      obtain rfl | hd := mem_cons.mp hd
      · exact absurd hdcyclic hcyclic
      · obtain ⟨before, e, after, rfl, hecyclic, hnone⟩ := ih ⟨d, hd, hdcyclic⟩
        refine ⟨c :: before, e, after, rfl, hecyclic, fun b hb => ?_⟩
        obtain rfl | hb := mem_cons.mp hb
        · exact hcyclic
        · exact hnone b hb

/-- A run that ended with `ConstCycle` in the turn of `c`. -/
def Reported (ending : Evaluator × Except Diagnostic Unit) (c : Nat) : Prop :=
  ending.1.root = some c ∧ ∃ d, ending.2 = .error d ∧ d.kind = .constCycle

def OnlyCycles (ending : Evaluator × Except Diagnostic Unit) : Prop :=
  ∀ d, ending.2 = .error d → d.kind = .constCycle

open Evaluator in
theorem Reported.first (h : Reported ((start p).run m) c) : FirstCyclic p c := by
  obtain ⟨hroot, d, hresult, hkind⟩ := h
  obtain ⟨hreach, hend⟩ := run_reaches (m := m) (start p)
  rw [hresult] at hend
  have hinv : Inv p ((start p).run m).1 := inv_start.reaches hreach
  obtain ⟨root, before, hroot', hconstants, hbefore, hcyclic⟩ := hinv.cyclic hend hkind
  obtain rfl := Option.some.inj (hroot.symm.trans hroot')
  exact ⟨before, _, hconstants, hcyclic, fun b hb => hinv.not_cyclic (hbefore b hb)⟩

open Evaluator in
theorem FirstCyclic.reported (h : FirstCyclic p c) (honly : OnlyCycles ((start p).run m)) :
    Reported ((start p).run m) c := by
  obtain ⟨hreach, hend⟩ := run_reaches (m := m) (start p)
  have hinv : Inv p ((start p).run m).1 := inv_start.reaches hreach
  cases hresult : ((start p).run m).2 with
  | ok =>
    rw [hresult] at hend
    obtain ⟨before, after, hconstants, hcyclic, -⟩ := h
    have hmem : c ∈ p.constants := hconstants ▸ mem_append_right _ (mem_cons_self ..)
    exact absurd hcyclic (hinv.not_cyclic (hinv.done hend hmem))
  | error d =>
    rw [hresult] at hend
    have hkind := honly d hresult
    obtain ⟨root, -, hroot, -⟩ := hinv.cyclic hend hkind
    have hreported : Reported ((start p).run m) root := ⟨hroot, d, hresult, hkind⟩
    exact h.unique hreported.first ▸ hreported

open Evaluator in
/-- The walk of an initializer ends and visits what the initializer refers to, through `const def`s
too. In every state of the evaluation a constant with a value reaches no cycle, and an initializer
that is evaluated refers only to constants with values. A cycle is reported only in the turn of
the first constant that reaches one; it is reported there unless something else stops the run
before, and a run that succeeds gives every constant a value. -/
theorem constCycle_exact (p : Program) (m : Machine p) : (∀ s, ReflTransGen (Next m) (start p) s →
      (∀ c, (p.walk s.memo c).frames = [] ∧
        ∀ d, (∃ span, .constant d span ∈ (p.walk s.memo c).visited) ↔ Refers p c d) ∧
      (∀ c, (s.valueOf c).isSome → ¬Cyclic (Refers p) c) ∧
      ∀ entry pending, s.pending = entry :: pending → entry.finishing = true →
        ∀ d, Refers p entry.id d → (s.valueOf d).isSome) ∧
    (∀ c, Reported ((start p).run m) c → FirstCyclic p c) ∧
    (OnlyCycles ((start p).run m) → (∀ c, FirstCyclic p c → Reported ((start p).run m) c) ∧
      ((∃ c, Reported ((start p).run m) c) ↔ ∃ c ∈ p.constants, Cyclic (Refers p) c)) ∧
    (((start p).run m).2 = .ok () → ∀ c ∈ p.constants, (((start p).run m).1.valueOf c).isSome) := by
  refine ⟨fun s hreach => ?_, fun c hc => hc.first, fun honly => ⟨fun c hc => hc.reported honly, ?_, ?_⟩, ?_⟩
  · have hinv : Inv p s := inv_start.reaches hreach
    refine ⟨fun c => ⟨walk_ends hinv.memo c, fun d => walk_visits hinv.memo⟩,
      fun c hc => hinv.not_cyclic (isSome_valueOf.mp hc), fun entry pending hpending hfinishing d href => ?_⟩
    exact isSome_valueOf.mpr (hinv.ready hpending hfinishing href)
  · rintro ⟨c, hc⟩
    obtain ⟨before, after, hconstants, hcyclic, -⟩ := hc.first
    exact ⟨c, hconstants ▸ mem_append_right _ (mem_cons_self ..), hcyclic⟩
  · intro hexists
    obtain ⟨before, c, after, hconstants, hcyclic, hnone⟩ := exists_firstCyclic hexists
    exact ⟨c, FirstCyclic.reported ⟨before, after, hconstants, hcyclic, hnone⟩ honly⟩
  · intro hresult c hc
    obtain ⟨hreach, hend⟩ := run_reaches (m := m) (start p)
    rw [hresult] at hend
    exact isSome_valueOf.mpr ((inv_start.reaches hreach).done hend hc)

/-! ## A failing constant before a cycle -/

def literalRun (p : Program) (id : Nat) (values : Nat → Option Value) (remaining : Nat) :
    Except Diagnostic (Value × Nat) :=
  match p.constantOf (p.functions id).body with
  | some d =>
    match values d with
    | some value => .ok (value, remaining - 1 - value.size)
    | none => .error (cycle (p.functions id).body.span)
  | none =>
    match (p.functions id).body.kind with
    | .int _ => .ok (⟨(p.functions id).body, 1, 1⟩, remaining - 1)
    | .binary .divide ⟨.int _, _, _⟩ ⟨.int 0, _, _⟩ =>
      .error ⟨.constEvaluationTrapped, (p.functions id).body.span,
        "const division trapped on zero or signed overflow; use a nonzero divisor without overflow"⟩
    | _ => .error ⟨.constOperationNotAllowed, (p.functions id).body.span,
        "this operation is not allowed in a const def; move it to a runtime def"⟩

def literalMachine (p : Program) : Machine p where
  evaluate := literalRun p
  runs id values remaining := by
    unfold literalRun
    split
    · rename_i d hconst
      split
      · exact .value ..
      · rename_i hvalue
        exact .constant .initializer hconst hvalue
    · split
      · exact .value ..
      · exact .stops _ DiagnosticKind.noConfusion
      · exact .stops _ DiagnosticKind.noConfusion

/-- `const a = 1 / 0` and `const b = b` -/
def trapFirst : Program where
  functions
    | 0 => ⟨⟨.binary .divide ⟨.int 1, .integer 64 true, default⟩ ⟨.int 0, .integer 64 true, default⟩,
        .integer 64 true, default⟩, default⟩
    | _ => ⟨⟨.call ⟨.function (.user 1), .unit, default⟩ [], .integer 64 true, default⟩, default⟩
  constants := [0, 1]
  constFunctions := []

theorem cyclic_trapFirst : Cyclic (Refers trapFirst) 1 :=
  have href : Refers trapFirst 1 1 := ⟨_, .initializer, by decide⟩
  ⟨1, .refl, .single href⟩

theorem dependencies_trapFirst : dependencies 0 (trapFirst.walk [] 0).visited = [] := by
  have hnames : trapFirst.namedIn 0 = [] := by
    show trapFirst.names _ = []
    rw [names_of_other (by decide)]
    simp [trapFirst, TypedExpr.children, Program.constDefOf, names_of_other, Program.constantOf, constantId]
  simp [dependencies, Program.walk, ConstDefWalk.turns, ConstDefWalk.start, ConstDefWalk.step, Program.namesOf,
    hnames, show trapFirst.constFunctions = [] from rfl]

/-- The evaluation stops at the constant that traps, and the cycle behind it is not reported. -/
theorem trap_hides_cycle : ¬∀ (p : Program) (m : Machine p), (∀ d, ((Evaluator.start p).run m).2 = .error d →
        d.kind ≠ .constLimitExceeded ∧ d.kind ≠ .constCallDepthLimit) →
      ∀ c ∈ p.constants, Cyclic (Refers p) c →
        ∃ d, ((Evaluator.start p).run m).2 = .error d ∧ d.kind = .constCycle := by
  intro h
  have hrun : ((Evaluator.start trapFirst).run (literalMachine trapFirst)).2 = .error ⟨.constEvaluationTrapped, default,
        "const division trapped on zero or signed overflow; use a nonzero divisor without overflow"⟩ := by
    have henter : ((Evaluator.start trapFirst).turn trapFirst 0 [1]).step (literalMachine trapFirst) =
        .next { (Evaluator.start trapFirst).turn trapFirst 0 [1] with
          memo := (trapFirst.walk [] 0).memo
          active := [0]
          references := 1
          pending := dependencies 0 (trapFirst.walk [] 0).visited ++ [⟨0, true, 0, default⟩] } := rfl
    rw [dependencies_trapFirst] at henter
    rw [Evaluator.run_next (t := (Evaluator.start trapFirst).turn trapFirst 0 [1]) rfl, Evaluator.run_next henter,
      Evaluator.run_fail rfl]
    rfl
  obtain ⟨d, hd, hkind⟩ := h trapFirst (literalMachine trapFirst)
    (fun d hd => by rw [hrun] at hd; obtain rfl := Except.error.inj hd; decide) 1 (by decide) cyclic_trapFirst
  rw [hrun] at hd
  cases hd
  cases hkind

/-- `const b = b` alone -/
def loopOnly : Program := { trapFirst with constants := [1] }

/-- The cycle is reported in the turn of `b`. -/
theorem constCycle_exact_loop : Reported ((Evaluator.start loopOnly).run (literalMachine loopOnly)) 1 := by
  have href : Refers loopOnly 1 1 := ⟨_, .initializer, by decide⟩
  have hdependencies : dependencies 0 (loopOnly.walk [] 1).visited = [⟨1, false, 1, default⟩] := by
    have hnames : loopOnly.namedIn 1 = [.constant 1 default] := names_of_constant (by decide)
    simp [dependencies, Program.walk, ConstDefWalk.turns, ConstDefWalk.start, ConstDefWalk.step, Program.namesOf,
      hnames, show loopOnly.constFunctions = [] from rfl]
  have henter : ((Evaluator.start loopOnly).turn loopOnly 1 []).step (literalMachine loopOnly) =
      .next { (Evaluator.start loopOnly).turn loopOnly 1 [] with
        memo := (loopOnly.walk [] 1).memo
        active := [1]
        references := 1
        pending := dependencies 0 (loopOnly.walk [] 1).visited ++ [⟨1, true, 0, default⟩] } := rfl
  rw [hdependencies] at henter
  have honly : OnlyCycles ((Evaluator.start loopOnly).run (literalMachine loopOnly)) := by
    rw [Evaluator.run_next (t := (Evaluator.start loopOnly).turn loopOnly 1 []) rfl, Evaluator.run_next henter,
      Evaluator.run_fail rfl]
    intro d hd
    cases hd
    rfl
  exact ((constCycle_exact loopOnly (literalMachine loopOnly)).2.2.1 honly).1 1
    ⟨[], [], rfl, ⟨1, .refl, .single href⟩, by simp⟩

end Tsuzuri.Constants
