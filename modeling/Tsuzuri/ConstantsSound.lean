import Tsuzuri.Constants
import Tsuzuri.Dependencies

/-!
# The walk of an initializer

The walk ends, whatever the `const def`s call, and visits exactly the constants that the initializer
refers to.
-/

namespace Tsuzuri.Constants

open List

variable {p : Program} {c : Nat}

variable {d callee : Nat} {memo : List (Nat × List Named)} {n : Named}

theorem names_of_constant {e : TypedExpr} (h : p.constantOf e = some d) : p.names e = [.constant d e.span] := by
  rw [Program.names]
  split
  · rename_i heq
    rw [Option.some.inj (heq.symm.trans h)]
  · rename_i heq
    cases heq.symm.trans h

theorem names_of_other {e : TypedExpr} (h : p.constantOf e = none) :
    p.names e = (p.constDefOf e).toList.map .constDef ++ e.children.reverse.flatMap p.names := by
  rw [Program.names]
  split
  · rename_i heq
    cases heq.symm.trans h
  · rw [← flatMap_map, attach_map_subtype_val]

theorem constantOf_of_constDefOf {e : TypedExpr} (h : p.constDefOf e = some callee) : p.constantOf e = none := by
  unfold Program.constDefOf at h
  split at h
  · rename_i hkind
    simp [Program.constantOf, constantId, hkind]
  · cases h

theorem mem_of_constDefOf {e : TypedExpr} (h : p.constDefOf e = some callee) : callee ∈ p.constFunctions := by
  unfold Program.constDefOf at h
  split at h
  · split at h
    · rename_i hmem
      exact Option.some.inj h ▸ hmem
    · cases h
  · cases h

theorem names_subset {e child : TypedExpr} (hconst : p.constantOf e = none) (h : child ∈ e.children) :
    p.names child ⊆ p.names e := by
  intro n hn
  rw [names_of_other hconst]
  exact mem_append_right _ (mem_flatMap.mpr ⟨child, mem_reverse.mpr h, hn⟩)

theorem constDef_mem_names {e : TypedExpr} (h : p.constDefOf e = some callee) : .constDef callee ∈ p.names e := by
  rw [names_of_other (constantOf_of_constDefOf h), h]
  exact mem_append_left _ (mem_singleton_self _)

def Named.Met (p : Program) (c : Nat) : Named → Prop
  | .constant d _ => Refers p c d
  | .constDef callee => callee ∈ p.constFunctions ∧ Meets p c (p.functions callee).body

theorem names_met (e : TypedExpr) (h : Meets p c e) : ∀ n ∈ p.names e, n.Met p c := by
  intro n hn
  cases hconst : p.constantOf e with
  | some d =>
    rw [names_of_constant hconst] at hn
    obtain rfl := mem_singleton.mp hn
    exact ⟨e, h, hconst⟩
  | none =>
    rw [names_of_other hconst] at hn
    obtain hn | hn := mem_append.mp hn
    · obtain ⟨callee, hcallee, rfl⟩ := mem_map.mp hn
      have hcallee := Option.mem_toList.mp hcallee
      exact ⟨mem_of_constDefOf hcallee, h.invoke hcallee⟩
    · obtain ⟨child, hchild, hn⟩ := mem_flatMap.mp hn
      have hchild := mem_reverse.mp hchild
      exact names_met child (h.child hconst hchild) n hn
termination_by e
decreasing_by exact TypedExpr.sizeOf_lt_of_mem_children hchild

/-! ## The walk -/

def Remembers (p : Program) (memo : List (Nat × List Named)) : Prop :=
  ∀ function names, memo.lookup function = some names → names = p.namedIn function

theorem Remembers.namesOf (h : Remembers p memo) (function : Nat) :
    (p.namesOf memo function).1 = p.namedIn function ∧ Remembers p (p.namesOf memo function).2 := by
  unfold Program.namesOf
  cases hlookup : memo.lookup function with
  | some names => exact ⟨h _ _ hlookup, h⟩
  | none =>
    refine ⟨rfl, fun other names hother => ?_⟩
    rw [lookup_cons] at hother
    split at hother
    · rename_i heq
      rw [beq_iff_eq.mp heq]
      exact (Option.some.inj hother).symm
    · exact h _ _ hother

namespace ConstDefWalk

variable {w : ConstDefWalk}

def Handled (w : ConstDefWalk) : Named → Prop
  | n@(.constant ..) => n ∈ w.visited
  | .constDef callee => callee ∈ w.scanned

structure Inv (p : Program) (c : Nat) (w : ConstDefWalk) : Prop where
  memo : Remembers p w.memo
  frames : ∀ frame ∈ w.frames, ∀ n ∈ frame, n.Met p c
  visited : ∀ n ∈ w.visited, n.Met p c
  handled : ∀ function, function = c ∨ function ∈ w.scanned → ∀ n ∈ p.namedIn function,
    (∃ frame ∈ w.frames, n ∈ frame) ∨ w.Handled n

theorem Inv.start (h : Remembers p memo) : Inv p c (.start p memo c) := by
  obtain ⟨hnames, hmemo⟩ := h.namesOf c
  refine ⟨hmemo, ?_, fun n hn => absurd hn not_mem_nil, ?_⟩
  · intro frame hframe n hn
    obtain rfl := mem_singleton.mp hframe
    rw [hnames] at hn
    exact names_met _ .initializer n hn
  · rintro function (rfl | hscanned) n hn
    · exact .inl ⟨_, mem_singleton_self _, hnames ▸ hn⟩
    · exact absurd hscanned not_mem_nil

variable {w' : ConstDefWalk}

theorem Inv.advance {names : List Named} {frames : List (List Named)} (h : Inv p c w)
    (hframes : w.frames = (n :: names) :: frames) (hmemo : Remembers p w'.memo)
    (hvisited : ∀ n' ∈ w'.visited, n' ∈ w.visited ∨ n' = n) (hold : ∀ n', w.Handled n' → w'.Handled n')
    (hnew : w'.Handled n) (hsub : ∀ frame ∈ w'.frames, frame ∈ names :: frames ∨
      ∃ callee, n = .constDef callee ∧ frame = p.namedIn callee) (hkept : ∀ frame ∈ names :: frames, frame ∈ w'.frames)
    (hscanned : ∀ callee ∈ w'.scanned, callee ∈ w.scanned ∨ p.namedIn callee ∈ w'.frames) : Inv p c w' := by
  have hmet : n.Met p c := h.frames _ (hframes ▸ mem_cons_self ..) n (mem_cons_self ..)
  refine ⟨hmemo, ?_, ?_, ?_⟩
  · intro frame hframe n' hn'
    obtain hmem | ⟨callee, rfl, rfl⟩ := hsub frame hframe
    · obtain rfl | hmem := mem_cons.mp hmem
      · exact h.frames _ (hframes ▸ mem_cons_self ..) n' (mem_cons_of_mem _ hn')
      · exact h.frames frame (hframes ▸ mem_cons_of_mem _ hmem) n' hn'
    · exact names_met _ hmet.2 n' hn'
  · intro n' hn'
    obtain hn' | rfl := hvisited n' hn'
    · exact h.visited n' hn'
    · exact hmet
  · intro function hfunction n' hn'
    have hcase : (function = c ∨ function ∈ w.scanned) ∨ p.namedIn function ∈ w'.frames := by
      obtain rfl | hmem := hfunction
      · exact .inl (.inl rfl)
      · exact (hscanned function hmem).imp_left .inr
    obtain hbefore | hframe := hcase
    · obtain ⟨frame, hframe, hmem⟩ | hdone := h.handled function hbefore n' hn'
      · rw [hframes] at hframe
        obtain rfl | hframe := mem_cons.mp hframe
        · obtain rfl | hmem := mem_cons.mp hmem
          · exact .inr hnew
          · exact .inl ⟨names, hkept _ (mem_cons_self ..), hmem⟩
        · exact .inl ⟨frame, hkept _ (mem_cons_of_mem _ hframe), hmem⟩
      · exact .inr (hold n' hdone)
    · exact .inl ⟨_, hframe, hn'⟩

theorem Handled.mono {w : ConstDefWalk} (hvisited : w.visited ⊆ w'.visited)
    (hscanned : w.scanned ⊆ w'.scanned) (n : Named) (h : w.Handled n) : w'.Handled n := by
  cases n with
  | constant d span => exact hvisited h
  | constDef callee => exact hscanned h

theorem Inv.step (h : Inv p c w) : Inv p c (w.step p) := by
  unfold ConstDefWalk.step
  split
  · exact h
  · rename_i frames hframes
    refine ⟨h.memo, fun frame hframe => h.frames frame (hframes ▸ mem_cons_of_mem _ hframe), h.visited, ?_⟩
    intro function hfunction n hn
    obtain ⟨frame, hframe, hmem⟩ | hdone := h.handled function hfunction n hn
    · rw [hframes] at hframe
      obtain rfl | hframe := mem_cons.mp hframe
      · exact absurd hmem not_mem_nil
      · exact .inl ⟨frame, hframe, hmem⟩
    · exact .inr (Handled.mono (List.Subset.refl _) (List.Subset.refl _) n hdone)
  · rename_i d span names frames hframes
    refine h.advance hframes h.memo (fun n' hn' => ?_)
      (Handled.mono (fun _ hx => mem_append_left _ hx) (List.Subset.refl _))
      (mem_append_right _ (mem_singleton_self _)) (fun frame hframe => .inl hframe)
      (fun frame hframe => hframe) fun callee hcallee => .inl hcallee
    exact (mem_append.mp hn').imp_right mem_singleton.mp
  · rename_i callee names frames hframes
    split
    · rename_i hscanned
      exact h.advance hframes h.memo (fun n' hn' => .inl hn')
        (Handled.mono (List.Subset.refl _) (List.Subset.refl _)) hscanned (fun frame hframe => .inl hframe)
        (fun frame hframe => hframe) fun callee hcallee => .inl hcallee
    · obtain ⟨hnames, hmemo⟩ := h.memo.namesOf callee
      refine h.advance hframes hmemo (fun n' hn' => ?_)
        (Handled.mono (fun _ hx => mem_append_left _ hx) fun _ hx => mem_cons_of_mem _ hx)
        (mem_cons_self ..) (fun frame hframe => ?_) (fun frame hframe => mem_cons_of_mem _ hframe)
        fun other hother => ?_
      · exact (mem_append.mp hn').imp_right mem_singleton.mp
      · obtain rfl | hframe := mem_cons.mp hframe
        · exact .inr ⟨callee, rfl, hnames⟩
        · exact .inl hframe
      · obtain rfl | hother := mem_cons.mp hother
        · exact .inr (hnames ▸ mem_cons_self ..)
        · exact .inl hother

theorem Inv.iterate (n : Nat) : ∀ {w : ConstDefWalk}, Inv p c w → Inv p c ((ConstDefWalk.step p)^[n] w) := by
  induction n with
  | zero => exact fun h => h
  | succ n ih => exact fun h => ih h.step

/-! ## The end of the walk -/

def left (p : Program) (w : ConstDefWalk) : Nat :=
  w.frames.foldr (fun frame n => frame.length + 1 + n) 0 +
    turns p (p.constFunctions.filter fun callee => decide (callee ∉ w.scanned))

theorem turns_scan {scanned : List Nat} (hnew : callee ∉ scanned) : ∀ {functions : List Nat}, callee ∈ functions →
    turns p (functions.filter fun f => decide (f ∉ callee :: scanned)) + ((p.namedIn callee).length + 1) ≤
      turns p (functions.filter fun f => decide (f ∉ scanned)) := by
  have hle : ∀ functions : List Nat, turns p (functions.filter fun f => decide (f ∉ callee :: scanned)) ≤
      turns p (functions.filter fun f => decide (f ∉ scanned)) := by
    intro functions
    induction functions with
    | nil => exact Nat.le_refl _
    | cons f functions ih =>
      by_cases hf : f ∈ scanned
      · simpa [hf] using ih
      · by_cases heq : f = callee
        · simp only [filter_cons, heq, mem_cons, true_or, not_true_eq_false, decide_false,
            Bool.false_eq_true, if_false, hnew, not_false_eq_true, decide_true, if_true]
          simp only [turns, foldr_cons] at ih ⊢
          simp only [mem_cons] at ih
          omega
        · simp only [filter_cons, heq, mem_cons, false_or, hf, not_false_eq_true, decide_true, if_true]
          simp only [turns, foldr_cons] at ih ⊢
          simp only [mem_cons] at ih
          omega
  intro functions hmem
  induction functions with
  | nil => exact absurd hmem not_mem_nil
  | cons f functions ih =>
    by_cases heq : f = callee
    · have := hle functions
      simp only [filter_cons, heq, mem_cons, true_or, not_true_eq_false, decide_false,
        Bool.false_eq_true, if_false, hnew, not_false_eq_true, decide_true, if_true] at this ⊢
      simp only [turns, foldr_cons] at this ⊢
      omega
    · have := ih ((mem_cons.mp hmem).resolve_left fun h => heq h.symm)
      by_cases hf : f ∈ scanned
      · simpa [hf] using this
      · simp only [filter_cons, heq, mem_cons, false_or, hf, not_false_eq_true, decide_true, if_true] at this ⊢
        simp only [turns, foldr_cons] at this ⊢
        omega

theorem Inv.left_lt (h : Inv p c w) (hframes : w.frames ≠ []) : left p (w.step p) < left p w := by
  unfold ConstDefWalk.step
  split
  · contradiction
  · rename_i frames hframes
    simp only [left, hframes, foldr_cons, length_nil]
    omega
  · rename_i d span names frames hframes
    simp only [left, hframes, foldr_cons, length_cons]
    omega
  · rename_i callee names frames hframes
    split
    · simp only [left, hframes, foldr_cons, length_cons]
      omega
    · rename_i hnew
      have hmet : Named.Met p c (.constDef callee) :=
        h.frames _ (hframes ▸ mem_cons_self ..) _ (mem_cons_self ..)
      have hscan := turns_scan hnew hmet.1 (p := p)
      simp only [left, hframes, foldr_cons, length_cons, (h.memo.namesOf callee).1]
      omega

theorem iterate_of_nil (h : w.frames = []) (n : Nat) : (ConstDefWalk.step p)^[n] w = w :=
  Function.iterate_fixed (by simp [ConstDefWalk.step, h]) n

theorem Inv.ends (n : Nat) : ∀ {w : ConstDefWalk}, Inv p c w → left p w ≤ n →
    ((ConstDefWalk.step p)^[n] w).frames = [] := by
  induction n with
  | zero =>
    intro w h hle
    by_contra hframes
    exact absurd (h.left_lt hframes) (by omega)
  | succ n ih =>
    intro w h hle
    by_cases hframes : w.frames = []
    · rw [iterate_of_nil hframes]
      exact hframes
    · exact ih h.step (by have := h.left_lt hframes; omega)

theorem left_start (h : Remembers p memo) : left p (.start p memo c) = turns p (c :: p.constFunctions) := by
  simp [left, ConstDefWalk.start, turns, (h.namesOf c).1]

end ConstDefWalk

section Walk

open ConstDefWalk

variable {memo : List (Nat × List Named)}

variable (h : Remembers p memo)

include h

theorem walk_inv (c : Nat) : Inv p c (p.walk memo c) := (Inv.start h).iterate _

theorem walk_ends (c : Nat) : (p.walk memo c).frames = [] :=
  (Inv.start h).ends _ (Nat.le_of_eq (left_start h))

theorem walk_handled {function : Nat} (hfunction : function = c ∨ function ∈ (p.walk memo c).scanned)
    (hn : n ∈ p.namedIn function) : (p.walk memo c).Handled n := by
  refine ((walk_inv h c).handled function hfunction n hn).resolve_left ?_
  rintro ⟨frame, hframe, -⟩
  rw [walk_ends h c] at hframe
  exact absurd hframe not_mem_nil

theorem walk_meets {e : TypedExpr} (hmeets : Meets p c e) :
    ∃ function, (function = c ∨ function ∈ (p.walk memo c).scanned) ∧ p.names e ⊆ p.namedIn function := by
  induction hmeets with
  | initializer => exact ⟨c, .inl rfl, List.Subset.refl _⟩
  | child _ hconst hchild ih =>
    obtain ⟨function, hfunction, hsub⟩ := ih
    exact ⟨function, hfunction, List.Subset.trans (names_subset hconst hchild) hsub⟩
  | invoke _ hcallee ih =>
    obtain ⟨function, hfunction, hsub⟩ := ih
    exact ⟨_, .inr (walk_handled h hfunction (hsub (constDef_mem_names hcallee))), List.Subset.refl _⟩

theorem walk_visits : (∃ span, .constant d span ∈ (p.walk memo c).visited) ↔ Refers p c d := by
  constructor
  · rintro ⟨span, hspan⟩
    exact (walk_inv h c).visited _ hspan
  · rintro ⟨e, hmeets, hconst⟩
    obtain ⟨function, hfunction, hsub⟩ := walk_meets h hmeets
    rw [names_of_constant hconst] at hsub
    exact ⟨e.span, walk_handled h hfunction (hsub (mem_singleton_self _))⟩

end Walk

end Tsuzuri.Constants
