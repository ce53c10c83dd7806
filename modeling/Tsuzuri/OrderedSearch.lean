import Mathlib.Data.List.Basic
import Mathlib.Data.List.Nodup
import Mathlib.Data.List.Perm.Subperm
import Mathlib.Logic.Relation
import Mathlib.Order.WellFounded

/-!
# Backtracking and depth-first search

A graph has ordered edges, each of which changes a label, and some of its vertices give a result.
-/

namespace OrderedSearch

open List Option

variable {V σ ρ : Type}
variable {trail : List V} {v : V}

section Walk

variable [DecidableEq V] (next : V → σ → List (V × σ)) (leaf : V → σ → Option ρ)

def walk : Nat → List V → V → σ → Option ρ
  | 0, _, _, _ => none
  | fuel + 1, trail, v, s =>
    if v ∈ trail then none
    else (leaf v s).or ((next v s).findSome? fun e => walk fuel (v :: trail) e.1 e.2)

def backtrack (count : Nat) (v : V) (s : σ) : Option ρ :=
  walk next leaf (count + 1) [] v s

variable {next leaf}
variable {fuel : Nat}

theorem walk_trail (h : v ∈ trail) (s : σ) : walk next leaf fuel trail v s = none := by
  cases fuel with
  | zero => rfl
  | succ fuel => rw [walk, if_pos h]

theorem walk_fresh (h : v ∉ trail) (s : σ) : walk next leaf (fuel + 1) trail v s =
      (leaf v s).or ((next v s).findSome? fun e => walk next leaf fuel (v :: trail) e.1 e.2) := by
  rw [walk, if_neg h]

theorem walk_inv (P : V → σ → Prop) (Q : ρ → Prop) (hnext : ∀ v s, P v s → ∀ e ∈ next v s, P e.1 e.2)
    (hleaf : ∀ v s r, P v s → leaf v s = some r → Q r) :
    ∀ (fuel : Nat) (trail : List V) (v : V) (s : σ) (r : ρ), P v s → walk next leaf fuel trail v s = some r → Q r := by
  intro fuel
  induction fuel with
  | zero =>
    intro trail v s r _ h
    cases h
  | succ fuel ih =>
    intro trail v s r hp h
    by_cases hin : v ∈ trail
    · rw [walk_trail hin] at h
      cases h
    · rw [walk_fresh hin] at h
      rcases or_eq_some_iff.mp h with h | ⟨_, h⟩
      · exact hleaf v s r hp h
      · obtain ⟨e, he, h⟩ := exists_of_findSome?_eq_some h
        exact ih _ _ _ r (hnext v s hp e he) h

theorem walk_map {τ π : Type} {next' : V → τ → List (V × τ)} {leaf' : V → τ → Option π} (f : σ → τ) (g : ρ → π)
    (hnext : ∀ v s, next' v (f s) = (next v s).map fun e => (e.1, f e.2))
    (hleaf : ∀ v s, leaf' v (f s) = (leaf v s).map g) : ∀ (fuel : Nat) (trail : List V) (v : V) (s : σ),
      walk next' leaf' fuel trail v (f s) = (walk next leaf fuel trail v s).map g := by
  intro fuel
  induction fuel with
  | zero =>
    intro trail v s
    rfl
  | succ fuel ih =>
    intro trail v s
    by_cases hin : v ∈ trail
    · rw [walk_trail hin, walk_trail hin, map_none]
    · rw [walk_fresh hin, walk_fresh hin, hleaf, hnext, findSome?_map, map_or, map_findSome?]
      congr 2
      funext e
      exact ih _ _ _

end Walk

/-- The vertices of a graph, behind which only vertices come. -/
structure Uniform (vertices : List V) (next : V → σ → List (V × σ)) (leaf : V → σ → Option ρ) :
    Prop where
  next_mem : ∀ v ∈ vertices, ∀ s, ∀ e ∈ next v s, e.1 ∈ vertices
  next_fst : ∀ v s t, (next v s).map Prod.fst = (next v t).map Prod.fst
  leaf_isSome : ∀ v s t, (leaf v s).isSome = (leaf v t).isSome

section Reach

variable {vertices : List V} {next : V → σ → List (V × σ)} {leaf : V → σ → Option ρ}

theorem Uniform.next_iff (hu : Uniform vertices next leaf) (v w : V) (s t : σ) :
    (∃ r, (w, r) ∈ next v s) ↔ ∃ r, (w, r) ∈ next v t := by
  have h := hu.next_fst v s t
  have hmem : ∀ s, (∃ r, (w, r) ∈ next v s) ↔ w ∈ (next v s).map Prod.fst := by
    intro s
    simp
  rw [hmem, hmem, h]

theorem Uniform.leaf_none (hu : Uniform vertices next leaf) {s : σ} (t : σ) (h : leaf v s = none) :
    leaf v t = none := by
  have := hu.leaf_isSome v s t
  rw [h] at this
  simpa using this.symm

def Edge (next : V → σ → List (V × σ)) (v w : V) : Prop :=
  ∃ s t, (w, t) ∈ next v s

theorem reach_cons {u : V} (h : Relation.ReflTransGen (fun a b => Edge next a b ∧ b ∉ trail) v u) :
    u = v ∨ ∃ w, Edge next v w ∧ w ∉ v :: trail ∧
      Relation.ReflTransGen (fun a b => Edge next a b ∧ b ∉ v :: trail) w u := by
  induction h with
  | refl => exact .inl rfl
  | @tail b c _ hbc ih =>
    by_cases hc : c = v
    · exact .inl hc
    · have hout : c ∉ v :: trail := by
        simp only [mem_cons, not_or]
        exact ⟨hc, hbc.2⟩
      rcases ih with rfl | ⟨w, hvw, hw, hreach⟩
      · exact .inr ⟨c, hbc.1, hout, .refl⟩
      · exact .inr ⟨w, hvw, hw, hreach.tail ⟨hbc.1, hout⟩⟩

variable [DecidableEq V]

theorem walk_closed (inside trail : List V) (hclosed : ∀ u ∈ inside, u ∉ trail → ∀ s, ∀ e ∈ next u s, e.1 ∈ inside)
    (hleaf : ∀ u ∈ inside, ∀ s, leaf u s = none) :
    ∀ (fuel : Nat) (seen : List V) (v : V) (s : σ), (∀ u ∈ trail, u ∈ seen) → v ∈ inside →
      walk next leaf fuel seen v s = none := by
  intro fuel
  induction fuel with
  | zero =>
    intro seen v s _ _
    rfl
  | succ fuel ih =>
    intro seen v s hseen hv
    by_cases hin : v ∈ seen
    · exact walk_trail hin s
    · rw [walk_fresh hin, hleaf v hv s, none_or, findSome?_eq_none_iff]
      intro e he
      have hout : v ∉ trail := fun h => hin (hseen v h)
      exact ih (v :: seen) e.1 e.2 (fun u hu => mem_cons_of_mem v (hseen u hu)) (hclosed v hv hout s e he)

theorem walk_isSome (hu : Uniform vertices next leaf) : ∀ (fuel : Nat) (trail : List V) (v : V) (s t : σ),
      (walk next leaf fuel trail v s).isSome = (walk next leaf fuel trail v t).isSome := by
  intro fuel
  induction fuel with
  | zero =>
    intro trail v s t
    rfl
  | succ fuel ih =>
    intro trail v s t
    by_cases hin : v ∈ trail
    · rw [walk_trail hin, walk_trail hin]
    · rw [walk_fresh hin, walk_fresh hin, isSome_or, isSome_or, hu.leaf_isSome v s t]
      congr 1
      rw [Bool.eq_iff_iff, findSome?_isSome_iff, findSome?_isSome_iff]
      have hstep : ∀ s t, (∃ e ∈ next v s, (walk next leaf fuel (v :: trail) e.1 e.2).isSome) →
          ∃ e ∈ next v t, (walk next leaf fuel (v :: trail) e.1 e.2).isSome := by
        rintro s t ⟨⟨w, r⟩, he, hsome⟩
        obtain ⟨r', he'⟩ := (hu.next_iff v w s t).mp ⟨r, he⟩
        refine ⟨(w, r'), he', ?_⟩
        rw [ih (v :: trail) w r' r]
        exact hsome
      exact ⟨hstep s t, hstep t s⟩

theorem leaf_none_of_walk (hu : Uniform vertices next leaf) :
    ∀ (fuel : Nat) (trail : List V) (v u : V) (s t : σ), v ∈ vertices → v ∉ trail → trail.Nodup →
      (∀ u ∈ trail, u ∈ vertices) → vertices.length + 1 ≤ fuel + trail.length → walk next leaf fuel trail v s = none →
      Relation.ReflTransGen (fun a b => Edge next a b ∧ b ∉ trail) v u → leaf u t = none := by
  intro fuel
  induction fuel with
  | zero =>
    intro trail v u s t _ _ hnodup hmem hfuel _ _
    have := hnodup.length_le_of_subset hmem
    omega
  | succ fuel ih =>
    intro trail v u s t hv hout hnodup hmem hfuel hwalk hreach
    rw [walk_fresh hout, or_eq_none_iff, findSome?_eq_none_iff] at hwalk
    rcases reach_cons hreach with rfl | ⟨w, ⟨s', t', hedge⟩, hw, hrest⟩
    · exact hu.leaf_none t hwalk.1
    · obtain ⟨r, he⟩ := (hu.next_iff v w s' s).mp ⟨t', hedge⟩
      refine ih (v :: trail) w u r t (hu.next_mem v hv s _ he) hw (nodup_cons.mpr ⟨hout, hnodup⟩)
        ?_ ?_ (hwalk.2 _ he) hrest
      · intro x hx
        rcases mem_cons.mp hx with rfl | hx
        · exact hv
        · exact hmem x hx
      · rw [length_cons]
        omega

theorem reach_of_walk : ∀ (fuel : Nat) (trail : List V) (v : V) (s : σ), (walk next leaf fuel trail v s).isSome →
      ∃ u t, Relation.ReflTransGen (Edge next) v u ∧ (leaf u t).isSome := by
  intro fuel
  induction fuel with
  | zero =>
    intro trail v s h
    cases h
  | succ fuel ih =>
    intro trail v s h
    by_cases hin : v ∈ trail
    · rw [walk_trail hin] at h
      cases h
    · rw [walk_fresh hin, isSome_or, Bool.or_eq_true, findSome?_isSome_iff] at h
      rcases h with h | ⟨⟨w, r⟩, he, h⟩
      · exact ⟨v, s, .refl, h⟩
      · obtain ⟨u, t, hreach, hleaf⟩ := ih _ w r h
        exact ⟨u, t, hreach.head ⟨s, r, he⟩, hleaf⟩

theorem backtrack_isSome (hu : Uniform vertices next leaf) (hv : v ∈ vertices) (s t : σ) :
    (backtrack next leaf vertices.length v s).isSome ↔
      ∃ u, Relation.ReflTransGen (Edge next) v u ∧ (leaf u t).isSome := by
  constructor
  · intro h
    obtain ⟨u, t', hreach, hleaf⟩ := reach_of_walk _ _ v s h
    exact ⟨u, hreach, by rw [hu.leaf_isSome u t t']; exact hleaf⟩
  · rintro ⟨u, hreach, hleaf⟩
    by_contra hnone
    have hnone : walk next leaf (vertices.length + 1) [] v s = none := by
      simpa [backtrack] using hnone
    have hempty := leaf_none_of_walk hu _ [] v u s t hv (not_mem_nil) nodup_nil
      (by simp) (by simp) hnone (hreach.lift id fun a b h => ⟨h, not_mem_nil⟩)
    rw [hempty] at hleaf
    cases hleaf

end Reach

/-! ## Depth-first search -/

inductive Explore (next : V → σ → List (V × σ)) :
    List (V × σ) → List (V × σ) → List (V × σ) → Prop
  | done (listed) : Explore next listed [] listed
  | skip {listed todo out} {v : V} {s : σ} : v ∈ listed.map Prod.fst →
      Explore next listed todo out → Explore next listed ((v, s) :: todo) out
  | enter {listed todo out} {v : V} {s : σ} : v ∉ listed.map Prod.fst →
      Explore next (listed ++ [(v, s)]) (next v s ++ todo) out →
      Explore next listed ((v, s) :: todo) out

variable {listed todo out : List (V × σ)}

theorem Explore.mem {next : V → σ → List (V × σ)} (h : Explore next listed todo out)
    (hv : v ∈ (listed ++ todo).map Prod.fst) : v ∈ out.map Prod.fst := by
  induction h with
  | done listed => simpa using hv
  | @skip listed todo out w s hin _ ih =>
    apply ih
    simp only [map_append, map_cons, mem_append, mem_cons] at hv ⊢
    rcases hv with hv | rfl | hv
    · exact .inl hv
    · exact .inl hin
    · exact .inr hv
  | @enter listed todo out w s _ _ ih =>
    apply ih
    simp only [map_append, map_cons, mem_append, mem_cons] at hv ⊢
    rcases hv with hv | rfl | hv
    · exact .inl (.inl hv)
    · exact .inl (.inr (.inl rfl))
    · exact .inr (.inr hv)

def Closed (next : V → σ → List (V × σ)) (listed : List (V × σ)) : Prop :=
  ∀ u ∈ listed.map Prod.fst, ∀ s, ∀ e ∈ next u s, e.1 ∈ listed.map Prod.fst

theorem Closed.nil (next : V → σ → List (V × σ)) : Closed next [] := by
  intro u hu
  cases hu

section Explore

variable {vertices : List V} {next : V → σ → List (V × σ)} {leaf : V → σ → Option ρ}

/-- A vertex to do, with its label and the trail on which it was found. -/
structure Todo (V σ : Type) where
  vertex : V
  label : σ
  trail : List V

def Todo.entry (t : Todo V σ) : V × σ := (t.vertex, t.label)

def Todo.value [DecidableEq V] (vertices : List V) (next : V → σ → List (V × σ)) (leaf : V → σ → Option ρ)
    (t : Todo V σ) : Option ρ :=
  walk next leaf (vertices.length + 1 - t.trail.length) t.trail t.vertex t.label

structure Pending (vertices : List V) (next : V → σ → List (V × σ)) (listed : List (V × σ))
    (todos : List (Todo V σ)) : Prop where
  vertex_mem : ∀ t ∈ todos, t.vertex ∈ vertices
  trail_listed : ∀ t ∈ todos, ∀ u ∈ t.trail, u ∈ listed.map Prod.fst
  trail_mem : ∀ t ∈ todos, ∀ u ∈ t.trail, u ∈ vertices
  trail_nodup : ∀ t ∈ todos, t.trail.Nodup
  nested : todos.Pairwise fun a b => ∀ u ∈ b.trail, u ∈ a.trail
  behind : ∀ u ∈ listed.map Prod.fst, ∀ s, ∀ e ∈ next u s,
    e.1 ∈ listed.map Prod.fst ∨ ∃ t ∈ todos, t.vertex = e.1 ∧ u ∈ t.trail

variable {listed : List (V × σ)} {t : Todo V σ} {todos : List (Todo V σ)}

theorem Pending.skip (h : Pending vertices next listed (t :: todos)) (hin : t.vertex ∈ listed.map Prod.fst) :
    Pending vertices next listed todos where
  vertex_mem := fun x hx => h.vertex_mem x (mem_cons_of_mem t hx)
  trail_listed := fun x hx => h.trail_listed x (mem_cons_of_mem t hx)
  trail_mem := fun x hx => h.trail_mem x (mem_cons_of_mem t hx)
  trail_nodup := fun x hx => h.trail_nodup x (mem_cons_of_mem t hx)
  nested := h.nested.of_cons
  behind := by
    intro u hu s e he
    rcases h.behind u hu s e he with hlisted | ⟨x, hx, hxe, hux⟩
    · exact .inl hlisted
    · rcases mem_cons.mp hx with rfl | hx
      · exact .inl (hxe ▸ hin)
      · exact .inr ⟨x, hx, hxe, hux⟩

def children (next : V → σ → List (V × σ)) (t : Todo V σ) : List (Todo V σ) :=
  (next t.vertex t.label).map fun e =>
    { vertex := e.1, label := e.2, trail := t.vertex :: t.trail }

theorem children_entry (next : V → σ → List (V × σ)) (t : Todo V σ) :
    (children next t).map Todo.entry = next t.vertex t.label := by
  simp [children, Todo.entry, Function.comp_def]

theorem mem_children {next : V → σ → List (V × σ)} {x : Todo V σ} : x ∈ children next t ↔ ∃ e ∈ next t.vertex t.label,
      x = { vertex := e.1, label := e.2, trail := t.vertex :: t.trail } := by
  simp [children, eq_comm]

theorem Pending.enter (hu : Uniform vertices next leaf) (h : Pending vertices next listed (t :: todos))
    (hout : t.vertex ∉ listed.map Prod.fst) :
    Pending vertices next (listed ++ [t.entry]) (children next t ++ todos) := by
  have ht := h.vertex_mem t mem_cons_self
  have htrail : t.vertex ∉ t.trail :=
    fun hin => hout (h.trail_listed t mem_cons_self _ hin)
  have hlisted : ∀ u, u ∈ (listed ++ [t.entry]).map Prod.fst ↔ u ∈ listed.map Prod.fst ∨ u = t.vertex := by
    intro u
    simp [Todo.entry]
  constructor
  · intro x hx
    rcases mem_append.mp hx with hx | hx
    · obtain ⟨e, he, rfl⟩ := mem_children.mp hx
      exact hu.next_mem _ ht _ e he
    · exact h.vertex_mem x (mem_cons_of_mem t hx)
  · intro x hx u hux
    rw [hlisted]
    rcases mem_append.mp hx with hx | hx
    · obtain ⟨e, _, rfl⟩ := mem_children.mp hx
      rcases mem_cons.mp hux with rfl | hux
      · exact .inr rfl
      · exact .inl (h.trail_listed t mem_cons_self u hux)
    · exact .inl (h.trail_listed x (mem_cons_of_mem t hx) u hux)
  · intro x hx u hux
    rcases mem_append.mp hx with hx | hx
    · obtain ⟨e, _, rfl⟩ := mem_children.mp hx
      rcases mem_cons.mp hux with rfl | hux
      · exact ht
      · exact h.trail_mem t mem_cons_self u hux
    · exact h.trail_mem x (mem_cons_of_mem t hx) u hux
  · intro x hx
    rcases mem_append.mp hx with hx | hx
    · obtain ⟨e, _, rfl⟩ := mem_children.mp hx
      exact nodup_cons.mpr ⟨htrail, h.trail_nodup t mem_cons_self⟩
    · exact h.trail_nodup x (mem_cons_of_mem t hx)
  · rw [pairwise_append]
    refine ⟨?_, h.nested.of_cons, ?_⟩
    · refine pairwise_of_forall_mem_list ?_
      intro x hx y hy u huy
      obtain ⟨e, _, rfl⟩ := mem_children.mp hx
      obtain ⟨e', _, rfl⟩ := mem_children.mp hy
      exact huy
    · intro x hx y hy u huy
      obtain ⟨e, _, rfl⟩ := mem_children.mp hx
      exact mem_cons_of_mem _ (rel_of_pairwise_cons h.nested hy u huy)
  · intro u hu' s e he
    rw [hlisted]
    rcases (hlisted u).mp hu' with hold | rfl
    · rcases h.behind u hold s e he with hin | ⟨x, hx, hxe, hux⟩
      · exact .inl (.inl hin)
      · rcases mem_cons.mp hx with rfl | hx
        · exact .inl (.inr hxe.symm)
        · exact .inr ⟨x, mem_append_right _ hx, hxe, hux⟩
    · obtain ⟨r, hr⟩ := (hu.next_iff t.vertex e.1 s t.label).mp ⟨e.2, he⟩
      exact .inr ⟨_, mem_append_left _ (mem_children.mpr ⟨_, hr, rfl⟩), rfl, mem_cons_self⟩

variable [DecidableEq V]

theorem Todo.value_enter (h : Pending vertices next listed (t :: todos)) (hout : t.vertex ∉ listed.map Prod.fst) :
    t.value vertices next leaf =
      (leaf t.vertex t.label).or ((children next t).findSome? (Todo.value vertices next leaf)) := by
  have htrail : t.vertex ∉ t.trail :=
    fun hin => hout (h.trail_listed t mem_cons_self _ hin)
  have hlen : t.trail.length < vertices.length := by
    have : (t.vertex :: t.trail).length ≤ vertices.length := Nodup.length_le_of_subset
      (nodup_cons.mpr ⟨htrail, h.trail_nodup t mem_cons_self⟩) (by
        intro u hu
        rcases mem_cons.mp hu with rfl | hu
        · exact h.vertex_mem t mem_cons_self
        · exact h.trail_mem t mem_cons_self u hu)
    rw [length_cons] at this
    omega
  have hfuel : vertices.length + 1 - t.trail.length = (vertices.length + 1 - (t.vertex :: t.trail).length) + 1 := by
    rw [length_cons]
    omega
  rw [Todo.value, hfuel, walk_fresh htrail, children, findSome?_map]
  rfl

variable (hu : Uniform vertices next leaf)

include hu

theorem Todo.value_skip (h : Pending vertices next listed (t :: todos))
    (hin : t.vertex ∈ listed.map Prod.fst) (hnone : listed.findSome? (fun e => leaf e.1 e.2) = none) :
    t.value vertices next leaf = none := by
  refine walk_closed (listed.map Prod.fst) t.trail ?_ ?_ _ _ _ _ (fun u hu => hu) hin
  · intro u hul hut s e he
    rcases h.behind u hul s e he with hl | ⟨x, hx, hxe, hux⟩
    · exact hl
    · rcases mem_cons.mp hx with rfl | hx
      · exact absurd hux hut
      · exact absurd (rel_of_pairwise_cons h.nested hx u hux) hut
  · intro u hul s
    obtain ⟨e, he, rfl⟩ := mem_map.mp hul
    exact hu.leaf_none s (findSome?_eq_none_iff.mp hnone e he)

theorem Explore.value_eq (h : Explore next listed todo out) :
    ∀ todos : List (Todo V σ), todos.map Todo.entry = todo → Pending vertices next listed todos →
      Closed next out ∧ out.findSome? (fun e => leaf e.1 e.2) = (listed.findSome? fun e => leaf e.1 e.2).or
          (todos.findSome? (Todo.value vertices next leaf)) := by
  induction h with
  | done listed =>
    intro todos htodos hp
    obtain rfl := map_eq_nil_iff.mp htodos
    refine ⟨?_, by simp⟩
    intro u hul s e he
    rcases hp.behind u hul s e he with hl | ⟨x, hx, _⟩
    · exact hl
    · cases hx
  | @skip listed todo out v s hin _ ih =>
    intro todos htodos hp
    obtain ⟨t, rest, rfl, ht, hrest⟩ := map_eq_cons_iff.mp htodos
    cases ht
    obtain ⟨hclosed, hvalue⟩ := ih rest hrest (hp.skip hin)
    refine ⟨hclosed, ?_⟩
    rw [hvalue]
    cases hfound : listed.findSome? (fun e => leaf e.1 e.2) with
    | some r => rfl
    | none =>
      rw [findSome?_cons, Todo.value_skip hu hp hin hfound]
  | @enter listed todo out v s hout _ ih =>
    intro todos htodos hp
    obtain ⟨t, rest, rfl, ht, hrest⟩ := map_eq_cons_iff.mp htodos
    cases ht
    obtain ⟨hclosed, hvalue⟩ := ih (children next t ++ rest)
      (by rw [map_append, children_entry, hrest]) (hp.enter hu hout)
    refine ⟨hclosed, ?_⟩
    have hone : [(t.vertex, t.label)].findSome? (fun e => leaf e.1 e.2) = leaf t.vertex t.label := by
      simp
    have hcons : (t :: rest).findSome? (Todo.value vertices next leaf) =
        (t.value vertices next leaf).or (rest.findSome? (Todo.value vertices next leaf)) := by
      cases hv : t.value vertices next leaf <;> simp [hv]
    rw [hvalue, findSome?_append, findSome?_append, hone, hcons,
      Todo.value_enter hp hout, Option.or_assoc, Option.or_assoc]

theorem Explore.findSome?_eq (h : Explore next listed todo out) (hclosed : Closed next listed)
    (hmem : ∀ e ∈ todo, e.1 ∈ vertices) :
    Closed next out ∧ out.findSome? (fun e => leaf e.1 e.2) = (listed.findSome? fun e => leaf e.1 e.2).or
        (todo.findSome? fun e => backtrack next leaf vertices.length e.1 e.2) := by
  have hseeds : (todo.map fun e => ({ vertex := e.1, label := e.2, trail := [] } : Todo V σ)).map
      Todo.entry = todo := by
    simp [Todo.entry, Function.comp_def]
  obtain ⟨hout, hvalue⟩ := h.value_eq hu _ hseeds {
    vertex_mem := by
      intro t ht
      obtain ⟨e, he, rfl⟩ := mem_map.mp ht
      exact hmem e he
    trail_listed := by
      intro t ht u hut
      obtain ⟨e, _, rfl⟩ := mem_map.mp ht
      cases hut
    trail_mem := by
      intro t ht u hut
      obtain ⟨e, _, rfl⟩ := mem_map.mp ht
      cases hut
    trail_nodup := by
      intro t ht
      obtain ⟨e, _, rfl⟩ := mem_map.mp ht
      exact nodup_nil
    nested := by
      rw [pairwise_map]
      refine pairwise_of_forall_mem_list ?_
      intro a _ b _ u hub
      cases hub
    behind := fun u hul s e he => .inl (hclosed u hul s e he) }
  refine ⟨hout, ?_⟩
  rw [hvalue, findSome?_map]
  rfl

end Explore

/-! ## Graphs without cycles -/

section Acyclic

variable {vertices : List V} {next : V → σ → List (V × σ)} {leaf : V → σ → Option ρ}

variable [DecidableEq V]

end Acyclic

end OrderedSearch
