import Mathlib.Data.List.Basic
import Mathlib.Logic.Function.Iterate
import Mathlib.Logic.Relation
import Mathlib.Tactic.Common

/-!
# The nodes on cycles of a finite graph

The two passes of Kosaraju's algorithm, with the work lists of an implementation without recursion.
-/

namespace Components

open Relation List

variable {α : Type}

abbrev Reach (next : α → List α) : α → α → Prop := ReflTransGen fun a b => b ∈ next a

def OnCycle (next : α → List α) (a : α) : Prop := TransGen (fun a b => b ∈ next a) a a

def Linked (next : α → List α) (a b : α) : Prop := Reach next a b ∧ Reach next b a

variable {next : α → List α} {a b c : α}

theorem Linked.refl (a : α) : Linked next a a := ⟨.refl, .refl⟩

theorem Linked.symm (h : Linked next a b) : Linked next b a := ⟨h.2, h.1⟩

theorem Linked.trans (h : Linked next a b) (h' : Linked next b c) : Linked next a c :=
  ⟨h.1.trans h'.1, h'.2.trans h.2⟩

theorem Linked.onCycle (h : Linked next a b) (hne : a ≠ b) : OnCycle next a := by
  rcases ReflTransGen.cases_head h.1 with heq | ⟨c, hstep, hrest⟩
  · exact absurd heq hne
  · exact TransGen.head' hstep (hrest.trans h.2)

theorem OnCycle.exists_edge (h : OnCycle next a) : ∃ b ∈ next a, Linked next a b := by
  obtain ⟨b, hstep, hrest⟩ := TransGen.head'_iff.1 h
  exact ⟨b, hstep, .single hstep, hrest⟩

/-! ## The order of a depth-first search -/

variable {known : List α}

section Order

/-- A depth-first search: the nodes it came to, those it left, and what it does next. -/
structure Search (α : Type) where
  visited : List α
  order : List α
  pending : List (α × Bool)

def Search.step [DecidableEq α] (next : α → List α) (s : Search α) : Search α :=
  match s.pending with
  | [] => s
  | (a, true) :: rest => { s with order := s.order ++ [a], pending := rest }
  | (a, false) :: rest =>
    if a ∈ s.visited then { s with pending := rest }
    else
      { visited := a :: s.visited, order := s.order
        pending := ((next a).reverse.map fun b => (b, false)) ++ (a, true) :: rest }

def weight [DecidableEq α] (next : α → List α) (visited : List α) : List α → Nat
  | [] => 0
  | a :: rest => (if a ∈ visited then 0 else 1 + (next a).length) + weight next visited rest

def Search.from [DecidableEq α] (next : α → List α) (nodes : List α) (s : Search α) (root : α) : Search α :=
  (Search.step next)^[1 + weight next [] nodes] { s with pending := [(root, false)] }

def finishOrder [DecidableEq α] (next : α → List α) (nodes : List α) : List α :=
  (nodes.foldl (Search.from next nodes) { visited := [], order := [], pending := [] }).order

def Promised (next : α → List α) (visited : List α) : List α → List (α × Bool) → Prop
  | _, [] => True
  | above, (b, false) :: rest => Promised next visited (b :: above) rest
  | above, (x, true) :: rest => (∀ b ∈ next x, b ∈ visited ∨ b ∈ above) ∧ Promised next visited above rest

/-- A node left before the search came to `x` that reaches it reaches an earlier active one. -/
def Nested (next : α → List α) (order : List α) : List (α × Bool) → Prop
  | [] => True
  | (_, false) :: rest => Nested next order rest
  | (x, true) :: rest =>
    (∀ u ∈ order, Reach next x u ∨ (Reach next u x → ∃ g, (g, true) ∈ rest ∧ Reach next u g)) ∧ Nested next order rest

variable {visited order : List α} {pending rest : List (α × Bool)}

theorem Promised.mono {visited' : List α} (hvisited : ∀ b ∈ visited, b ∈ visited') :
    ∀ {pending : List (α × Bool)} {above above' : List α}, (∀ b ∈ above, b ∈ visited' ∨ b ∈ above') →
      Promised next visited above pending → Promised next visited' above' pending
  | [], _, _, _, _ => trivial
  | (b, false) :: rest, above, above', habove, h => by
    show Promised next visited' (b :: above') rest
    refine Promised.mono hvisited ?_ (show Promised next visited (b :: above) rest from h)
    intro c hc
    rcases mem_cons.1 hc with rfl | hc
    · exact .inr mem_cons_self
    · exact (habove c hc).imp_right (mem_cons_of_mem _)
  | (x, true) :: rest, above, above', habove, h => by
    refine ⟨fun b hb => ?_, Promised.mono hvisited habove h.2⟩
    rcases h.1 b hb with hb | hb
    · exact .inl (hvisited b hb)
    · exact habove b hb

theorem promised_append : ∀ {l above : List α}, Promised next visited above ((l.map fun b => (b, false)) ++ pending) ↔
      Promised next visited (l.reverse ++ above) pending
  | [], _ => Iff.rfl
  | b :: l, above => by
    rw [reverse_cons, append_assoc]
    have ih : Promised next visited (b :: above) ((l.map fun b => (b, false)) ++ pending) ↔
        Promised next visited (l.reverse ++ b :: above) pending := promised_append
    exact ih

theorem nested_append : ∀ {l : List α},
    Nested next order ((l.map fun b => (b, false)) ++ pending) ↔ Nested next order pending
  | [] => Iff.rfl
  | _ :: l => nested_append (l := l)

theorem Nested.snoc {a : α} : ∀ {pending : List (α × Bool)},
    (∀ x, (x, true) ∈ pending → Reach next x a) → Nested next order pending → Nested next (order ++ [a]) pending
  | [], _, _ => trivial
  | (_, false) :: rest, hreach, h =>
    show Nested next (order ++ [a]) rest from Nested.snoc (fun x hx => hreach x (mem_cons_of_mem _ hx)) h
  | (x, true) :: rest, hreach, h => by
    refine ⟨fun u hu => ?_, Nested.snoc (fun y hy => hreach y (mem_cons_of_mem _ hy)) h.2⟩
    rcases mem_append.1 hu with hu | hu
    · exact h.1 u hu
    · exact .inl (mem_singleton.1 hu ▸ hreach x mem_cons_self)

/-- What holds of a search at any time. -/
structure Search.Inv (next : α → List α) (nodes : List α) (s : Search α) : Prop where
  visited : ∀ a, a ∈ s.visited ↔ a ∈ s.order ∨ (a, true) ∈ s.pending
  within : (∀ a ∈ s.visited, a ∈ nodes) ∧ ∀ e ∈ s.pending, e.1 ∈ nodes
  left : ∀ a ∈ s.order, ∀ b ∈ next a, b ∈ s.visited
  promised : Promised next s.visited [] s.pending
  below : s.pending.Pairwise fun e e' => e'.2 = true → Reach next e'.1 e.1
  nested : Nested next s.order s.pending
  later : ∀ l r l', s.order = l ++ r :: l' → ∀ u ∈ s.order, Reach next u r →
    (∃ g, (g, true) ∈ s.pending ∧ Reach next u g) ∨ ∃ w ∈ r :: l', Linked next u w

variable {nodes : List α} {s : Search α}

theorem Search.Inv.through (h : s.Inv next nodes) {u x : α} (hpath : Reach next u x) (hx : x ∉ s.visited) :
    u ∈ s.order → ∃ g, (g, true) ∈ s.pending ∧ Reach next u g := by
  induction hpath using ReflTransGen.head_induction_on with
  | refl => exact fun hu => absurd ((h.visited x).2 (.inl hu)) hx
  | @head a b hstep _ ih =>
    intro hu
    rcases (h.visited b).1 (h.left a hu b hstep) with hb | hb
    · obtain ⟨g, hg, hreach⟩ := ih hb
      exact ⟨g, hg, .head hstep hreach⟩
    · exact ⟨b, hb, .single hstep⟩

theorem Search.Inv.leave (h : s.Inv next nodes) (hpending : s.pending = (a, true) :: rest) :
    Search.Inv next nodes { s with order := s.order ++ [a], pending := rest } := by
  have hpromised := h.promised
  have hbelow := h.below
  have hnested := h.nested
  rw [hpending] at hpromised hbelow hnested
  obtain ⟨hfirst, hbelow⟩ := pairwise_cons.1 hbelow
  constructor
  · intro b
    rw [h.visited, hpending, mem_append, mem_cons, mem_singleton, Prod.mk.injEq]
    simp only [and_true]
    tauto
  · exact ⟨h.within.1, fun e he => h.within.2 e (hpending ▸ mem_cons_of_mem _ he)⟩
  · intro b hb c hc
    rcases mem_append.1 hb with hb | hb
    · exact h.left b hb c hc
    · obtain rfl := mem_singleton.1 hb
      exact (hpromised.1 c hc).resolve_right not_mem_nil
  · exact hpromised.2
  · exact hbelow
  · exact hnested.2.snoc fun x hx => hfirst (x, true) hx rfl
  · intro l r l' horder u hu hreach
    replace horder : s.order ++ [a] = l ++ r :: l' := horder
    replace hu : u ∈ s.order ++ [a] := hu
    have hlast : a ∈ r :: l' := by
      have hlast : (s.order ++ [a]).getLast? = some a := getLast?_concat
      rw [horder, getLast?_append_cons] at hlast
      exact mem_of_getLast? hlast
    by_cases hin : ∃ g, (g, true) ∈ rest ∧ Reach next u g
    · exact .inl hin
    · refine .inr ?_
      by_cases hua : Reach next u a
      · refine ⟨a, hlast, hua, ?_⟩
        rcases mem_append.1 hu with hu | hu
        · exact (hnested.1 u hu).resolve_right fun himp => hin (himp hua)
        · exact mem_singleton.1 hu ▸ .refl
      · have hu : u ∈ s.order := by
          rcases mem_append.1 hu with hu | hu
          · exact hu
          · exact absurd (mem_singleton.1 hu ▸ .refl) hua
        rcases eq_nil_or_concat l' with rfl | ⟨l'', z, rfl⟩
        · have hr : a = r := by simpa using hlast
          exact absurd (hr ▸ hreach) hua
        · have hsplit : s.order ++ [a] = (l ++ r :: l'') ++ [z] := by simpa using horder
          obtain ⟨horder, -⟩ := append_inj' hsplit rfl
          rcases h.later l r l'' horder u hu hreach with ⟨g, hg, hug⟩ | ⟨w, hw, hlinked⟩
          · rw [hpending] at hg
            rcases mem_cons.1 hg with hg | hg
            · exact absurd ((Prod.mk.inj hg).1 ▸ hug) hua
            · exact absurd ⟨g, hg, hug⟩ hin
          · refine ⟨w, ?_, hlinked⟩
            rcases mem_cons.1 hw with rfl | hw
            · exact mem_cons_self
            · exact mem_cons_of_mem _ (by simpa using .inl hw)

theorem Search.Inv.skip (h : s.Inv next nodes) (hpending : s.pending = (a, false) :: rest) (ha : a ∈ s.visited) :
    Search.Inv next nodes { s with pending := rest } := by
  have hpromised := h.promised
  have hbelow := h.below
  have hnested := h.nested
  rw [hpending] at hpromised hbelow hnested
  have hgray : ∀ g, (g, true) ∈ s.pending ↔ (g, true) ∈ rest := by
    intro g
    rw [hpending, mem_cons, Prod.mk.injEq]
    simp
  constructor
  · intro b
    rw [h.visited, hgray]
  · exact ⟨h.within.1, fun e he => h.within.2 e (hpending ▸ mem_cons_of_mem _ he)⟩
  · exact h.left
  · refine Promised.mono (fun _ hb => hb) ?_ hpromised
    intro b hb
    exact .inl (mem_singleton.1 hb ▸ ha)
  · exact (pairwise_cons.1 hbelow).2
  · exact hnested
  · intro l r l' horder u hu hreach
    rcases h.later l r l' horder u hu hreach with ⟨g, hg, hug⟩ | hw
    · exact .inl ⟨g, (hgray g).1 hg, hug⟩
    · exact .inr hw

theorem Search.Inv.enter (h : s.Inv next nodes) (hclosed : ∀ a ∈ nodes, ∀ b ∈ next a, b ∈ nodes)
    (hpending : s.pending = (a, false) :: rest) (ha : a ∉ s.visited) : Search.Inv next nodes
      { visited := a :: s.visited, order := s.order
        pending := ((next a).reverse.map fun b => (b, false)) ++ (a, true) :: rest } := by
  have hpromised := h.promised
  have hbelow := h.below
  have hnested := h.nested
  rw [hpending] at hpromised hbelow hnested
  obtain ⟨hfirst, hbelow⟩ := pairwise_cons.1 hbelow
  have hanode : a ∈ nodes := h.within.2 (a, false) (hpending ▸ mem_cons_self)
  have hgray : ∀ g, (g, true) ∈ s.pending ↔ (g, true) ∈ rest := by
    intro g
    rw [hpending, mem_cons, Prod.mk.injEq]
    simp
  have hnew : ∀ g, (g, true) ∈ ((next a).reverse.map fun b => (b, false)) ++ (a, true) :: rest ↔
      g = a ∨ (g, true) ∈ rest := by
    intro g
    simp
  constructor
  · intro b
    rw [hnew, mem_cons, h.visited, hgray]
    tauto
  · constructor
    · intro b hb
      rcases mem_cons.1 hb with rfl | hb
      · exact hanode
      · exact h.within.1 b hb
    · intro e he
      rcases mem_append.1 he with he | he
      · obtain ⟨b, hb, rfl⟩ := mem_map.1 he
        exact hclosed a hanode b (mem_reverse.1 hb)
      · rcases mem_cons.1 he with rfl | he
        · exact hanode
        · exact h.within.2 e (hpending ▸ mem_cons_of_mem _ he)
  · exact fun b hb c hc => mem_cons_of_mem _ (h.left b hb c hc)
  · refine promised_append.2 ⟨fun b hb => .inr (by simpa using hb), ?_⟩
    refine Promised.mono (fun b hb => mem_cons_of_mem _ hb) ?_ hpromised
    intro b hb
    exact .inl (mem_singleton.1 hb ▸ mem_cons_self)
  · refine pairwise_append.2 ⟨?_, pairwise_cons.2 ⟨fun e he hgray => hfirst e he hgray, hbelow⟩, ?_⟩
    · exact pairwise_map.2 (pairwise_of_forall fun _ _ hf => absurd hf Bool.false_ne_true)
    · intro e he e' he' hgray
      obtain ⟨b, hb, rfl⟩ := mem_map.1 he
      have hstep : b ∈ next a := mem_reverse.1 hb
      rcases mem_cons.1 he' with rfl | he'
      · exact .single hstep
      · exact (hfirst e' he' hgray).tail hstep
  · refine nested_append.2 ⟨fun u hu => .inr fun hreach => ?_, hnested⟩
    obtain ⟨g, hg, hug⟩ := h.through hreach ha hu
    exact ⟨g, (hgray g).1 hg, hug⟩
  · intro l r l' horder u hu hreach
    rcases h.later l r l' horder u hu hreach with ⟨g, hg, hug⟩ | hw
    · exact .inl ⟨g, (hnew g).2 (.inr ((hgray g).1 hg)), hug⟩
    · exact .inr hw

theorem Search.Inv.step [DecidableEq α] (h : s.Inv next nodes) (hclosed : ∀ a ∈ nodes, ∀ b ∈ next a, b ∈ nodes) :
    (s.step next).Inv next nodes := by
  unfold Search.step
  split
  · exact h
  · rename_i a rest hpending
    exact h.leave hpending
  · rename_i a rest hpending
    split
    · rename_i ha
      exact h.skip hpending ha
    · rename_i ha
      exact h.enter hclosed hpending ha

/-! The search ends: each step shortens the list or comes to a new node. -/

section End

variable [DecidableEq α]

def Search.cost (next : α → List α) (nodes : List α) (s : Search α) : Nat :=
  s.pending.length + weight next s.visited nodes

theorem weight_cons_le (visited nodes : List α) : weight next (a :: visited) nodes ≤ weight next visited nodes := by
  induction nodes with
  | nil => exact Nat.le_refl _
  | cons b rest ih =>
    simp only [weight, mem_cons]
    by_cases hb : b ∈ visited
    · simpa [hb] using ih
    · by_cases hab : b = a <;> simp [hab, hb] <;> omega

theorem weight_le (visited nodes : List α) : weight next visited nodes ≤ weight next [] nodes := by
  induction visited with
  | nil => exact Nat.le_refl _
  | cons b visited ih => exact Nat.le_trans (weight_cons_le visited nodes) ih

theorem weight_enter (ha : a ∉ visited) : ∀ {nodes : List α}, a ∈ nodes →
    weight next (a :: visited) nodes + (1 + (next a).length) ≤ weight next visited nodes
  | b :: rest, hmem => by
    simp only [weight, mem_cons]
    by_cases hab : b = a
    · subst hab
      have : weight next (b :: visited) rest ≤ weight next visited rest := weight_cons_le visited rest
      simp [ha]
      omega
    · have := weight_enter ha ((mem_cons.1 hmem).resolve_left fun h => hab h.symm)
      simp only [hab, false_or]
      omega

theorem Search.Inv.cost_lt (h : s.Inv next nodes) (hpending : s.pending ≠ []) :
    (s.step next).cost next nodes < s.cost next nodes := by
  unfold Search.step
  split
  · contradiction
  · rename_i a rest hpending
    simp [Search.cost, hpending]
  · rename_i a rest hpending
    split
    · simp [Search.cost, hpending]
    · rename_i ha
      have hmem : a ∈ nodes := h.within.2 (a, false) (hpending ▸ mem_cons_self)
      have : weight next (a :: s.visited) nodes + (1 + (next a).length) ≤ weight next s.visited nodes :=
        weight_enter ha hmem
      simp only [Search.cost, hpending, length_append, length_map, length_reverse, length_cons]
      omega

/-- The nodes of `known` are visited or still to come. -/
def Search.Knows (known : List α) (s : Search α) : Prop := ∀ b ∈ known, b ∈ s.visited ∨ (b, false) ∈ s.pending

omit [DecidableEq α] in
theorem Search.Knows.mono {s t : Search α} (h : s.Knows known)
    (hkeep : ∀ b, b ∈ s.visited ∨ (b, false) ∈ s.pending → b ∈ t.visited ∨ (b, false) ∈ t.pending) : t.Knows known :=
  fun b hb => hkeep b (h b hb)

theorem Search.Knows.step (h : s.Knows known) : (s.step next).Knows known := by
  unfold Search.step
  split
  · exact h
  · rename_i a rest hpending
    refine h.mono fun b hb => hb.imp_right fun hb => ?_
    rw [hpending] at hb
    exact (mem_cons.1 hb).resolve_left fun heq => absurd (Prod.mk.inj heq).2 Bool.false_ne_true
  · rename_i a rest hpending
    split
    · rename_i ha
      refine h.mono fun b hb => ?_
      rcases hb with hb | hb
      · exact .inl hb
      · rw [hpending] at hb
        rcases mem_cons.1 hb with heq | hb
        · exact .inl ((Prod.mk.inj heq).1 ▸ ha)
        · exact .inr hb
    · refine h.mono fun b hb => ?_
      rcases hb with hb | hb
      · exact .inl (mem_cons_of_mem _ hb)
      · rw [hpending] at hb
        rcases mem_cons.1 hb with heq | hb
        · exact .inl ((Prod.mk.inj heq).1 ▸ mem_cons_self)
        · exact .inr (mem_append_right _ (mem_cons_of_mem _ hb))

theorem Search.Inv.iterate (hclosed : ∀ a ∈ nodes, ∀ b ∈ next a, b ∈ nodes) (n : Nat) :
    ∀ {s : Search α}, s.Inv next nodes → s.Knows known → s.cost next nodes ≤ n →
      ((Search.step next)^[n] s).Inv next nodes ∧ ((Search.step next)^[n] s).Knows known ∧
        ((Search.step next)^[n] s).pending = [] := by
  induction n with
  | zero =>
    intro s h hknows hcost
    refine ⟨h, hknows, ?_⟩
    by_contra hpending
    exact absurd (h.cost_lt hpending) (by omega)
  | succ n ih =>
    intro s h hknows hcost
    by_cases hpending : s.pending = []
    · have hfixed : s.step next = s := by simp [Search.step, hpending]
      rw [Function.iterate_fixed hfixed]
      exact ⟨h, hknows, hpending⟩
    · exact ih (h.step hclosed) hknows.step (by have := h.cost_lt hpending; omega)

theorem Search.Inv.from (h : s.Inv next nodes) (hpending : s.pending = []) (hknows : s.Knows known)
    (hclosed : ∀ a ∈ nodes, ∀ b ∈ next a, b ∈ nodes) {root : α} (hroot : root ∈ nodes) :
    (s.from next nodes root).Inv next nodes ∧ (s.from next nodes root).Knows (root :: known) ∧
      (s.from next nodes root).pending = [] := by
  have hstart : Search.Inv next nodes { s with pending := [(root, false)] } := by
    refine ⟨fun a => ?_, ⟨h.within.1, fun e he => mem_singleton.1 he ▸ hroot⟩, h.left, trivial,
      pairwise_singleton .., trivial, fun l r l' horder u hu hreach => ?_⟩
    · rw [h.visited, hpending]
      simp
    · rcases h.later l r l' horder u hu hreach with ⟨g, hg, -⟩ | hw
      · rw [hpending] at hg
        exact absurd hg not_mem_nil
      · exact .inr hw
  refine hstart.iterate hclosed _ ?_ ?_
  · intro b hb
    rcases mem_cons.1 hb with rfl | hb
    · exact .inr (mem_singleton_self _)
    · refine .inl ((hknows b hb).resolve_right fun hb => ?_)
      rw [hpending] at hb
      exact not_mem_nil hb
  · have : weight next s.visited nodes ≤ weight next [] nodes := weight_le s.visited nodes
    simp only [Search.cost, length_singleton]
    omega

theorem inv_foldl (hclosed : ∀ a ∈ nodes, ∀ b ∈ next a, b ∈ nodes) : ∀ (roots known : List α) {s : Search α},
    (∀ root ∈ roots, root ∈ nodes) → s.Inv next nodes → s.pending = [] → s.Knows known →
    (roots.foldl (Search.from next nodes) s).Inv next nodes ∧
      (roots.foldl (Search.from next nodes) s).Knows (roots ++ known) ∧
      (roots.foldl (Search.from next nodes) s).pending = []
  | [], _, _, _, h, hpending, hknows => ⟨h, hknows, hpending⟩
  | root :: roots, known, s, hroots, h, hpending, hknows => by
    obtain ⟨h', hknows', hpending'⟩ := h.from hpending hknows hclosed (hroots root mem_cons_self)
    obtain ⟨hinv, hall, hend⟩ := inv_foldl hclosed roots (root :: known)
      (fun b hb => hroots b (mem_cons_of_mem _ hb)) h' hpending' hknows'
    refine ⟨hinv, fun b hb => hall b ?_, hend⟩
    simp only [cons_append, mem_cons, mem_append] at hb ⊢
    tauto

theorem finishOrder_spec (hclosed : ∀ a ∈ nodes, ∀ b ∈ next a, b ∈ nodes) :
    (∀ a, a ∈ finishOrder next nodes ↔ a ∈ nodes) ∧
      ∀ l r l', finishOrder next nodes = l ++ r :: l' → ∀ u ∈ nodes, Reach next u r →
        ∃ w ∈ r :: l', Linked next u w := by
  have hstart : Search.Inv next nodes { visited := [], order := [], pending := [] } := by
    refine ⟨by simp, ⟨by simp, by simp⟩, by simp, trivial, .nil, trivial, fun l r l' horder => ?_⟩
    exact absurd horder (by simp)
  obtain ⟨hinv, hknows, hpending⟩ := inv_foldl hclosed nodes [] (fun _ h => h) hstart rfl
    fun b hb => absurd hb not_mem_nil
  have hmem : ∀ a, a ∈ finishOrder next nodes ↔ a ∈ nodes := by
    intro a
    constructor
    · exact fun ha => hinv.within.1 a ((hinv.visited a).2 (.inl ha))
    · intro ha
      have hvisited := (hknows a (mem_append_left _ ha)).resolve_right fun h => by
        rw [hpending] at h
        exact not_mem_nil h
      refine ((hinv.visited a).1 hvisited).resolve_right fun h => ?_
      rw [hpending] at h
      exact not_mem_nil h
  refine ⟨hmem, fun l r l' horder u hu hreach => ?_⟩
  refine (hinv.later l r l' horder u ((hmem u).2 hu) hreach).resolve_left ?_
  rintro ⟨g, hg, -⟩
  rw [hpending] at hg
  exact not_mem_nil hg

end End

end Order

/-! ## The components -/

section Collect

variable [DecidableEq α]

def prev (next : α → List α) (nodes : List α) (b : α) : List α :=
  nodes.flatMap fun a => ((next a).filter (· = b)).map fun _ => a

theorem mem_prev {nodes : List α} : a ∈ prev next nodes b ↔ a ∈ nodes ∧ b ∈ next a := by
  simp only [prev, mem_flatMap, mem_map, mem_filter, decide_eq_true_eq]
  constructor
  · rintro ⟨a', ha', b', ⟨hb', rfl⟩, rfl⟩
    exact ⟨ha', hb'⟩
  · rintro ⟨ha, hb⟩
    exact ⟨a, ha, b, ⟨hb, rfl⟩, rfl⟩

/-- A component as far as it is collected. -/
structure Gather (α : Type) where
  visited : List α
  component : List α
  at' : Nat

def Gather.push (g : Gather α) (b : α) : Gather α :=
  if b ∈ g.visited then g else { g with visited := b :: g.visited, component := g.component ++ [b] }

def Gather.step (next : α → List α) (nodes : List α) (g : Gather α) : Gather α :=
  match g.component[g.at']? with
  | none => g
  | some a => { (prev next nodes a).foldl Gather.push g with at' := g.at' + 1 }

def gather (next : α → List α) (nodes visited : List α) (root : α) : Gather α :=
  (Gather.step next nodes)^[nodes.length] { visited := root :: visited, component := [root], at' := 0 }

def collect (next : α → List α) (nodes : List α) (root : α) (s : List α × List α) : List α × List α :=
  if root ∈ s.1 then s
  else
    ((gather next nodes s.1 root).visited, if 1 < (gather next nodes s.1 root).component.length ∨ root ∈ next root then
        s.2 ++ (gather next nodes s.1 root).component
      else s.2)

def cyclic (next : α → List α) (nodes known : List α) : List α :=
  ((finishOrder next nodes).reverse.foldl (fun s root => collect next nodes root s) ([], known)).2

/-- While the component of `root` is collected, after the components of the nodes of `seen`. -/
structure Gather.Inv (next : α → List α) (nodes before : List α) (root : α) (g : Gather α) : Prop where
  visited : ∀ a, a ∈ g.visited ↔ a ∈ before ∨ a ∈ g.component
  linked : ∀ a ∈ g.component, a ∈ nodes ∧ a ∉ before ∧ Linked next a root
  root : root ∈ g.component
  nodup : g.component.Nodup
  bound : g.at' ≤ g.component.length
  looked : ∀ i (hi : i < g.component.length), i < g.at' → ∀ b ∈ prev next nodes g.component[i], b ∈ g.visited

def Last (next : α → List α) (nodes before : List α) (root : α) : Prop :=
  ∀ u ∈ nodes, u ∉ before → Reach next u root → Linked next u root

variable {nodes before : List α} {root : α} {g : Gather α}

/-- What pushing nodes keeps; `looked` is about the entries before `i`, which stay. -/
structure Gather.Pushed (next : α → List α) (nodes before : List α) (root : α) (g g' : Gather α) : Prop where
  visited : ∀ a, a ∈ g'.visited ↔ a ∈ before ∨ a ∈ g'.component
  linked : ∀ a ∈ g'.component, a ∈ nodes ∧ a ∉ before ∧ Linked next a root
  nodup : g'.component.Nodup
  extends' : g.component <+: g'.component
  grows : g.visited ⊆ g'.visited
  at' : g'.at' = g.at'

theorem Gather.Pushed.push {g' : Gather α} (h : Gather.Pushed next nodes before root g g') (hb : b ∈ nodes)
    (hreach : Reach next b root) (hlast : Last next nodes before root) :
    Gather.Pushed next nodes before root g (g'.push b) ∧ b ∈ (g'.push b).visited := by
  unfold Gather.push
  split
  · rename_i hmem
    exact ⟨h, hmem⟩
  · rename_i hnew
    have hbefore : b ∉ before := fun hmem => hnew ((h.visited b).2 (.inl hmem))
    have hcomponent : b ∉ g'.component := fun hmem => hnew ((h.visited b).2 (.inr hmem))
    refine ⟨⟨fun a => ?_, fun a ha => ?_, ?_, ?_, fun a ha => mem_cons_of_mem _ (h.grows ha), h.at'⟩, mem_cons_self⟩
    · rw [mem_cons, h.visited, mem_append, mem_singleton]
      tauto
    · rcases mem_append.1 ha with ha | ha
      · exact h.linked a ha
      · obtain rfl := mem_singleton.1 ha
        exact ⟨hb, hbefore, hlast _ hb hbefore hreach⟩
    · exact nodup_append.2 ⟨h.nodup, pairwise_singleton .., fun x hx y hy heq =>
        hcomponent (mem_singleton.1 hy ▸ heq ▸ hx)⟩
    · exact h.extends'.trans (prefix_append ..)

theorem Gather.mem_visited_foldl : ∀ (bs : List α) {g : Gather α}, b ∈ g.visited → b ∈ (bs.foldl Gather.push g).visited
  | [], _, h => h
  | c :: bs, g, h => by
    refine Gather.mem_visited_foldl bs (g := g.push c) ?_
    unfold Gather.push
    split
    · exact h
    · exact mem_cons_of_mem _ h

theorem Gather.Pushed.foldl (hlast : Last next nodes before root) : ∀ (bs : List α) {g' : Gather α},
    Gather.Pushed next nodes before root g g' → (∀ b ∈ bs, b ∈ nodes ∧ Reach next b root) →
    Gather.Pushed next nodes before root g (bs.foldl Gather.push g') ∧ ∀ b ∈ bs, b ∈ (bs.foldl Gather.push g').visited
  | [], _, h, _ => ⟨h, fun b hb => absurd hb not_mem_nil⟩
  | b :: bs, g', h, hbs => by
    obtain ⟨hb, hreach⟩ := hbs b mem_cons_self
    obtain ⟨hpush, hin⟩ := h.push hb hreach hlast
    obtain ⟨hall, hmem⟩ := Gather.Pushed.foldl hlast bs hpush fun c hc => hbs c (mem_cons_of_mem _ hc)
    refine ⟨hall, fun c hc => ?_⟩
    rcases mem_cons.1 hc with rfl | hc
    · exact Gather.mem_visited_foldl bs hin
    · exact hmem c hc

theorem Gather.Inv.step (h : g.Inv next nodes before root) (hlast : Last next nodes before root) :
    (g.step next nodes).Inv next nodes before root := by
  unfold Gather.step
  split
  · exact h
  · rename_i a ha
    obtain ⟨hlt, rfl⟩ := List.getElem?_eq_some_iff.1 ha
    have hself : Gather.Pushed next nodes before root g g :=
      ⟨h.visited, h.linked, h.nodup, prefix_rfl, List.Subset.refl _, rfl⟩
    have hlinked := (h.linked _ (getElem_mem hlt)).2.2
    obtain ⟨hpushed, hin⟩ := hself.foldl hlast (prev next nodes g.component[g.at']) fun b hb => by
      obtain ⟨hb, hedge⟩ := mem_prev.1 hb
      exact ⟨hb, .head hedge hlinked.1⟩
    have hlength := hpushed.extends'.length_le
    refine ⟨hpushed.visited, hpushed.linked, hpushed.extends'.subset h.root, hpushed.nodup,
      Nat.le_trans hlt hlength, fun i hi hlook b hb => ?_⟩
    have hsame : i < g.component.length := by
      have : i < g.at' + 1 := hlook
      omega
    have heq := hpushed.extends'.getElem hsame
    rw [← heq] at hb
    rcases Nat.lt_or_ge i g.at' with hbefore | hge
    · exact hpushed.grows (h.looked i hsame hbefore b hb)
    · obtain rfl : i = g.at' := Nat.le_antisymm (Nat.lt_succ_iff.1 hlook) hge
      exact hin b hb

theorem Gather.Inv.iterate (hlast : Last next nodes before root) (n : Nat) : ∀ {g : Gather α},
    g.Inv next nodes before root → nodes.length ≤ n + g.at' →
      ((Gather.step next nodes)^[n] g).Inv next nodes before root ∧
        ((Gather.step next nodes)^[n] g).component.length ≤ ((Gather.step next nodes)^[n] g).at' := by
  induction n with
  | zero =>
    intro g h hle
    refine ⟨h, ?_⟩
    have hsub : g.component ⊆ nodes := fun a ha => (h.linked a ha).1
    have := h.nodup.length_le_of_subset hsub
    show g.component.length ≤ g.at'
    omega
  | succ n ih =>
    intro g h hle
    cases hat : g.component[g.at']? with
    | none =>
      have hfixed : g.step next nodes = g := by simp [Gather.step, hat]
      rw [Function.iterate_fixed hfixed]
      exact ⟨h, getElem?_eq_none_iff.1 hat⟩
    | some a =>
      refine ih (h.step hlast) ?_
      have : (g.step next nodes).at' = g.at' + 1 := by simp [Gather.step, hat]
      omega

theorem gather_spec (hclosed : ∀ a ∈ nodes, ∀ b ∈ next a, b ∈ nodes) (hlast : Last next nodes before root)
    (hbefore : ∀ a b, Linked next a b → b ∈ nodes → a ∈ before → b ∈ before) (hroot : root ∈ nodes)
    (hnew : root ∉ before) :
    (∀ a, a ∈ (gather next nodes before root).visited ↔ a ∈ before ∨ a ∈ (gather next nodes before root).component) ∧
      (gather next nodes before root).component.Nodup ∧
      ∀ a, a ∈ (gather next nodes before root).component ↔ a ∈ nodes ∧ Linked next a root := by
  have hstart : Gather.Inv next nodes before root { visited := root :: before, component := [root], at' := 0 } := by
    refine ⟨fun a => ?_, fun a ha => ?_, mem_singleton_self _, pairwise_singleton .., Nat.zero_le _,
      fun i _ hi => absurd hi (Nat.not_lt_zero i)⟩
    · rw [mem_cons, mem_singleton]
      exact or_comm
    · obtain rfl := mem_singleton.1 ha
      exact ⟨hroot, hnew, .refl _⟩
  obtain ⟨hinv, hend⟩ := hstart.iterate hlast nodes.length (Nat.le_refl _)
  refine ⟨hinv.visited, hinv.nodup, fun a => ⟨fun ha => ⟨(hinv.linked a ha).1, (hinv.linked a ha).2.2⟩, ?_⟩⟩
  rintro ⟨ha, hlinked⟩
  -- Along the path to the root, from its end: each node is in the component, so it was looked at.
  have hwalk : ∀ b, Reach next a b → Reach next b root → b ∈ nodes → b ∈ (gather next nodes before root).component := by
    intro b hab hbroot
    induction hbroot using ReflTransGen.head_induction_on with
    | refl => exact fun _ => hinv.root
    | @head b c hstep hrest ih =>
      intro hb
      have hc := ih (hab.tail hstep) (hclosed b hb c hstep)
      obtain ⟨i, hi, rfl⟩ := getElem_of_mem hc
      have hlooked := hinv.looked i hi (Nat.lt_of_lt_of_le hi hend) b (mem_prev.2 ⟨hb, hstep⟩)
      refine ((hinv.visited b).1 hlooked).resolve_left fun hmem => hnew ?_
      exact hbefore b root ⟨.head hstep hrest, hlinked.2.trans hab⟩ hroot hmem
  exact hwalk a .refl hlinked.1 ha

/-- The nodes visited are those of the components of `done`, with those on cycles found. -/
def Collected (next : α → List α) (nodes known done : List α) (s : List α × List α) : Prop :=
  (∀ a, a ∈ s.1 ↔ a ∈ nodes ∧ ∃ w ∈ done, Linked next a w) ∧ ∀ a, a ∈ s.2 ↔ a ∈ known ∨ a ∈ s.1 ∧ OnCycle next a

theorem Collected.collect {done : List α} {s : List α × List α} (h : Collected next nodes known done s)
    (hclosed : ∀ a ∈ nodes, ∀ b ∈ next a, b ∈ nodes) (hroot : root ∈ nodes)
    (hlater : ∀ u ∈ nodes, Reach next u root → ∃ w ∈ root :: done, Linked next u w) :
    Collected next nodes known (root :: done) (Components.collect next nodes root s) := by
  obtain ⟨hvisited, hcyclic⟩ := h
  unfold Components.collect
  split
  · rename_i hmem
    obtain ⟨-, w, hw, hlinked⟩ := (hvisited root).1 hmem
    refine ⟨fun a => (hvisited a).trans (and_congr_right fun _ => ?_), hcyclic⟩
    constructor
    · rintro ⟨v, hv, hav⟩
      exact ⟨v, mem_cons_of_mem _ hv, hav⟩
    · rintro ⟨v, hv, hav⟩
      rcases mem_cons.1 hv with rfl | hv
      · exact ⟨w, hw, hav.trans hlinked⟩
      · exact ⟨v, hv, hav⟩
  · rename_i hnew
    have hlast : Last next nodes s.1 root := by
      intro u hu hbefore hreach
      obtain ⟨w, hw, hlinked⟩ := hlater u hu hreach
      rcases mem_cons.1 hw with rfl | hw
      · exact hlinked
      · exact absurd ((hvisited u).2 ⟨hu, w, hw, hlinked⟩) hbefore
    have hbefore : ∀ a b, Linked next a b → b ∈ nodes → a ∈ s.1 → b ∈ s.1 := by
      intro a b hab hb ha
      obtain ⟨-, w, hw, hlinked⟩ := (hvisited a).1 ha
      exact (hvisited b).2 ⟨hb, w, hw, hab.symm.trans hlinked⟩
    obtain ⟨hgathered, hnodup, hcomponent⟩ := gather_spec hclosed hlast hbefore hroot hnew
    have hmem : ∀ a, a ∈ (gather next nodes s.1 root).visited ↔ a ∈ nodes ∧ ∃ w ∈ root :: done, Linked next a w := by
      intro a
      rw [hgathered, hcomponent, hvisited]
      simp only [mem_cons, exists_eq_or_imp]
      rw [← and_or_left, or_comm]
    refine ⟨hmem, fun a => ?_⟩
    have hon : ∀ b ∈ (gather next nodes s.1 root).component,
        (OnCycle next b ↔ 1 < (gather next nodes s.1 root).component.length ∨ root ∈ next root) := by
      intro b hb
      have hblinked := ((hcomponent b).1 hb).2
      constructor
      · intro hcycle
        obtain ⟨c, hedge, hlinked⟩ := hcycle.exists_edge
        have hc : c ∈ (gather next nodes s.1 root).component :=
          (hcomponent c).2 ⟨hclosed b ((hcomponent b).1 hb).1 c hedge, hlinked.symm.trans hblinked⟩
        have hself : root ∈ (gather next nodes s.1 root).component := (hcomponent root).2 ⟨hroot, .refl _⟩
        rcases Nat.lt_or_ge 1 (gather next nodes s.1 root).component.length with hlt | hle
        · exact .inl hlt
        · obtain ⟨x, hx⟩ := length_eq_one_iff.1 (Nat.le_antisymm hle (length_pos_of_mem hself))
          rw [hx, mem_singleton] at hb hc hself
          exact .inr (by rw [hb] at hedge; rw [hc] at hedge; rw [hself]; exact hedge)
      · rintro (hlt | hedge)
        · by_contra hnot
          have hall : ∀ c ∈ (gather next nodes s.1 root).component, c = b := by
            intro c hc
            by_contra hne
            exact hnot ((hblinked.trans ((hcomponent c).1 hc).2.symm).onCycle fun heq => hne heq.symm)
          have hsub : (gather next nodes s.1 root).component ⊆ [b] := fun c hc =>
            mem_singleton.2 (hall c hc)
          have := hnodup.length_le_of_subset hsub
          simp only [length_singleton] at this
          omega
        · obtain ⟨hback, hforth⟩ := hblinked
          exact TransGen.trans_right hback (TransGen.head' hedge hforth)
    split
    · rename_i hcond
      show a ∈ s.2 ++ _ ↔ _
      rw [mem_append, hcyclic, hgathered]
      constructor
      · rintro ((hknown | ⟨ha, hcycle⟩) | ha)
        · exact .inl hknown
        · exact .inr ⟨.inl ha, hcycle⟩
        · exact .inr ⟨.inr ha, (hon a ha).2 hcond⟩
      · rintro (hknown | ⟨ha | ha, hcycle⟩)
        · exact .inl (.inl hknown)
        · exact .inl (.inr ⟨ha, hcycle⟩)
        · exact .inr ha
    · rename_i hcond
      show a ∈ s.2 ↔ _
      rw [hcyclic, hgathered]
      constructor
      · rintro (hknown | ⟨ha, hcycle⟩)
        · exact .inl hknown
        · exact .inr ⟨.inl ha, hcycle⟩
      · rintro (hknown | ⟨ha | ha, hcycle⟩)
        · exact .inl hknown
        · exact .inr ⟨ha, hcycle⟩
        · exact absurd ((hon a ha).1 hcycle) hcond

theorem mem_cyclic (hclosed : ∀ a ∈ nodes, ∀ b ∈ next a, b ∈ nodes) :
    a ∈ cyclic next nodes known ↔ a ∈ known ∨ a ∈ nodes ∧ OnCycle next a := by
  obtain ⟨hmem, hlater⟩ := finishOrder_spec hclosed
  have hall : ∀ l l', finishOrder next nodes = l ++ l' → Collected next nodes known l'
      (l'.foldr (fun root s => collect next nodes root s) ([], known)) := by
    intro l l'
    induction l' generalizing l with
    | nil => exact fun _ => ⟨by simp, by simp⟩
    | cons r l' ih =>
      intro horder
      have hr : r ∈ nodes := (hmem r).1 (horder ▸ mem_append_right _ mem_cons_self)
      have hrest := ih (l ++ [r]) (by rw [horder, append_assoc]; rfl)
      exact hrest.collect hclosed hr fun u hu hreach => hlater l r l' horder u hu hreach
  obtain ⟨hvisited, hcyclic⟩ := hall [] (finishOrder next nodes) rfl
  unfold cyclic
  rw [foldl_reverse, hcyclic, hvisited]
  refine or_congr_right (and_congr_left fun _ => ⟨fun h => h.1, fun ha => ⟨ha, a, (hmem a).2 ha, .refl _⟩⟩)

end Collect

end Components
