import Tsuzuri.Recursive

/-!
# What the analysis of a type finds

The search comes to the types that its root reaches (`Inv`), and rejects the cycles of records without a shared
pointer (`Unguarded`).
-/

namespace Tsuzuri.Recursive

open Relation Components List

variable {types : TypeContext} {root : Ty}

mutual

def plainHeads : Ty → List Ty
  | .record id args => [.record id args]
  | .union id args => [.union id args]
  | .array inner | .list inner | .vec inner | .fixedArray inner _ => plainHeads inner
  | .tuple elements => plainHeadsAll elements
  | _ => []

def plainHeadsAll : List Ty → List Ty
  | [] => []
  | ty :: tys => plainHeadsAll tys ++ plainHeads ty

end

def plainEdges (types : TypeContext) (ty : Ty) : List Ty :=
  if isUnion ty then [] else (plainHeadsAll (fields types ty)).filter (!isUnion ·)

def Unguarded (types : TypeContext) (ty : Ty) : Prop := OnCycle (plainEdges types) ty

def ReachesUnguarded (types : TypeContext) (ty : Ty) : Prop :=
  ∃ node, Reach (edges types) ty node ∧ Unguarded types node

variable {tys active known nodes : List Ty} {c ty a node : Ty} {shared : List Nat} {start : Nat}

theorem mem_headsAll : c ∈ headsAll tys ↔ ∃ ty ∈ tys, c ∈ heads ty := by
  induction tys with
  | nil => simp [headsAll]
  | cons ty tys ih =>
    simp only [headsAll, mem_append, ih, mem_cons, exists_eq_or_imp]
    exact or_comm

theorem mem_plainHeadsAll : c ∈ plainHeadsAll tys ↔ ∃ ty ∈ tys, c ∈ plainHeads ty := by
  induction tys with
  | nil => simp [plainHeadsAll]
  | cons ty tys ih =>
    simp only [plainHeadsAll, mem_append, ih, mem_cons, exists_eq_or_imp]
    exact or_comm

theorem heads_of_nominal (h : isNominal ty = true) : heads ty = [ty] := by
  cases ty <;> simp_all [isNominal, heads]

theorem plainHeads_of_nominal (h : isNominal ty = true) : plainHeads ty = [ty] := by
  cases ty <;> simp_all [isNominal, plainHeads]

/-! ## The search -/

def Task.heads : Task → List Ty
  | .visit ty | .field ty => Recursive.heads ty
  | .leave | .unshare => []

def Comes (types : TypeContext) (root : Ty) (active : List Ty) (shared : List Nat) (ty : Ty) : Prop :=
  (∀ a, active.getLast? = some a → (∀ c ∈ heads ty, c ∈ edges types a) ∧
    (active.length ∈ shared ∨ ∀ c ∈ plainHeads ty, c ∈ plainHeadsAll (fields types a))) ∧
  (active = [] → ∀ c ∈ heads ty, c = root)

/-- The tasks up to a `leave` are about the last active type, those up to an `unshare` about its last shared pointer. -/
def Framed (types : TypeContext) (root : Ty) : List Ty → List Nat → List Task → Prop
  | _, _, [] => True
  | active, shared, .visit ty :: rest | active, shared, .field ty :: rest =>
    Comes types root active shared ty ∧ Framed types root active shared rest
  | active, shared, .leave :: rest => Framed types root active.dropLast shared rest
  | active, shared, .unshare :: rest =>
    shared.head? = some active.length ∧ Framed types root active shared.tail rest

def Chain (types : TypeContext) (active : List Ty) (shared : List Nat) : Prop :=
  ∀ i a b, active[i]? = some a → active[i + 1]? = some b →
    b ∈ edges types a ∧ (i + 1 ∈ shared ∨ b ∈ plainHeadsAll (fields types a))

structure Inv (types : TypeContext) (root : Ty) (g : Graph) : Prop where
  reached : ∀ node ∈ g.nodes, Reach (edges types) root node
  closed : ∀ node ∈ g.nodes, ∀ c ∈ edges types node, c ∈ g.nodes ∨ ∃ task ∈ g.pending, c ∈ task.heads
  rooted : root ∈ g.nodes ∨ ∃ task ∈ g.pending, root ∈ task.heads
  recursive : ∀ node ∈ g.recursive, node ∈ g.nodes ∧ OnCycle (edges types) node
  active : ∀ node ∈ g.active, node ∈ g.nodes
  chain : Chain types g.active g.shared
  framed : Framed types root g.active g.shared g.pending
  nodup : g.nodes.Nodup

theorem Chain.reach (h : Chain types active shared) {i : Nat} (hi : active[i]? = some a) :
    ∀ (n : Nat) {b : Ty}, active[i + n]? = some b → Reach (edges types) a b
  | 0, b, hb => by
    obtain rfl := Option.some.inj (hi.symm.trans hb)
    exact .refl
  | n + 1, b, hb => by
    obtain ⟨hlt, -⟩ := List.getElem?_eq_some_iff.1 hb
    have hmid : active[i + n]? = some active[i + n] := getElem?_eq_getElem (by omega)
    exact (h.reach hi n hmid).tail (h (i + n) _ b hmid hb).1

theorem Chain.plain (h : Chain types active shared)
    (hunion : ∀ (i : Nat) a, start ≤ i → active[i]? = some a → isUnion a = false)
    (hshared : ∀ n ∈ shared, n ≤ start) (hstart : active[start]? = some a) :
    ∀ (n : Nat) {b : Ty}, active[start + n]? = some b → Reach (plainEdges types) a b
  | 0, b, hb => by
    obtain rfl := Option.some.inj (hstart.symm.trans hb)
    exact .refl
  | n + 1, b, hb => by
    obtain ⟨hlt, -⟩ := List.getElem?_eq_some_iff.1 hb
    have hmid : active[start + n]? = some active[start + n] := getElem?_eq_getElem (by omega)
    refine (h.plain hunion hshared hstart n hmid).tail ?_
    have hplain := (h (start + n) _ b hmid hb).2.resolve_left fun hmem => by
      have := hshared _ hmem
      omega
    have hbunion := hunion (start + (n + 1)) b (by omega) hb
    unfold plainEdges
    rw [if_neg (by simp [hunion (start + n) _ (by omega) hmid])]
    exact mem_filter.2 ⟨hplain, by simp [hbunion]⟩

theorem getElem?_of_idxOf? (h : active.idxOf? ty = some start) : active[start]? = some ty := by
  obtain ⟨hlt, heq, -⟩ := findIdx?_eq_some_iff_getElem.1 h
  exact List.getElem?_eq_some_iff.2 ⟨hlt, beq_iff_eq.1 heq⟩

section Visit

variable {g g' : Graph} {ty : Ty} {pending : List Task} {genericRoot : Option Ty}

theorem Inv.last (h : Inv types root g) (hpending : g.pending = .visit ty :: pending)
    (hnominal : isNominal ty = true) (hstart : g.active.idxOf? ty = some start) :
    ∃ n a, g.active[start + n]? = some a ∧ start + n + 1 = g.active.length ∧ ty ∈ edges types a ∧
      (g.active.length ∈ g.shared ∨ ty ∈ plainHeadsAll (fields types a)) := by
  have hframed := h.framed
  rw [hpending] at hframed
  obtain ⟨⟨hcomes, -⟩, -⟩ := hframed
  obtain ⟨hlt, -⟩ := List.getElem?_eq_some_iff.1 (getElem?_of_idxOf? hstart)
  have hlast : g.active.getLast? = some g.active[g.active.length - 1] := by
    rw [getLast?_eq_getElem?, getElem?_eq_getElem (by omega)]
  obtain ⟨hedges, hplain⟩ := hcomes _ hlast
  rw [heads_of_nominal hnominal] at hedges
  rw [plainHeads_of_nominal hnominal] at hplain
  refine ⟨g.active.length - 1 - start, g.active[g.active.length - 1], ?_, by omega,
    hedges ty (mem_singleton_self _), hplain.imp_right fun hall => hall ty (mem_singleton_self _)⟩
  rw [show start + (g.active.length - 1 - start) = g.active.length - 1 by omega]
  exact getElem?_eq_getElem (by omega)

theorem Inv.onCycle (h : Inv types root g) (hpending : g.pending = .visit ty :: pending)
    (hnominal : isNominal ty = true) (hstart : g.active.idxOf? ty = some start)
    (hnode : node ∈ g.active.drop start) : OnCycle (edges types) node := by
  obtain ⟨n, a, ha, hlength, hedge, -⟩ := h.last hpending hnominal hstart
  obtain ⟨k, hk, rfl⟩ := getElem_of_mem hnode
  have hk' : g.active[start + k]? = some (g.active.drop start)[k] := by
    rw [getElem_drop]
    exact getElem?_eq_getElem (by rw [length_drop] at hk; omega)
  have hle : k ≤ n := by
    rw [length_drop] at hk
    omega
  have hto : Reach (edges types) (g.active.drop start)[k] a :=
    h.chain.reach hk' (n - k) (by rw [show start + k + (n - k) = start + n by omega]; exact ha)
  have hfrom := h.chain.reach (getElem?_of_idxOf? hstart) k hk'
  exact (TransGen.tail' hto hedge).trans_left hfrom

theorem Inv.unguarded (h : Inv types root g) (hpending : g.pending = .visit ty :: pending)
    (hnominal : isNominal ty = true) (hstart : g.active.idxOf? ty = some start)
    (hunion : (g.active.drop start).any isUnion = false) (hshared : g.shared.any (start < ·) = false) :
    ReachesUnguarded types root := by
  have hty := getElem?_of_idxOf? hstart
  refine ⟨ty, h.reached ty (h.active ty (mem_of_getElem? hty)), ?_⟩
  obtain ⟨n, a, ha, hlength, -, hplain⟩ := h.last hpending hnominal hstart
  have hnone : ∀ (i : Nat) b, start ≤ i → g.active[i]? = some b → isUnion b = false := by
    intro i b hle hb
    refine (Bool.not_eq_true _).mp fun hb' => ?_
    refine Bool.false_ne_true (hunion.symm.trans (any_eq_true.2 ⟨b, ?_, hb'⟩))
    refine mem_of_getElem? (i := i - start) ?_
    rw [getElem?_drop, show start + (i - start) = i by omega]
    exact hb
  have hbound : ∀ m ∈ g.shared, m ≤ start := by
    intro m hm
    by_contra hlt
    exact Bool.false_ne_true (hshared.symm.trans (any_eq_true.2 ⟨m, hm, by simpa using hlt⟩))
  have hedge := hplain.resolve_left fun hmem => by
    have := hbound _ hmem
    omega
  have hpath := h.chain.plain hnone hbound hty n ha
  refine TransGen.tail' hpath ?_
  unfold plainEdges
  rw [if_neg (by simp [hnone (start + n) a (by omega) ha])]
  exact mem_filter.2 ⟨hedge, by simp [hnone start ty (Nat.le_refl _) hty]⟩

theorem Inv.enter (h : Inv types root g) (hpending : g.pending = .visit ty :: pending)
    (hnominal : isNominal ty = true) (hstep : { g with pending }.enter types genericRoot ty = .ok g') :
    Inv types root g' := by
  have hframed := h.framed
  have hclosed := h.closed
  have hrooted := h.rooted
  rw [hpending] at hframed hclosed hrooted
  obtain ⟨⟨hcomes, hfirst⟩, hrest⟩ := hframed
  rw [heads_of_nominal hnominal] at hfirst
  -- What only `ty` was to come to is there once `ty` is a node.
  have hkeep : ∀ (new : List Task) {nodes : List Ty} {c : Ty}, ty ∈ nodes → (∀ n ∈ g.nodes, n ∈ nodes) →
      (c ∈ g.nodes ∨ ∃ task ∈ Task.visit ty :: pending, c ∈ task.heads) →
      c ∈ nodes ∨ ∃ task ∈ new ++ pending, c ∈ task.heads := by
    intro new nodes c hty hsub hc
    rcases hc with hc | ⟨task, htask, hc⟩
    · exact .inl (hsub c hc)
    · rcases mem_cons.1 htask with rfl | htask
      · rw [show Task.heads (.visit ty) = [ty] from heads_of_nominal hnominal, mem_singleton] at hc
        exact .inl (hc ▸ hty)
      · exact .inr ⟨task, mem_append_right _ htask, hc⟩
  unfold Graph.enter at hstep
  split at hstep
  · rename_i start hstart
    replace hstart : g.active.idxOf? ty = some start := hstart
    have hty : ty ∈ g.nodes := h.active ty (mem_of_getElem? (getElem?_of_idxOf? hstart))
    split at hstep
    · cases hstep
    · cases hstep
      refine ⟨h.reached, fun node hnode c hc => hkeep [] hty (fun _ hn => hn) (hclosed node hnode c hc),
        hkeep [] hty (fun _ hn => hn) hrooted, fun node hnode => ?_, h.active, h.chain, hrest, h.nodup⟩
      rcases mem_append.1 hnode with hnode | hnode
      · exact h.recursive node hnode
      · exact ⟨h.active node (mem_of_mem_drop hnode), h.onCycle hpending hnominal hstart hnode⟩
  · split at hstep
    · cases hstep
    split at hstep
    · rename_i hty
      cases hstep
      exact ⟨h.reached, fun node hnode c hc => hkeep [] hty (fun _ hn => hn) (hclosed node hnode c hc),
        hkeep [] hty (fun _ hn => hn) hrooted, h.recursive, h.active, h.chain, hrest, h.nodup⟩
    split at hstep
    · cases hstep
    rename_i hnew _
    cases hstep
    have hedge : ∀ a, g.active.getLast? = some a → ty ∈ edges types a ∧
        (g.active.length ∈ g.shared ∨ ty ∈ plainHeadsAll (fields types a)) := by
      intro a ha
      obtain ⟨hedges, hplain⟩ := hcomes a ha
      rw [heads_of_nominal hnominal] at hedges
      rw [plainHeads_of_nominal hnominal] at hplain
      exact ⟨hedges ty (mem_singleton_self _), hplain.imp_right fun hall => hall ty (mem_singleton_self _)⟩
    refine ⟨fun node hnode => ?_, fun node hnode c hc => ?_, ?_, fun node hnode => ?_, fun node hnode => ?_, ?_, ?_,
      nodup_cons.2 ⟨hnew, h.nodup⟩⟩
    · rcases mem_cons.1 hnode with rfl | hnode
      · cases hlast : g.active.getLast? with
        | none =>
          have hroot := hfirst (getLast?_eq_none_iff.1 hlast) _ (mem_singleton_self _)
          exact hroot ▸ .refl
        | some a =>
          exact (h.reached a (h.active a (mem_of_getLast? hlast))).tail (hedge a hlast).1
      · exact h.reached node hnode
    · rcases mem_cons.1 hnode with rfl | hnode
      · obtain ⟨field, hfield, hc⟩ := mem_headsAll.1 hc
        exact .inr ⟨.field field, mem_append_left _ (mem_map_of_mem hfield), hc⟩
      · have := hkeep ((fields types ty).map .field ++ [.leave]) (mem_cons_self (a := ty))
          (fun _ hn => mem_cons_of_mem _ hn) (hclosed node hnode c hc)
        simpa using this
    · have := hkeep ((fields types ty).map .field ++ [.leave]) (mem_cons_self (a := ty))
        (fun _ hn => mem_cons_of_mem _ hn) hrooted
      simpa using this
    · exact ⟨mem_cons_of_mem _ (h.recursive node hnode).1, (h.recursive node hnode).2⟩
    · rcases mem_append.1 hnode with hnode | hnode
      · exact mem_cons_of_mem _ (h.active node hnode)
      · exact mem_singleton.1 hnode ▸ mem_cons_self
    · intro i a b ha hb
      replace ha : (g.active ++ [ty])[i]? = some a := ha
      replace hb : (g.active ++ [ty])[i + 1]? = some b := hb
      rcases Nat.lt_or_ge (i + 1) g.active.length with hlt | hge
      · rw [getElem?_append_left (by omega)] at ha
        rw [getElem?_append_left hlt] at hb
        exact h.chain i a b ha hb
      · obtain ⟨hlt, -⟩ := List.getElem?_eq_some_iff.1 hb
        rw [length_append, length_singleton] at hlt
        have hi : i + 1 = g.active.length := by omega
        rw [getElem?_append_left (by omega)] at ha
        rw [getElem?_append_right hge, hi, Nat.sub_self] at hb
        cases hb
        rw [hi]
        refine hedge a ?_
        rw [getLast?_eq_getElem?, show g.active.length - 1 = i by omega]
        exact ha
    · have hfields : ∀ tys : List Ty, (∀ field ∈ tys, field ∈ fields types ty) →
          Framed types root (g.active ++ [ty]) g.shared (tys.map .field ++ .leave :: pending) := by
        intro tys
        induction tys with
        | nil =>
          intro _
          show Framed types root (g.active ++ [ty]).dropLast g.shared pending
          rw [dropLast_concat]
          exact hrest
        | cons field tys ih =>
          intro hall
          have hfield := hall field mem_cons_self
          refine ⟨⟨fun a ha => ?_, fun hnil => absurd hnil (by simp)⟩, ih fun f hf => hall f (mem_cons_of_mem _ hf)⟩
          rw [getLast?_concat] at ha
          cases ha
          exact ⟨fun c hc => mem_headsAll.2 ⟨field, hfield, hc⟩,
            .inr fun c hc => mem_plainHeadsAll.2 ⟨field, hfield, hc⟩⟩
      exact hfields _ fun field hfield => hfield

theorem Inv.descend (h : Inv types root g) (hpending : g.pending = .visit ty :: pending) (new : List Task)
    (hheads : ∀ c ∈ heads ty, ∃ task ∈ new, c ∈ task.heads) (hshared : ∀ n ∈ g.shared, n ∈ shared)
    (hframed : Comes types root g.active g.shared ty → Framed types root g.active g.shared pending →
      Framed types root g.active shared (new ++ pending)) :
    Inv types root { g with shared, pending := new ++ pending } := by
  have hframed' := h.framed
  have hclosed := h.closed
  have hrooted := h.rooted
  rw [hpending] at hframed' hclosed hrooted
  have hkeep : ∀ {c : Ty}, (c ∈ g.nodes ∨ ∃ task ∈ Task.visit ty :: pending, c ∈ task.heads) →
      c ∈ g.nodes ∨ ∃ task ∈ new ++ pending, c ∈ task.heads := by
    intro c hc
    refine hc.imp_right ?_
    rintro ⟨task, htask, hc⟩
    rcases mem_cons.1 htask with rfl | htask
    · obtain ⟨task', htask', hc'⟩ := hheads c hc
      exact ⟨task', mem_append_left _ htask', hc'⟩
    · exact ⟨task, mem_append_right _ htask, hc⟩
  refine ⟨h.reached, fun node hnode c hc => hkeep (hclosed node hnode c hc), hkeep hrooted, h.recursive, h.active,
    fun i a b ha hb => ?_, hframed hframed'.1 hframed'.2, h.nodup⟩
  obtain ⟨hedge, hplain⟩ := h.chain i a b ha hb
  exact ⟨hedge, hplain.imp_left (hshared _)⟩

theorem Inv.visit (h : Inv types root g) (hpending : g.pending = .visit ty :: pending)
    (hstep : { g with pending }.visit types genericRoot ty = .ok g') : Inv types root g' := by
  have hone : ∀ inner : Ty, heads ty = heads inner → plainHeads ty = plainHeads inner →
      Inv types root { g with pending := .visit inner :: pending } := by
    intro inner hheads hplain
    refine h.descend hpending [.visit inner]
      (fun c hc => ⟨_, mem_singleton_self _, by rwa [hheads] at hc⟩) (fun _ hn => hn)
      fun hcomes hrest => ⟨?_, hrest⟩
    unfold Comes at hcomes ⊢
    rwa [hheads, hplain] at hcomes
  unfold Graph.visit at hstep
  split at hstep
  · exact h.enter hpending rfl hstep
  · exact h.enter hpending rfl hstep
  · rename_i inner
    cases hstep
    exact hone inner (by simp [heads]) (by simp [plainHeads])
  · rename_i inner
    cases hstep
    exact hone inner (by simp [heads]) (by simp [plainHeads])
  · rename_i inner
    cases hstep
    exact hone inner (by simp [heads]) (by simp [plainHeads])
  · rename_i inner _
    cases hstep
    exact hone inner (by simp [heads]) (by simp [plainHeads])
  · rename_i inner kind
    cases hstep
    have hheads : heads (.shared inner kind) = heads inner := by simp [heads]
    refine h.descend hpending [.visit inner, .unshare]
      (fun c hc => ⟨_, mem_cons_self, by rwa [hheads] at hc⟩) (fun _ hn => mem_cons_of_mem _ hn)
      fun hcomes hrest => ⟨⟨fun a ha => ⟨?_, .inl mem_cons_self⟩, fun hnil => ?_⟩, rfl, hrest⟩
    · have := (hcomes.1 a ha).1
      rwa [hheads] at this
    · have := hcomes.2 hnil
      rwa [hheads] at this
  · rename_i elements
    cases hstep
    have hheads : heads (.tuple elements) = headsAll elements := by simp [heads]
    have hplain : plainHeads (.tuple elements) = plainHeadsAll elements := by simp [plainHeads]
    refine h.descend hpending (elements.map .visit) (fun c hc => ?_) (fun _ hn => hn) fun hcomes hrest => ?_
    · rw [hheads] at hc
      obtain ⟨element, helement, hc⟩ := mem_headsAll.1 hc
      exact ⟨.visit element, mem_map_of_mem helement, hc⟩
    · have hall : ∀ tys : List Ty, (∀ element ∈ tys, element ∈ elements) →
          Framed types root g.active g.shared (tys.map .visit ++ pending) := by
        intro tys
        induction tys with
        | nil => exact fun _ => hrest
        | cons element tys ih =>
          intro hmem
          have helement := hmem element mem_cons_self
          refine ⟨⟨fun a ha => ?_, fun hnil c hc => ?_⟩, ih fun e he => hmem e (mem_cons_of_mem _ he)⟩
          · obtain ⟨hedges, hpl⟩ := hcomes.1 a ha
            rw [hheads] at hedges
            rw [hplain] at hpl
            exact ⟨fun c hc => hedges c (mem_headsAll.2 ⟨element, helement, hc⟩),
              hpl.imp_right fun hp c hc => hp c (mem_plainHeadsAll.2 ⟨element, helement, hc⟩)⟩
          · refine hcomes.2 hnil c ?_
            rw [hheads]
            exact mem_headsAll.2 ⟨element, helement, hc⟩
      exact hall elements fun _ he => he
  · rename_i hrecord hunion harray hlist hvec hfixed hsharedTy htuple
    cases hstep
    have hnone : heads ty = [] := by
      cases ty <;> simp_all [heads]
    refine h.descend hpending [] (fun c hc => ?_) (fun _ hn => hn) fun _ hrest => hrest
    rw [hnone] at hc
    exact absurd hc not_mem_nil

theorem Inv.of_field (h : Inv types root g) (hpending : g.pending = .field ty :: pending) :
    Inv types root { g with pending := .visit ty :: pending } := by
  have hframed := h.framed
  have hclosed := h.closed
  have hrooted := h.rooted
  rw [hpending] at hframed hclosed hrooted
  have hkeep : ∀ {c : Ty}, (c ∈ g.nodes ∨ ∃ task ∈ Task.field ty :: pending, c ∈ task.heads) →
      c ∈ g.nodes ∨ ∃ task ∈ Task.visit ty :: pending, c ∈ task.heads := by
    intro c hc
    refine hc.imp_right ?_
    rintro ⟨task, htask, hc⟩
    rcases mem_cons.1 htask with rfl | htask
    · exact ⟨_, mem_cons_self, hc⟩
    · exact ⟨task, mem_cons_of_mem _ htask, hc⟩
  exact ⟨h.reached, fun node hnode c hc => hkeep (hclosed node hnode c hc), hkeep hrooted, h.recursive, h.active,
    h.chain, hframed, h.nodup⟩

theorem Inv.drop (h : Inv types root g) {task : Task} (hpending : g.pending = task :: pending)
    (hnone : task.heads = []) (hactive : ∀ node ∈ active, node ∈ g.active)
    (hchain : Chain types active shared) (hframed : Framed types root active shared pending) :
    Inv types root { g with active, shared, pending } := by
  have hclosed := h.closed
  have hrooted := h.rooted
  rw [hpending] at hclosed hrooted
  have hkeep : ∀ {c : Ty}, (c ∈ g.nodes ∨ ∃ task' ∈ task :: pending, c ∈ task'.heads) →
      c ∈ g.nodes ∨ ∃ task' ∈ pending, c ∈ task'.heads := by
    intro c hc
    refine hc.imp_right ?_
    rintro ⟨task', htask, hmem⟩
    rcases mem_cons.1 htask with rfl | htask
    · rw [hnone] at hmem
      exact absurd hmem not_mem_nil
    · exact ⟨task', htask, hmem⟩
  exact ⟨h.reached, fun node hnode c hc => hkeep (hclosed node hnode c hc), hkeep hrooted, h.recursive,
    fun node hnode => h.active node (hactive node hnode), hchain, hframed, h.nodup⟩

theorem Inv.step (h : Inv types root g) (hstep : g.step types genericRoot = .ok g') : Inv types root g' := by
  unfold Graph.step at hstep
  split at hstep
  · cases hstep
    exact h
  · rename_i ty pending hpending
    exact h.visit hpending hstep
  · rename_i ty pending hpending
    split at hstep
    · exact (h.of_field hpending).visit rfl hstep
    · cases hstep
  · rename_i pending hpending
    cases hstep
    have hframed := h.framed
    rw [hpending] at hframed
    refine h.drop hpending rfl (fun node hnode => mem_of_mem_dropLast hnode) (fun i a b ha hb => ?_) hframed
    rw [getElem?_dropLast] at ha hb
    split at ha <;> split at hb
    · exact h.chain i a b ha hb
    all_goals first | cases ha | cases hb
  · rename_i pending hpending
    cases hstep
    have hframed := h.framed
    rw [hpending] at hframed
    obtain ⟨hhead, hrest⟩ := hframed
    refine h.drop hpending rfl (fun node hnode => hnode) (fun i a b ha hb => ?_) hrest
    obtain ⟨hedge, hplain⟩ := h.chain i a b ha hb
    refine ⟨hedge, hplain.imp_left fun hmem => ?_⟩
    obtain ⟨hlt, -⟩ := List.getElem?_eq_some_iff.1 hb
    cases hshared : g.shared with
    | nil =>
      rw [hshared] at hmem
      exact absurd hmem not_mem_nil
    | cons n rest =>
      rw [hshared] at hmem hhead
      cases hhead
      exact (mem_cons.1 hmem).resolve_left (by omega)

theorem inv_start (hnominal : isNominal root = true) : Inv types root (.start root) where
  reached _ h := absurd h not_mem_nil
  closed _ h := absurd h not_mem_nil
  rooted := .inr ⟨_, mem_singleton_self _, by
    rw [show Task.heads (.visit root) = [root] from heads_of_nominal hnominal]
    exact mem_singleton_self _⟩
  recursive _ h := absurd h not_mem_nil
  active _ h := absurd h not_mem_nil
  chain i a b ha := absurd ha (by simp [Graph.start])
  framed := by
    refine ⟨⟨fun a ha => absurd ha (by simp [Graph.start]), fun _ c hc => ?_⟩, trivial⟩
    rw [heads_of_nominal hnominal] at hc
    exact mem_singleton.1 hc
  nodup := nodup_nil

theorem Inv.run (h : Inv types root g) :
    (∀ g', g.run types genericRoot = .ok g' → Inv types root g' ∧ g'.pending = []) ∧
      ∀ e, g.run types genericRoot = .error e → ∃ g', Inv types root g' ∧ g'.step types genericRoot = .error e := by
  induction g using Graph.run.induct types genericRoot with
  | case1 g hpending =>
    rw [Graph.run, dif_pos hpending]
    refine ⟨fun g' hrun => ?_, fun e hrun => (by cases hrun)⟩
    cases hrun
    exact ⟨h, hpending⟩
  | case2 g hpending e hstep =>
    rw [Graph.run, dif_neg hpending]
    split
    · rename_i e' hstep'
      obtain rfl := Except.error.inj (hstep'.symm.trans hstep)
      refine ⟨fun g' hrun => (by cases hrun), fun e hrun => ?_⟩
      cases hrun
      exact ⟨g, h, hstep⟩
    · rename_i g' hstep'
      cases hstep'.symm.trans hstep
  | case3 g hpending g' hstep ih =>
    rw [Graph.run, dif_neg hpending]
    split
    · rename_i e hstep'
      cases hstep'.symm.trans hstep
    · rename_i g'' hstep'
      obtain rfl := Except.ok.inj (hstep'.symm.trans hstep)
      exact ih (h.step hstep)

variable {e : Failure}

theorem Inv.visit_error (h : Inv types root g) (hpending : g.pending = .visit ty :: pending)
    (hstep : { g with pending }.visit types genericRoot ty = .error e) :
    (e = .infinite → ReachesUnguarded types root) ∧ (e = .changes → genericRoot ≠ none) ∧ e ≠ .noBaseCase := by
  unfold Graph.visit at hstep
  split at hstep
  case h_1 | h_2 =>
    unfold Graph.enter at hstep
    split at hstep
    · rename_i start hstart
      split at hstep
      · rename_i hcond
        cases hstep
        simp only [Bool.and_eq_true, Bool.not_eq_true'] at hcond
        exact ⟨fun _ => h.unguarded hpending rfl hstart hcond.1 hcond.2, fun he => (by cases he), (by decide)⟩
      · cases hstep
    · split at hstep
      · rename_i hgeneric
        cases hstep
        refine ⟨fun he => (by cases he), fun _ hnone => ?_, (by decide)⟩
        rw [hnone] at hgeneric
        cases hgeneric
      split at hstep
      · cases hstep
      split at hstep
      · cases hstep
        split <;> exact ⟨fun he => (by cases he), fun he => (by cases he), (by decide)⟩
      · cases hstep
  all_goals cases hstep

theorem Inv.error (h : Inv types root g) (hstep : g.step types genericRoot = .error e) :
    (e = .infinite → ReachesUnguarded types root) ∧ (e = .changes → genericRoot ≠ none) ∧ e ≠ .noBaseCase := by
  unfold Graph.step at hstep
  split at hstep
  · cases hstep
  · rename_i ty pending hpending
    exact h.visit_error hpending hstep
  · rename_i ty pending hpending
    split at hstep
    · exact (h.of_field hpending).visit_error rfl hstep
    · cases hstep
      exact ⟨fun he => (by cases he), fun he => (by cases he), (by decide)⟩
  · cases hstep
  · cases hstep

theorem Inv.mem_nodes (h : Inv types root g) (hpending : g.pending = []) :
    node ∈ g.nodes ↔ Reach (edges types) root node := by
  have hnone : ∀ {c : Ty}, (c ∈ g.nodes ∨ ∃ task ∈ g.pending, c ∈ task.heads) → c ∈ g.nodes := by
    intro c hc
    refine hc.resolve_right ?_
    rintro ⟨task, htask, -⟩
    rw [hpending] at htask
    exact not_mem_nil htask
  refine ⟨h.reached node, fun hreach => ?_⟩
  induction hreach with
  | refl => exact hnone h.rooted
  | tail _ hedge ih => exact hnone (h.closed _ ih _ hedge)

end Visit

/-! ## Finite values -/

/-- The types whose values hold no value of another type in place: a scalar, a function, a collection that may be
empty. -/
def holdsNone : Ty → Bool
  | .record .. | .union .. | .tuple _ | .fixedArray .. | .shared .. => false
  | _ => true

/-- The types with a value of finite size. -/
inductive HasValue (types : TypeContext) : Ty → Prop
  | record {id : Nat} {args : List Ty} (h : ∀ field ∈ types.recordFields id args, HasValue types field) :
      HasValue types (.record id args)
  | bare {id : Nat} {args : List Ty} (h : none ∈ types.unionPayloads id args) : HasValue types (.union id args)
  | payload {id : Nat} {args : List Ty} {ty : Ty} (h : some ty ∈ types.unionPayloads id args)
      (hty : HasValue types ty) : HasValue types (.union id args)
  | tuple {elements : List Ty} (h : ∀ element ∈ elements, HasValue types element) : HasValue types (.tuple elements)
  | fixedArray {element length : Ty} (h : HasValue types element) : HasValue types (.fixedArray element length)
  | shared {target : Ty} {kind : SharedKind} (h : HasValue types target) : HasValue types (.shared target kind)
  | other {ty : Ty} (h : holdsNone ty = true) : HasValue types ty

theorem finiteAll_iff : finiteAll known tys = true ↔ ∀ ty ∈ tys, finite known ty = true := by
  induction tys with
  | nil => simp [finiteAll]
  | cons ty tys ih => simp [finiteAll, ih]

theorem hasValue_of_finite (hknown : ∀ ty ∈ known, HasValue types ty) (ty : Ty) (h : finite known ty = true) :
    HasValue types ty := by
  induction hsize : sizeOf ty using Nat.strongRecOn generalizing ty with
  | ind n ih =>
    subst hsize
    cases ty with
    | record id args | union id args => exact hknown _ (by simpa [finite] using h)
    | tuple elements =>
      have hall := finiteAll_iff.1 (show finiteAll known elements = true by simpa [finite] using h)
      refine .tuple fun element he => ih _ ?_ element (hall element he) rfl
      have := sizeOf_lt_of_mem he
      rw [Ty.tuple.sizeOf_spec]
      omega
    | fixedArray element length =>
      refine .fixedArray (ih _ ?_ element (by simpa [finite] using h) rfl)
      rw [Ty.fixedArray.sizeOf_spec]
      omega
    | shared target kind =>
      refine .shared (ih _ ?_ target (by simpa [finite] using h) rfl)
      rw [Ty.shared.sizeOf_spec]
      omega
    | _ => exact .other rfl

theorem hasValue_of_valid (hknown : ∀ ty ∈ known, HasValue types ty) (hnominal : isNominal ty = true)
    (h : valid types known ty = true) : HasValue types ty := by
  cases ty with
  | record id args =>
    exact .record fun field hfield => hasValue_of_finite hknown field (finiteAll_iff.1 h field hfield)
  | union id args =>
    obtain ⟨payload, hpayload, hfinite⟩ := any_eq_true.1 h
    cases payload with
    | none => exact .bare hpayload
    | some ty => exact .payload hpayload (hasValue_of_finite hknown ty hfinite)
  | _ => cases hnominal

theorem finite_of_hasValue (hclosed : ∀ node ∈ nodes, ∀ c ∈ edges types node, c ∈ nodes)
    (hfixed : ∀ node ∈ nodes, valid types known node = true → node ∈ known) (h : HasValue types ty)
    (hheads : ∀ c ∈ heads ty, c ∈ nodes) : finite known ty = true := by
  induction h with
  | @record id args _ ih =>
    have hnode : Ty.record id args ∈ nodes := hheads _ (by simp [heads])
    have hvalid : valid types known (.record id args) = true :=
      finiteAll_iff.2 fun field hfield => ih field hfield fun c hc =>
        hclosed _ hnode c (mem_headsAll.2 ⟨field, hfield, hc⟩)
    simpa [finite] using hfixed _ hnode hvalid
  | @bare id args h =>
    have hnode : Ty.union id args ∈ nodes := hheads _ (by simp [heads])
    have hvalid : valid types known (.union id args) = true := any_eq_true.2 ⟨none, h, rfl⟩
    simpa [finite] using hfixed _ hnode hvalid
  | @payload id args ty h _ ih =>
    have hnode : Ty.union id args ∈ nodes := hheads _ (by simp [heads])
    have hfield : ty ∈ fields types (.union id args) := mem_filterMap.2 ⟨some ty, h, rfl⟩
    have hvalid : valid types known (.union id args) = true :=
      any_eq_true.2 ⟨some ty, h, ih fun c hc => hclosed _ hnode c (mem_headsAll.2 ⟨ty, hfield, hc⟩)⟩
    simpa [finite] using hfixed _ hnode hvalid
  | @tuple elements _ ih =>
    have hall : finiteAll known elements = true := finiteAll_iff.2 fun element he => ih element he fun c hc =>
      hheads c (by
        rw [show heads (.tuple elements) = headsAll elements by simp [heads]]
        exact mem_headsAll.2 ⟨element, he, hc⟩)
    simpa [finite] using hall
  | fixedArray _ ih | shared _ ih => simpa [finite] using ih fun c hc => hheads c (by simpa [heads] using hc)
  | @other ty h =>
    cases ty with
    | record | union | tuple | fixedArray | shared => cases h
    | _ => simp [finite]

theorem pass_suffix (types : TypeContext) (nodes : List Ty) : ∀ known : List Ty, known <:+ pass types nodes known := by
  induction nodes with
  | nil => exact fun known => suffix_rfl
  | cons ty nodes ih =>
    intro known
    have hfirst : known <:+ (if valid types known ty then known.insert ty else known) := by
      split
      · exact suffix_insert ty known
      · exact suffix_rfl
    exact hfirst.trans (ih _)

theorem fixed_of_pass (h : pass types nodes known = known) :
    ∀ node ∈ nodes, valid types known node = true → node ∈ known := by
  induction nodes with
  | nil => exact fun node hnode => absurd hnode not_mem_nil
  | cons ty nodes ih =>
    have hfirst : (if valid types known ty then known.insert ty else known) = known := by
      have hbefore : known <:+ (if valid types known ty then known.insert ty else known) := by
        split
        · exact suffix_insert ty known
        · exact suffix_rfl
      have hafter := pass_suffix types nodes (if valid types known ty then known.insert ty else known)
      rw [show pass types nodes (if valid types known ty then known.insert ty else known) = known from h] at hafter
      exact (hbefore.eq_of_length_le hafter.length_le).symm
    have hrest : pass types nodes known = known := by
      have := h
      unfold pass at this
      rw [foldl_cons, hfirst] at this
      exact this
    intro node hnode hvalid
    rcases mem_cons.1 hnode with rfl | hnode
    · rw [if_pos hvalid] at hfirst
      rw [← hfirst]
      exact mem_insert_self
    · exact ih hrest node hnode hvalid

/-- What a pass keeps. -/
structure Known (types : TypeContext) (nodes known : List Ty) : Prop where
  nodup : known.Nodup
  sub : ∀ ty ∈ known, ty ∈ nodes
  value : ∀ ty ∈ known, HasValue types ty

theorem Known.pass (hnominal : ∀ node ∈ nodes, isNominal node = true) : ∀ (todo : List Ty)
    {known : List Ty}, (∀ node ∈ todo, node ∈ nodes) → Known types nodes known →
      Known types nodes (Recursive.pass types todo known)
  | [], _, _, h => h
  | ty :: todo, known, htodo, h => by
    have hty := htodo ty mem_cons_self
    suffices hnext : Known types nodes (if valid types known ty then known.insert ty else known) from
      Known.pass hnominal todo (fun node hnode => htodo node (mem_cons_of_mem _ hnode)) hnext
    split
    · rename_i hvalid
      refine ⟨h.nodup.insert, fun node hnode => ?_, fun node hnode => ?_⟩
      · rcases mem_insert_iff.1 hnode with rfl | hnode
        · exact hty
        · exact h.sub node hnode
      · rcases mem_insert_iff.1 hnode with rfl | hnode
        · exact hasValue_of_valid h.value (hnominal _ hty) hvalid
        · exact h.value node hnode
    · exact h

theorem Known.inhabitedFrom (hnominal : ∀ node ∈ nodes, isNominal node = true) (n : Nat) :
    ∀ {known : List Ty}, Known types nodes known → nodes.length < known.length + n →
      Known types nodes (Recursive.inhabitedFrom types nodes n known) ∧
        Recursive.pass types nodes (Recursive.inhabitedFrom types nodes n known) =
          Recursive.inhabitedFrom types nodes n known := by
  induction n with
  | zero =>
    intro known h hlt
    have := h.nodup.length_le_of_subset h.sub
    omega
  | succ n ih =>
    intro known h hlt
    have hpass := h.pass hnominal nodes fun _ hnode => hnode
    have hsuffix := pass_suffix types nodes known
    unfold Recursive.inhabitedFrom
    split
    · rename_i heq
      have hsame : Recursive.pass types nodes known = known := (hsuffix.eq_of_length heq.symm).symm
      rw [hsame, hsame]
      exact ⟨h, rfl⟩
    · rename_i hne
      have := hsuffix.length_le
      exact ih hpass (by omega)

theorem mem_inhabited (hnominal : ∀ node ∈ nodes, isNominal node = true)
    (hclosed : ∀ node ∈ nodes, ∀ c ∈ edges types node, c ∈ nodes) (hnode : node ∈ nodes) :
    node ∈ inhabited types nodes ↔ HasValue types node := by
  have hempty : Known types nodes [] :=
    ⟨nodup_nil, fun _ h => absurd h not_mem_nil, fun _ h => absurd h not_mem_nil⟩
  obtain ⟨hknown, hpass⟩ := hempty.inhabitedFrom hnominal (nodes.length + 1) (by simp)
  refine ⟨hknown.value node, fun h => ?_⟩
  have hfinite := finite_of_hasValue hclosed (fixed_of_pass hpass) h fun c hc => by
    rw [heads_of_nominal (hnominal node hnode)] at hc
    exact mem_singleton.1 hc ▸ hnode
  have hmem : ∀ ty : Ty, isNominal ty = true → ∀ known, finite known ty = true → ty ∈ known := by
    intro ty hty known hfinite
    cases ty with
    | record id args | union id args => simpa [finite] using hfinite
    | _ => cases hty
  exact hmem node (hnominal node hnode) _ hfinite

end Tsuzuri.Recursive
