import Tsuzuri.LastUsePaths

/-!
# Last uses are last

On every path that takes no jump out of the condition of a `while`, a read marked as a move is not followed by
another read without a store in between (`withBudget_movesLast`).
-/

namespace Tsuzuri

open ControlPaths List

variable {s₁ : UseState} {id fuel room : Nat} {arms : List TypedMatchArm} {live live' : Live}
  {pending : List (TypedExpr × Nat)} {K : Futures (Set Nat)} {x : Set Nat} {a b : UseTask}
  {ma mb : Live → UseM Live} {killed : List Nat} {v : UseScope → TypedExpr → Live → UseM Live}
  {bindings : List (Local × TypedExpr)}

section State

variable {s s' : UseState}

theorem use_bind {α β : Type} {x : UseM α} {f : α → UseM β} {b : β} (h : (x >>= f).run s = some (b, s')) :
    ∃ a s₁, x.run s = some (a, s₁) ∧ (f a).run s₁ = some (b, s') := by
  rw [StateT.run_bind] at h
  obtain ⟨⟨a, s₁⟩, hx, hf⟩ := Option.bind_eq_some_iff.mp h
  exact ⟨a, s₁, hx, hf⟩

theorem use_pure {α : Type} {a b : α} (h : (pure a : UseM α).run s = some (b, s')) : a = b ∧ s = s' := by
  rw [StateT.run_pure] at h
  cases h
  exact ⟨rfl, rfl⟩

def Persists (s s' : UseState) : Prop := ∀ key, s.reads key = some false → s'.reads key = some false

theorem Persists.refl (s : UseState) : Persists s s := fun _ h => h

theorem Persists.trans {s : UseState} (h : Persists s s₁) (h' : Persists s₁ s') :
    Persists s s' := fun key hkey => h' key (h key hkey)

theorem Persists.of_eq (h : s'.reads = s.reads) : Persists s s' := fun key hkey => by rwa [h]

variable {u : Unit}

theorem spend_ok (h : spend.run s = some (u, s')) : Persists s s' := by
  unfold spend at h
  obtain ⟨now, s₁, hget, h⟩ := use_bind h
  cases hget
  split at h
  · obtain ⟨_, _, hfail, -⟩ := use_bind h
    cases hfail
  · cases h
    exact .of_eq rfl

theorem note_false {K : Type} [DecidableEq K] {entries : K → Option Bool} {key k : K}
    {value : Bool} (h : entries k = some false) : note entries key value k = some false := by
  unfold note
  split
  · rename_i hk
    rw [← hk, h]
    rfl
  · exact h

theorem record_ok {scope : UseScope} {e : TypedExpr} {last : Bool} (h : (record scope e id last).run s = some (u, s')) :
    Persists s s' ∧ (scope.recording = true → scope.tracks e.ty = true →
      last = false ∨ id ∈ scope.excluded → s'.reads (spanKey e.span, id) = some false) := by
  unfold record at h
  split at h
  · cases h
    refine ⟨fun key hkey => note_false hkey, fun _ _ hlast => ?_⟩
    have : (last && decide (id ∉ scope.excluded)) = false := by
      rcases hlast with rfl | hid <;> simp_all
    simp only [note, this, Bool.and_false, if_pos]
  · rename_i hoff
    cases h
    refine ⟨.refl _, fun hr ht => absurd ?_ hoff⟩
    simp [hr, ht]

theorem vetoBindings_ok {scope : UseScope} {e : TypedExpr} (h : (vetoBindings scope e).run s = some (u, s')) :
    Persists s s' := by
  unfold vetoBindings at h
  split at h
  · split at h <;> cases h <;> exact .of_eq rfl
  · cases h
    exact .refl _

theorem recordBindings_ok {scope : UseScope} {subject : Nat} {owned : Bool}
    (h : (recordBindings scope subject arms owned).run s = some (u, s')) : Persists s s' := by
  unfold recordBindings at h
  split at h <;> cases h <;> exact .of_eq rfl

theorem notes_true {α K : Type} [DecidableEq K] {key : α → K} {value : α → Bool} {l : List α}
    {entries : K → Option Bool} {k : K}
    (h : l.foldl (fun entries a => note entries (key a) (value a)) entries k = some true) :
    entries k ≠ some false ∧ ∀ a ∈ l, key a = k → value a = true := by
  induction l generalizing entries with
  | nil =>
    rw [foldl_nil] at h
    simp [h]
  | cons a l ih =>
    obtain ⟨hne, hl⟩ := ih h
    refine ⟨fun hfalse => hne (note_false hfalse), forall_mem_cons.mpr ⟨fun hk => ?_, hl⟩⟩
    by_contra hvalue
    exact hne (by simp [note, hk, hvalue])

theorem recordBindings_owned {scope : UseScope} {subject : Nat} {owned : Bool} (hrecording : scope.recording = true)
    (h : (recordBindings scope subject arms owned).run s = some (u, s')) {binding : TypedMatchArm × Local}
    (hb : binding ∈ armBindings arms) (hmoved : s'.bindings (spanKey binding.2.span) = some true) : owned = true := by
  unfold recordBindings at h
  rw [if_pos hrecording] at h
  cases h
  have hall := (notes_true hmoved).2 binding hb rfl
  simp only [Bool.and_eq_true] at hall
  exact hall.1.1.1

end State

section Opaque

variable {scope : UseScope} {s s' : UseState}

def UseScope.jumpLive (scope : UseScope) (id : Nat) : Prop :=
  match scope.loops with
  | context :: _ => id ∈ context.exit ∨ id ∈ context.head
  | [] => False

/-- The locals in the expressions are live and their reads are no moves. -/
structure Opaque (scope : UseScope) (s' : UseState) (roots : TypedExpr → Prop) (live' : Live) :
    Prop where
  reads : ∀ e, roots e → ∀ sub id, Within e sub → sub.kind = .localVar id → id ∈ live'
    ∧ (scope.recording = true → scope.tracks sub.ty = true → s'.reads (spanKey sub.span, id) = some false)
  jumps : ∀ e, roots e → ∀ sub, Within e sub → sub.kind = .breakLoop ∨ sub.kind = .continueLoop →
    ∀ id, scope.jumpLive id → id ∈ live'

theorem opaqueStep_ok {e : TypedExpr} (h : (opaqueStep scope e live).run s = some (live', s')) :
    Persists s s' ∧ live ⊆ live' ∧ (∀ id, e.kind = .localVar id → id ∈ live' ∧ (scope.recording = true →
        scope.tracks e.ty = true → s'.reads (spanKey e.span, id) = some false))
      ∧ (e.kind = .breakLoop ∨ e.kind = .continueLoop → ∀ id, scope.jumpLive id → id ∈ live') := by
  unfold opaqueStep at h
  split at h
  · rename_i id hkind
    obtain ⟨_, s₁, h₁, h⟩ := use_bind h
    obtain ⟨rfl, rfl⟩ := use_pure h
    obtain ⟨hpersists, hrecord⟩ := record_ok h₁
    refine ⟨hpersists, Finset.subset_insert .., ?_, by simp [hkind]⟩
    rintro id' hkind'
    obtain rfl : id = id' := by simpa [hkind] using hkind'
    exact ⟨Finset.mem_insert_self .., fun hr ht => hrecord hr ht (.inl rfl)⟩
  all_goals
    rename_i hkind
    first
    | split at h
      · rename_i context rest hloops
        obtain ⟨rfl, rfl⟩ := use_pure h
        refine ⟨.refl _, fun id hid => ?_, by simp [hkind], fun _ id hid => ?_⟩
        · simp [hid]
        · simp only [UseScope.jumpLive, hloops] at hid
          rcases hid with hid | hid <;> simp [hid]
      · rename_i hloops
        obtain ⟨rfl, rfl⟩ := use_pure h
        refine ⟨.refl _, fun _ h => h, by simp [hkind], fun _ id hid => ?_⟩
        simp [UseScope.jumpLive, hloops] at hid
    | obtain ⟨rfl, rfl⟩ := use_pure h
      refine ⟨.refl _, fun _ h => h, by simp_all, by simp_all⟩

theorem opaqueLoop_ok (h : (opaqueLoop scope fuel pending live).run s = some (live', s')) :
    Persists s s' ∧ live ⊆ live' ∧ Opaque scope s' (fun e => ∃ room, (e, room) ∈ pending) live' := by
  induction fuel generalizing pending live s with
  | zero =>
    rw [opaqueLoop] at h
    cases h
  | succ fuel ih =>
    match pending with
    | [] =>
      rw [opaqueLoop] at h
      obtain ⟨rfl, rfl⟩ := use_pure h
      exact ⟨.refl _, fun _ h => h, ⟨by simp, by simp⟩⟩
    | (e, 0) :: _ =>
      rw [opaqueLoop] at h
      cases h
    | (e, room + 1) :: pending =>
      rw [opaqueLoop] at h
      obtain ⟨_, s₁, h₁, h⟩ := use_bind h
      obtain ⟨live₁, s₂, h₂, h⟩ := use_bind h
      obtain ⟨_, s₃, h₃, h⟩ := use_bind h
      obtain ⟨hp₂, hsub, hread, hjump⟩ := opaqueStep_ok h₂
      obtain ⟨hp, hsub', hrest⟩ := ih h
      have hp₃ := (vetoBindings_ok h₃).trans hp
      refine ⟨((spend_ok h₁).trans hp₂).trans hp₃, hsub.trans hsub', ?_, ?_⟩
      · rintro e' ⟨r, hr⟩ sub id hwithin hkind
        rcases mem_cons.mp hr with heq | hr
        · cases heq
          cases hwithin with
          | refl =>
            obtain ⟨hmem, hrecord⟩ := hread id hkind
            exact ⟨hsub' hmem, fun hrec ht => hp₃ _ (hrecord hrec ht)⟩
          | child hc hwithin =>
            exact hrest.reads _ ⟨room, by simpa using .inl hc⟩ sub id hwithin hkind
        · exact hrest.reads _ ⟨r, mem_append_right _ hr⟩ sub id hwithin hkind
      · rintro e' ⟨r, hr⟩ sub hwithin hkind id hid
        rcases mem_cons.mp hr with heq | hr
        · cases heq
          cases hwithin with
          | refl => exact hsub' (hjump hkind id hid)
          | child hc hwithin =>
            exact hrest.jumps _ ⟨room, by simpa using .inl hc⟩ sub hwithin hkind id hid
        · exact hrest.jumps _ ⟨r, mem_append_right _ hr⟩ sub hwithin hkind id hid

theorem opaqueUses_ok {e : TypedExpr} (h : (opaqueUses scope e room live).run s = some (live', s')) :
    Persists s s' ∧ live ⊆ live' ∧ Opaque scope s' (· = e) live' := by
  unfold opaqueUses at h
  obtain ⟨now, s₁, hget, h⟩ := use_bind h
  cases hget
  obtain ⟨hp, hsub, hwhole⟩ := opaqueLoop_ok h
  exact ⟨hp, hsub, fun e' he' => hwhole.reads e' ⟨room, by simp [he']⟩,
    fun e' he' => hwhole.jumps e' ⟨room, by simp [he']⟩⟩

end Opaque

/-! ## Live sets as futures -/

section Futures

variable (scope : UseScope) (s : UseState)

def UseScope.set (live : Live) : Set Nat := { id | id ∈ live ∧ id ∉ scope.excluded }

def useAct : UseEvent → Set Nat → Set Nat
  | .read _ id, x | .look id, x => { id' | id' = id ∧ id ∉ scope.excluded ∨ id' ∈ x }
  | .write id, x => { id' | id' ∈ x ∧ id' ≠ id }

def useOk : UseEvent → Set Nat → Prop
  | .read e id, x => e.kind = .localVar id ∧ (scope.recording = true → scope.tracks e.ty = true →
      id ∈ scope.excluded ∨ id ∈ x → s.reads (spanKey e.span, id) = some false)
  | .look _, _ | .write _, _ => True

def UseScope.futures (live : Live) : Futures (Set Nat) where
  done := scope.set live
  breaks := match scope.loops with
    | context :: _ => scope.set context.exit
    | [] => ∅
  continues := match scope.loops with
    | context :: _ => scope.set context.head
    | [] => ∅

abbrev UseBounds (t : UseTask) (K : Futures (Set Nat)) (x : Set Nat) : Prop :=
  Bounds useControl (useAct scope) (useOk scope s) t K x

variable {scope s}

theorem useBackward : Backward (useAct scope) (useOk scope s) where
  mono event x y hxy := by
    cases event with
    | read e id | look id => exact fun id' hid => hid.imp_right fun h => hxy h
    | write id => exact fun id' hid => ⟨hxy hid.1, hid.2⟩
  anti event x y hxy hok := by
    cases event with
    | read e id => exact ⟨hok.1, fun hr ht hid => hok.2 hr ht (hid.imp_right fun h => hxy h)⟩
    | look id => trivial
    | write id => trivial

variable {s' : UseState}

theorem UseBounds.persists {t : UseTask} (h : UseBounds scope s t K x) (hp : Persists s s') :
    UseBounds scope s' t K x := by
  refine Bounds.imp h fun event x hok => ?_
  cases event with
  | read e id => exact ⟨hok.1, fun hr ht hid => hp _ (hok.2 hr ht hid)⟩
  | look id => trivial
  | write id => trivial

theorem set_mono (h : live ⊆ live') : scope.set live ≤ scope.set live' :=
  fun _ hid => ⟨h hid.1, hid.2⟩

theorem futures_jump_le (live : Live) (h : id ∈ (scope.futures live).breaks ∨ id ∈ (scope.futures live).continues) :
    scope.jumpLive id ∧ id ∉ scope.excluded := by
  unfold UseScope.futures at h
  unfold UseScope.jumpLive
  cases hloops : scope.loops with
  | nil => simp [hloops] at h
  | cons context rest =>
    simp only [hloops] at h
    rcases h with h | h
    · exact ⟨.inl h.1, h.2⟩
    · exact ⟨.inr h.1, h.2⟩

theorem opaque_bounds (live₀ : Live) {e : TypedExpr} {y : Set Nat} (h : Opaque scope s (· = e) live)
    (hx : scope.set live ≤ x) (hy : y ≤ x) :
    UseBounds scope s (opaqueTask e) { scope.futures live₀ with done := y } x := by
  refine bounds_region ?_ ?_ hy ?_
  · intro event z hallowed hz
    cases event with
    | read sub id =>
      rintro id' (⟨rfl, hid⟩ | hid)
      · exact hx ⟨(h.reads e rfl sub _ hallowed.1 hallowed.2).1, hid⟩
      · exact hz hid
    | look id =>
      obtain ⟨sub, hwithin, hkind⟩ := hallowed
      rintro id' (⟨rfl, hid⟩ | hid)
      · exact hx ⟨(h.reads e rfl sub _ hwithin hkind).1, hid⟩
      · exact hz hid
    | write id => exact fun id' hid => hz hid.1
  · intro event z hallowed _
    cases event with
    | read sub id =>
      exact ⟨hallowed.2, fun hr ht _ => (h.reads e rfl sub id hallowed.1 hallowed.2).2 hr ht⟩
    | look id => trivial
    | write id => trivial
  · intro o ho id hid
    cases o with
    | done => exact ho.elim
    | stopped => exact ho.elim
    | breaks =>
      obtain ⟨sub, hwithin, hkind⟩ := ho
      obtain ⟨hjump, hex⟩ := futures_jump_le live₀ (.inl hid)
      exact hx ⟨h.jumps e rfl sub hwithin (.inl hkind) id hjump, hex⟩
    | continues =>
      obtain ⟨sub, hwithin, hkind⟩ := ho
      obtain ⟨hjump, hex⟩ := futures_jump_le live₀ (.inr hid)
      exact hx ⟨h.jumps e rfl sub hwithin (.inr hkind) id hjump, hex⟩

/-- `m` finds what is live before the control `t`, and records the reads that are not the last. -/
def Visits (scope : UseScope) (t : UseTask) (m : Live → UseM Live) : Prop :=
  ∀ live s live' s', (m live).run s = some (live', s') →
    Persists s s' ∧ UseBounds scope s' t (scope.futures live) (scope.set live')

theorem visits_pure : Visits scope .skip pure := by
  intro live s live' s' h
  obtain ⟨rfl, rfl⟩ := use_pure h
  exact ⟨.refl _, bounds_skip⟩

theorem visits_seq (ha : Visits scope a ma) (hb : Visits scope b mb) :
    Visits scope (.seq a b) fun live => mb live >>= ma := by
  intro live s live' s' h
  obtain ⟨live₁, s₁, h₁, h₂⟩ := use_bind h
  obtain ⟨hp₁, hbounds₁⟩ := hb _ _ _ _ h₁
  obtain ⟨hp₂, hbounds₂⟩ := ha _ _ _ _ h₂
  exact ⟨hp₁.trans hp₂, bounds_seq useBackward (hbounds₁.persists hp₂) hbounds₂⟩

theorem visits_opaque {e : TypedExpr} : Visits scope (opaqueTask e) (opaqueUses scope e room) := by
  intro live s live' s' h
  obtain ⟨hp, hsub, hwhole⟩ := opaqueUses_ok h
  exact ⟨hp, opaque_bounds live hwhole le_rfl (set_mono hsub)⟩

theorem write_bounds (hK : K.done ≤ scope.set live) :
    UseBounds scope s (.emit (.write id)) K (scope.set (live.erase id)) := by
  refine bounds_emit (fun id' hid => ?_) trivial
  exact ⟨Finset.mem_erase.mpr ⟨hid.2, (hK hid.1).1⟩, (hK hid.1).2⟩

theorem visits_write (id : Nat) : Visits scope (.emit (.write id)) fun live => pure (live.erase id) := by
  intro live s live' s' h
  obtain ⟨rfl, rfl⟩ := use_pure h
  exact ⟨.refl _, write_bounds le_rfl⟩

theorem visits_parts {v : TypedExpr → Live → UseM Live} {parts : List TypedExpr}
    (h : ∀ e ∈ parts, Visits scope (.eval e) (v e)) : Visits scope (.all (parts.map .eval)) (visitParts v parts) := by
  induction parts with
  | nil => exact visits_pure
  | cons e parts ih =>
    obtain ⟨he, hparts⟩ := forall_mem_cons.mp h
    have heq : visitParts v (e :: parts) = fun live => visitParts v parts live >>= v e := by
      funext live
      simp [visitParts]
    rw [heq]
    exact visits_seq he (ih hparts)

end Futures

section Loops

variable {scope : UseScope} {s s' : UseState}
variable {head : Live} {condition : Option TypedExpr} {bodyTask : UseTask}

theorem growUses_ok {round : Live → UseM Live} {set : Live}
    (hround : ∀ live s live' s', (round live).run s = some (live', s') → Persists s s')
    (h : (growUses round fuel set).run s = some (head, s')) :
    ∃ s₁ next, (round head).run s₁ = some (next, s') ∧ next ⊆ head ∧ Persists s s' := by
  induction fuel generalizing set s with
  | zero =>
    rw [growUses] at h
    cases h
  | succ fuel ih =>
    rw [growUses] at h
    obtain ⟨next, s₁, h₁, h⟩ := use_bind h
    have hp := hround _ _ _ _ h₁
    split at h
    · rename_i hsub
      obtain ⟨rfl, rfl⟩ := use_pure h
      exact ⟨s, next, h₁, hsub, hp⟩
    · obtain ⟨s₂, next', h₂, hsub, hp'⟩ := ih h
      exact ⟨s₂, next', h₂, hsub, hp.trans hp'⟩

def UseScope.inLoop (scope : UseScope) (exit head : Live) (recording : Bool) : UseScope :=
  { scope with loops := ⟨exit, head⟩ :: scope.loops, recording }

/-- The test of a `while`; the other loops have none. -/
def testTask : Option TypedExpr → UseTask
  | some condition => .eval condition
  | none => .skip

theorem loopRound_ok {scope : UseScope} {v : TypedExpr → Live → UseM Live} {body : TypedExpr}
    {exit next : Live} (hbody : Visits scope (.eval body) (v body))
    (hcondition : ∀ e, condition = some e → Visits scope (.eval e) (v e))
    (hkill : ∀ (s : UseState) (K : Futures (Set Nat)) (live : Live), UseBounds scope s (.eval body) K (scope.set live) →
        UseBounds scope s bodyTask K (scope.set (live.filter (· ∉ killed))))
    (h : (loopRound v condition body killed exit head).run s = some (next, s')) :
    Persists s s' ∧ ∃ live : Live, exit ⊆ live
      ∧ UseBounds scope s' (testTask condition) (scope.futures live) (scope.set next)
      ∧ UseBounds scope s' bodyTask (scope.futures head) (scope.set live) := by
  unfold loopRound at h
  obtain ⟨live₁, s₁, h₁, h⟩ := use_bind h
  obtain ⟨hp₁, hbounds₁⟩ := hbody _ _ _ _ h₁
  have hle : scope.set (live₁.filter (· ∉ killed))
      ≤ scope.set (live₁.filter (· ∉ killed) ∪ exit) := set_mono Finset.subset_union_left
  cases condition with
  | none =>
    obtain ⟨rfl, rfl⟩ := use_pure h
    exact ⟨hp₁, _, Finset.subset_union_right, bounds_skip, (hkill _ _ _ hbounds₁).mono hle⟩
  | some condition =>
    obtain ⟨hp₂, hbounds₂⟩ := hcondition condition rfl _ _ _ _ h
    exact ⟨hp₁.trans hp₂, _, Finset.subset_union_right, hbounds₂, (hkill _ _ _ (hbounds₁.persists hp₂)).mono hle⟩

theorem visits_loop {body : TypedExpr}
    (hbody : ∀ exit head recording, Visits (scope.inLoop exit head recording) (.eval body)
      (v (scope.inLoop exit head recording) body)) (hcondition : ∀ exit head recording e, condition = some e →
      Visits (scope.inLoop exit head recording) (.eval e) (v (scope.inLoop exit head recording) e))
    (hkill : ∀ exit head recording (s : UseState) (K : Futures (Set Nat)) (live : Live),
      UseBounds (scope.inLoop exit head recording) s (.eval body) K (scope.set live) →
        UseBounds (scope.inLoop exit head recording) s bodyTask K (scope.set (live.filter (· ∉ killed)))) :
    Visits scope (.loop (testTask condition) bodyTask) (loopUses scope v condition body killed) := by
  intro exit s head' s' h
  unfold loopUses at h
  obtain ⟨now, s₀, hget, h⟩ := use_bind h
  cases hget
  obtain ⟨head, s₁, hgrow, h⟩ := use_bind h
  obtain ⟨_, s₂, hlast, h⟩ := use_bind h
  obtain ⟨rfl, rfl⟩ := use_pure h
  have hround (recording : Bool) (head : Live) {s s' : UseState} {next : Live}
      (h : (loopRound (v (scope.inLoop exit head recording)) condition body killed exit head).run s
        = some (next, s')) :=
    loopRound_ok (hbody exit head recording) (hcondition exit head recording) (hkill exit head recording) h
  -- the rounds without recording bound the loop by its head
  obtain ⟨s₃, next, hfix, hsub, hp₁⟩ := growUses_ok (fun live s live' s' h => (hround false live h).1) hgrow
  obtain ⟨-, live₁, hexit₁, htest₁, hbody₁⟩ := hround false head hfix
  have hloop : UseBounds (scope.inLoop exit head false) s₁ (.loop (testTask condition) bodyTask)
      (scope.futures exit) (scope.set head) :=
    bounds_loop useBackward (htest₁.mono (set_mono hsub)) le_rfl (set_mono hexit₁) hbody₁
  -- the last round records, and its claims are about the same futures
  obtain ⟨hp₂, live₂, hexit₂, htest₂, hbody₂⟩ := hround scope.recording head hlast
  exact ⟨hp₁.trans hp₂, bounds_loop_again useBackward hloop htest₂ le_rfl (set_mono hexit₂) hbody₂⟩

end Loops

/-! ## Matches -/

section Matches

variable {scope : UseScope} {s s' : UseState} {room : Nat} {exit fall : Live}
variable {body entry entries entries' : Live}

theorem bindings_ok (exit : Live) (hexcluded : ∀ b ∈ bindings, b.1.id ∈ scope.excluded)
    (h : (bindings.foldrM (bindingUses scope room) body).run s = some (entry, s')) :
    Persists s s' ∧ scope.set body ≤ scope.set entry ∧ ∀ x y, y ≤ x → scope.set entry ≤ x →
        UseBounds scope s' (bindingsTask bindings) { scope.futures exit with done := y } x := by
  induction bindings generalizing entry s' with
  | nil =>
    obtain ⟨rfl, rfl⟩ := use_pure h
    exact ⟨.refl _, le_rfl, fun x y hy _ => bounds_skip.mono hy⟩
  | cons b bindings ih =>
    obtain ⟨hb, hrest⟩ := forall_mem_cons.mp hexcluded
    rw [foldrM_cons] at h
    obtain ⟨entry₁, s₁, h₁, h⟩ := use_bind h
    obtain ⟨hp₁, hle₁, hbounds₁⟩ := ih hrest h₁
    obtain ⟨hp₂, hsub, hwhole⟩ := opaqueUses_ok h
    have hle₂ : scope.set entry₁ ≤ scope.set entry := by
      refine le_trans ?_ (set_mono hsub)
      rintro id ⟨hid, hex⟩
      exact ⟨Finset.mem_erase.mpr ⟨fun heq => hex (heq ▸ hb), hid⟩, hex⟩
    refine ⟨hp₁.trans hp₂, hle₁.trans hle₂, fun x y hy hx => ?_⟩
    have hrest := (hbounds₁ x y hy (hle₂.trans hx)).persists hp₂
    have hwrite : UseBounds scope s' (.emit (.write b.1.id)) { scope.futures exit with done := x } x :=
      bounds_emit (fun id hid => hid.1) trivial
    exact bounds_seq useBackward (bounds_seq useBackward hrest hwrite) (opaque_bounds exit hwhole hx le_rfl)

theorem Opaque.persists {roots : TypedExpr → Prop} (h : Opaque scope s roots live) (hp : Persists s s') :
    Opaque scope s' roots live :=
  ⟨fun e he sub id hwithin hkind => ⟨(h.reads e he sub id hwithin hkind).1,
    fun hr ht => hp _ ((h.reads e he sub id hwithin hkind).2 hr ht)⟩, h.jumps⟩

theorem steps_ok (exit : Live) {steps : List PatternStep} {entry' : Live}
    (h : (steps.foldrM (stepUses scope room fall) entry).run s = some (entry', s')) :
    Persists s s' ∧ ∀ s'', Persists s' s'' → ∀ success fail,
      UseBounds scope s'' success (scope.futures exit) (scope.set entry) →
      UseBounds scope s'' fail (scope.futures exit) (scope.set fall) →
      UseBounds scope s'' (stepsTask success fail steps) (scope.futures exit) (scope.set entry') := by
  induction steps generalizing entry' s' with
  | nil =>
    obtain ⟨rfl, rfl⟩ := use_pure h
    exact ⟨.refl _, fun _ _ _ _ hsuccess _ => hsuccess⟩
  | cons step steps ih =>
    rw [foldrM_cons] at h
    obtain ⟨entry₁, s₁, h₁, h⟩ := use_bind h
    obtain ⟨hp₁, hbounds₁⟩ := ih h₁
    cases step with
    | bind binding value =>
      obtain ⟨hp₂, hsub, hwhole⟩ := opaqueUses_ok h
      refine ⟨hp₁.trans hp₂, fun s'' hp success fail hsuccess hfail => ?_⟩
      have hsteps := hbounds₁ s'' (hp₂.trans hp) success fail hsuccess hfail
      exact bounds_seq useBackward (bounds_seq useBackward hsteps (write_bounds le_rfl))
        (opaque_bounds exit (hwhole.persists hp) le_rfl (set_mono hsub))
    | test value =>
      obtain ⟨hp₂, hsub, hwhole⟩ := opaqueUses_ok h
      refine ⟨hp₁.trans hp₂, fun s'' hp success fail hsuccess hfail => ?_⟩
      have hsteps := hbounds₁ s'' (hp₂.trans hp) success fail hsuccess hfail
      have hchoice := bounds_choice (hsteps.mono (set_mono (Finset.subset_union_left.trans hsub)))
        (hfail.mono (set_mono (Finset.subset_union_right.trans hsub)))
      exact bounds_seq useBackward hchoice (opaque_bounds exit (hwhole.persists hp) le_rfl le_rfl)

/-- What is live before the body of an arm, and before its guard. -/
structure ArmReady (scope : UseScope) (s : UseState) (exit fall : Live) (arm : TypedMatchArm)
    (live : Live) : Prop where
  body : UseBounds scope s (.eval arm.body) (scope.futures exit) (scope.set live)
  guard : ∀ guard, arm.guard = some guard → fall ⊆ live ∧ Opaque scope s (· = guard) live

theorem ArmReady.persists {arm : TypedMatchArm} (h : ArmReady scope s exit fall arm live) (hp : Persists s s') :
    ArmReady scope s' exit fall arm live :=
  ⟨h.body.persists hp, fun guard hguard =>
    ⟨(h.guard guard hguard).1, (h.guard guard hguard).2.persists hp⟩⟩

theorem guard_ok {arm : TypedMatchArm}
    (hbody : UseBounds scope s (.eval arm.body) (scope.futures exit) (scope.set body))
    (h : (guardUses scope room fall arm body).run s = some (live, s')) :
    Persists s s' ∧ ArmReady scope s' exit fall arm live := by
  unfold guardUses at h
  cases hguard : arm.guard with
  | none =>
    simp only [hguard] at h
    obtain ⟨rfl, rfl⟩ := use_pure h
    exact ⟨.refl _, hbody, by simp [hguard]⟩
  | some guard =>
    simp only [hguard] at h
    obtain ⟨hp, hsub, hwhole⟩ := opaqueUses_ok h
    refine ⟨hp, (hbody.persists hp).mono (set_mono (Finset.subset_union_left.trans hsub)), ?_⟩
    intro guard' hguard'
    obtain rfl : guard = guard' := by simpa [hguard] using hguard'
    exact ⟨Finset.subset_union_right.trans hsub, hwhole⟩

theorem alternative_ok (exit : Live) {arm : TypedMatchArm} {alternative : PatternAlternative}
    (hexcluded : ∀ b ∈ alternative.bindings, b.1.id ∈ scope.excluded)
    (h : (alternativeUses scope room fall alternative body).run s = some (entry, s')) :
    Persists s s' ∧ ∀ s'', Persists s' s'' → ArmReady scope s'' exit fall arm body →
      ∀ next fail, UseBounds scope s'' next (scope.futures exit) (scope.set fall) →
      UseBounds scope s'' fail (scope.futures exit) (scope.set fall) →
      UseBounds scope s'' (stepsTask (acceptTask arm next alternative) fail alternative.steps)
        (scope.futures exit) (scope.set entry) := by
  unfold alternativeUses at h
  obtain ⟨entry₁, s₁, h₁, h₂⟩ := use_bind h
  obtain ⟨hp₁, hle, hbindings⟩ := bindings_ok exit hexcluded h₁
  obtain ⟨hp₂, hsteps⟩ := steps_ok exit h₂
  refine ⟨hp₁.trans hp₂, fun s'' hp hready next fail hnext hfail => ?_⟩
  refine hsteps s'' hp _ fail ?_ hfail
  have hbind (y : Set Nat) (hy : y ≤ scope.set entry₁) :=
    (hbindings _ y hy le_rfl).persists (hp₂.trans hp)
  unfold acceptTask
  cases hguard : arm.guard with
  | none => exact bounds_seq useBackward hready.body (hbind _ hle)
  | some guard =>
    obtain ⟨hfall, hwhole⟩ := hready.guard guard hguard
    have hbody := bounds_seq useBackward hready.body (hbind _ hle)
    have hchoice := bounds_choice hbody (hnext.mono ((set_mono hfall).trans hle))
    exact bounds_seq useBackward (bounds_seq useBackward hchoice (opaque_bounds exit hwhole hle le_rfl))
      (hbind _ le_rfl)

/-- What the rest of a match may go on with. -/
inductive ArmsTail : List TypedMatchArm → UseTask → Prop
  | arms (arms : List TypedMatchArm) : ArmsTail arms (armsTask arms)
  | alternatives {arm : TypedMatchArm} {arms : List TypedMatchArm}
      {rest : List PatternAlternative} (h : rest <:+ arm.alternatives) :
      ArmsTail (arm :: arms) (alternativesTask arm (armsTask arms) rest)
  | later {arm : TypedMatchArm} {arms : List TypedMatchArm} {t : UseTask} (h : ArmsTail arms t) :
      ArmsTail (arm :: arms) t

theorem alternatives_ok (exit : Live) {arm : TypedMatchArm} {alternatives : List PatternAlternative}
    (hexcluded : ∀ alternative ∈ alternatives, ∀ b ∈ alternative.bindings,
      b.1.id ∈ scope.excluded) (h : (alternatives.foldlM (fun entries alternative => do
      return entries ∪ (← alternativeUses scope room fall alternative body)) entries).run s = some (entries', s')) :
    Persists s s' ∧ entries ⊆ entries' ∧ ∀ s'', Persists s' s'' →
      ArmReady scope s'' exit fall arm body → ∀ next x, scope.set entries' ≤ x →
      UseBounds scope s'' next (scope.futures exit) (scope.set fall) → UseBounds scope s'' next (scope.futures exit) x →
      (∀ rest, rest <:+ alternatives → UseBounds scope s'' (alternativesTask arm next rest) (scope.futures exit) x →
        UseBounds scope s'' (alternativesTask arm next rest) (scope.futures exit) (scope.set fall)) →
      ∀ rest, rest <:+ alternatives → UseBounds scope s'' (alternativesTask arm next rest) (scope.futures exit) x := by
  induction alternatives generalizing entries s with
  | nil =>
    obtain ⟨rfl, rfl⟩ := use_pure h
    refine ⟨.refl _, fun _ h => h, fun s'' _ _ next x _ _ hnext _ rest hrest => ?_⟩
    obtain rfl := suffix_nil.mp hrest
    exact hnext
  | cons alternative alternatives ih =>
    obtain ⟨hb, hbs⟩ := forall_mem_cons.mp hexcluded
    rw [foldlM_cons] at h
    obtain ⟨entries₁, s₁, h₁, h⟩ := use_bind h
    obtain ⟨entry, s₂, h₂, hpure⟩ := use_bind h₁
    obtain ⟨rfl, rfl⟩ := use_pure hpure
    obtain ⟨hp₁, hfirst⟩ := alternative_ok exit hb h₂
    obtain ⟨hp₂, hsub, hrest⟩ := ih hbs h
    refine ⟨hp₁.trans hp₂, Finset.subset_union_left.trans hsub, ?_⟩
    intro s'' hp hready next x hx hnextFall hnext hcont
    have htails := hrest s'' hp hready next x hx hnextFall hnext
      fun rest hsuffix => hcont rest (hsuffix.trans (suffix_cons ..))
    intro rest hsuffix
    rcases suffix_cons_iff.mp hsuffix with rfl | hsuffix
    · have hfail := hcont alternatives (suffix_cons ..) (htails alternatives (suffix_refl _))
      exact (hfirst s'' (hp₂.trans hp) hready next _ hnextFall hfail).mono
        ((set_mono (Finset.subset_union_right.trans hsub)).trans hx)
    · exact htails rest hsuffix

theorem arms_ok {v : TypedExpr → Live → UseM Live} (hv : ∀ arm ∈ arms, Visits scope (.eval arm.body) (v arm.body))
    (hexcluded : ∀ arm ∈ arms, ∀ alternative ∈ arm.alternatives, ∀ b ∈ alternative.bindings, b.1.id ∈ scope.excluded)
    (h : (arms.foldlM (fun entries arm => armUses scope v room exit fall arm entries) entries).run s
      = some (entries', s')) :
    Persists s s' ∧ entries ⊆ entries' ∧ ∀ s'', Persists s' s'' → ∀ x, scope.set entries' ≤ x →
      (∀ t, ArmsTail arms t → UseBounds scope s'' t (scope.futures exit) x →
        UseBounds scope s'' t (scope.futures exit) (scope.set fall)) →
      ∀ t, ArmsTail arms t → UseBounds scope s'' t (scope.futures exit) x := by
  induction arms generalizing entries s with
  | nil =>
    obtain ⟨rfl, rfl⟩ := use_pure h
    refine ⟨.refl _, fun _ h => h, fun s'' _ x _ _ t ht => ?_⟩
    cases ht
    exact (bounds_leave (K := scope.futures exit) (o := .stopped)).mono bot_le
  | cons arm arms ih =>
    obtain ⟨hv₁, hvs⟩ := forall_mem_cons.mp hv
    obtain ⟨hb, hbs⟩ := forall_mem_cons.mp hexcluded
    rw [foldlM_cons] at h
    obtain ⟨entries₁, s₁, h₁, h⟩ := use_bind h
    unfold armUses at h₁
    obtain ⟨body₀, s₂, hbody, h₁⟩ := use_bind h₁
    obtain ⟨body, s₃, hguard, halternatives⟩ := use_bind h₁
    obtain ⟨hp₂, hbounds⟩ := hv₁ _ _ _ _ hbody
    obtain ⟨hp₃, hready⟩ := guard_ok hbounds hguard
    obtain ⟨hp₄, hsub₁, hfirst⟩ := alternatives_ok exit hb halternatives
    obtain ⟨hp₅, hsub₂, hlater⟩ := ih hvs hbs h
    refine ⟨((hp₂.trans hp₃).trans hp₄).trans hp₅, hsub₁.trans hsub₂, ?_⟩
    intro s'' hp x hx hcont
    have htails := hlater s'' hp x hx fun t ht => hcont t (.later ht)
    have hnext := htails _ (.arms arms)
    have halts := hfirst s'' (hp₅.trans hp) (hready.persists ((hp₄.trans hp₅).trans hp))
      (armsTask arms) x ((set_mono hsub₂).trans hx) (hcont _ (.later (.arms arms)) hnext) hnext
      fun rest hsuffix => hcont _ (.alternatives hsuffix)
    intro t ht
    cases ht with
    | arms => exact halts arm.alternatives (suffix_refl _)
    | alternatives hsuffix => exact halts _ hsuffix
    | later ht => exact htails t ht

theorem visits_arms (hv : ∀ recording, ∀ arm ∈ arms, Visits { scope with recording } (.eval arm.body)
      (v { scope with recording } arm.body))
    (hexcluded : ∀ arm ∈ arms, ∀ alternative ∈ arm.alternatives, ∀ b ∈ alternative.bindings,
      b.1.id ∈ scope.excluded) {s : UseState} (hgrow : (growUses (matchRound { scope with recording := false }
      (v { scope with recording := false }) room arms exit) fuel ∅).run s = some (fall, s₁))
    (hround : (matchRound scope (v scope) room arms exit fall).run s₁ = some (live, s')) :
    Persists s s' ∧ UseBounds scope s' (armsTask arms) (scope.futures exit) (scope.set live) := by
  obtain ⟨s₂, next, hfix, hsub, hp₁⟩ := growUses_ok (fun live s live' s' h => (arms_ok (hv false) hexcluded h).1) hgrow
  obtain ⟨-, -, hfall⟩ := arms_ok (hv false) hexcluded hfix
  have hfall := hfall s₁ (.refl _) ({ scope with recording := false }.set fall) (set_mono hsub) fun _ _ h => h
  obtain ⟨hp₂, -, hlive⟩ := arms_ok (hv scope.recording) hexcluded hround
  refine ⟨hp₁.trans hp₂, hlive s' (.refl _) _ le_rfl (fun t ht h => ?_) _ (.arms arms)⟩
  exact Bounds.claims (hfall t ht) h

end Matches

/-! ## Whole bodies -/

section Bodies

variable {scope : UseScope} {s s' : UseState}

def Excludes (excluded : Live) (e : TypedExpr) : Prop :=
  ∀ sub, Within e sub → ∀ id ∈ exclusions sub, id ∈ excluded

variable {excluded : Live}

theorem Excludes.child {e c : TypedExpr} (h : Excludes excluded e) (hc : c ∈ e.children) : Excludes excluded c :=
  fun sub hwithin => h sub (.child hc hwithin)

theorem Excludes.matchArms {e value : TypedExpr} {subject : Local} (h : Excludes excluded e)
    (hkind : e.kind = .matchWith subject value arms) :
    subject.id ∈ excluded ∧ (∀ arm ∈ arms, Excludes excluded arm.body) ∧
      ∀ arm ∈ arms, ∀ alternative ∈ arm.alternatives, ∀ b ∈ alternative.bindings, b.1.id ∈ excluded := by
  have hself := h e (.refl e)
  simp only [exclusions, hkind] at hself
  refine ⟨hself _ mem_cons_self, fun arm harm => h.child ?_, fun arm harm alternative halternative b hb => ?_⟩
  · simp only [TypedExpr.children, hkind]
    exact mem_cons_of_mem _ (mem_flatMap.mpr ⟨arm, harm, by simp⟩)
  · exact hself _ (mem_cons_of_mem _ (mem_flatMap.mpr ⟨arm, harm,
      mem_flatMap.mpr ⟨alternative, halternative, mem_append_left _ (mem_map_of_mem hb)⟩⟩))

theorem visits_read {e : TypedExpr} (hkind : e.kind = .localVar id) : Visits scope (.emit (.read e id)) fun live =>
      record scope e id (decide (id ∉ live)) >>= fun _ => pure (insert id live) := by
  intro live s live' s' h
  obtain ⟨_, s₁, h₁, h₂⟩ := use_bind h
  obtain ⟨rfl, rfl⟩ := use_pure h₂
  obtain ⟨hp, hrecord⟩ := record_ok h₁
  refine ⟨hp, bounds_emit ?_ ⟨hkind, fun hr ht hid => hrecord hr ht ?_⟩⟩
  · rintro id' (⟨rfl, hid⟩ | hid)
    · exact ⟨Finset.mem_insert_self .., hid⟩
    · exact ⟨Finset.mem_insert_of_mem hid.1, hid.2⟩
  · rcases hid with hid | hid
    · exact .inr hid
    · exact .inl (by simp [hid.1])

theorem visits_shortCircuit (ha : Visits scope a ma) (hb : Visits scope b mb) :
    Visits scope (.seq a (.choice .skip b)) fun live => mb live >>= fun conditional => ma (live ∪ conditional) := by
  intro live s live' s' h
  obtain ⟨live₁, s₁, h₁, h₂⟩ := use_bind h
  obtain ⟨hp₁, hbounds₁⟩ := hb _ _ _ _ h₁
  obtain ⟨hp₂, hbounds₂⟩ := ha _ _ _ _ h₂
  have hchoice := bounds_choice (bounds_skip.mono (set_mono Finset.subset_union_left))
    ((hbounds₁.persists hp₂).mono (set_mono Finset.subset_union_right))
  exact ⟨hp₁.trans hp₂, bounds_seq useBackward hchoice hbounds₂⟩

theorem visits_ifElse {c : UseTask} {mc : Live → UseM Live} (hc : Visits scope c mc)
    (ha : Visits scope a ma) (hb : Visits scope b mb) : Visits scope (.seq c (.choice a b)) fun live =>
      ma live >>= fun yes => mb live >>= fun no => mc (yes ∪ no) := by
  intro live s live' s' h
  obtain ⟨yes, s₁, h₁, h⟩ := use_bind h
  obtain ⟨no, s₂, h₂, h₃⟩ := use_bind h
  obtain ⟨hp₁, hbounds₁⟩ := ha _ _ _ _ h₁
  obtain ⟨hp₂, hbounds₂⟩ := hb _ _ _ _ h₂
  obtain ⟨hp₃, hbounds₃⟩ := hc _ _ _ _ h₃
  have hchoice := bounds_choice ((hbounds₁.persists (hp₂.trans hp₃)).mono (set_mono (Finset.subset_union_left)))
    ((hbounds₂.persists hp₃).mono (set_mono Finset.subset_union_right))
  exact ⟨(hp₁.trans hp₂).trans hp₃, bounds_seq useBackward hchoice hbounds₃⟩

theorem visits_assign {place : TypedExpr} : Visits scope (assignTask place) (assignUses scope room place) := by
  intro live s live' s' h
  cases hkind : place.kind
  all_goals simp only [assignTask, assignUses, hkind] at h ⊢
  case localVar id => exact visits_write id _ _ _ _ h
  all_goals exact visits_opaque _ _ _ _ h

theorem visits_block {v : TypedExpr → Live → UseM Live} {result : UseTask} {m : Live → UseM Live}
    (hresult : Visits scope result m) (hv : ∀ b ∈ bindings, Visits scope (.eval b.2) (v b.2)) :
    Visits scope (blockTask result bindings) fun live => m live >>= fun live =>
      bindings.foldrM (fun binding live => v binding.2 (live.erase binding.1.id)) live := by
  induction bindings with
  | nil =>
    simp only [foldrM_nil, bind_pure]
    exact hresult
  | cons b bindings ih =>
    obtain ⟨hb, hbs⟩ := forall_mem_cons.mp hv
    have hstep := visits_seq hb (visits_seq (visits_write b.1.id) (ih hbs))
    simpa [blockTask, bind_assoc] using hstep

theorem visits_leave {o : Outcome} (live₀ : Live → Live)
    (h : ∀ live, (scope.futures live).at o ≤ scope.set (live₀ live)) :
    Visits scope (.leave o) fun live => pure (live₀ live) := by
  intro live s live' s' hrun
  obtain ⟨rfl, rfl⟩ := use_pure hrun
  exact ⟨.refl _, bounds_leave.mono (h live)⟩

theorem for_kill {body : UseTask} (hkilled : ∀ id' ∈ killed, id' = id ∨ id' ∈ scope.excluded)
    (h : UseBounds scope s body K (scope.set live)) :
    UseBounds scope s (.seq (.emit (.write id)) body) K (scope.set (live.filter (· ∉ killed))) := by
  refine bounds_seq useBackward h (bounds_emit ?_ trivial)
  rintro id' ⟨⟨hid, hex⟩, hne⟩
  refine ⟨Finset.mem_filter.mpr ⟨hid, fun hmem => ?_⟩, hex⟩
  exact (hkilled id' hmem).elim hne hex

theorem visits_for {body : TypedExpr} (hbody : ∀ exit head recording,
      Visits (scope.inLoop exit head recording) (.eval body) (v (scope.inLoop exit head recording) body))
    (hkilled : ∀ id' ∈ killed, id' = id ∨ id' ∈ scope.excluded) :
    Visits scope (.loop (testTask none) (.seq (.emit (.write id)) (.eval body))) (loopUses scope v none body killed) :=
  visits_loop hbody (by simp) fun _ _ _ _ _ _ hbounds => for_kill hkilled hbounds

/-- The owner of a `for` is stored into before its loop, and is never moved. -/
theorem visits_store {m : Live → UseM Live} (ha : Visits scope a m) : Visits scope (.seq (.emit (.write id)) a) m := by
  intro live s live' s' h
  obtain ⟨hp, hbounds⟩ := ha _ _ _ _ h
  exact ⟨hp, bounds_seq useBackward hbounds (bounds_emit (fun _ hid => hid.1) trivial)⟩

theorem visits_match {subject : Local} {value : TypedExpr}
    (hv : ∀ recording, ∀ arm ∈ arms, Visits { scope with recording } (.eval arm.body)
      (v { scope with recording } arm.body)) (hvalue : Visits scope (.eval value) (v scope value))
    (hexcluded : ∀ arm ∈ arms, ∀ alternative ∈ arm.alternatives, ∀ b ∈ alternative.bindings, b.1.id ∈ scope.excluded) :
    Visits scope (.seq (subjectTask value) (.seq (.emit (.write subject.id)) (armsTask arms)))
      (matchUses scope v room subject value arms) := by
  intro exit s live' s' h
  unfold matchUses at h
  obtain ⟨now, s₀, hget, h⟩ := use_bind h
  cases hget
  obtain ⟨fall, s₁, hgrow, h⟩ := use_bind h
  obtain ⟨live, s₂, hround, h⟩ := use_bind h
  obtain ⟨_, s₃, hrecord, h⟩ := use_bind h
  obtain ⟨hp₁, harms⟩ := visits_arms hv hexcluded hgrow hround
  have hp₂ := recordBindings_ok hrecord
  have htail (s'' : UseState) (hp : Persists s₃ s'') :
      UseBounds scope s'' (.seq (.emit (.write subject.id)) (armsTask arms)) (scope.futures exit)
        (scope.set (live.erase subject.id)) :=
    bounds_seq useBackward (harms.persists (hp₂.trans hp)) (write_bounds le_rfl)
  cases hkind : value.kind
  all_goals simp only [subjectTask, hkind] at h ⊢
  case localVar id =>
    obtain ⟨rfl, rfl⟩ := use_pure h
    refine ⟨hp₁.trans hp₂, bounds_seq useBackward (htail _ (.refl _)) (bounds_emit ?_ trivial)⟩
    rintro id' (⟨rfl, hid⟩ | hid)
    · exact ⟨Finset.mem_insert_self .., hid⟩
    · exact ⟨Finset.mem_insert_of_mem hid.1, hid.2⟩
  all_goals
    obtain ⟨hp₃, hbounds⟩ := hvalue _ _ _ _ h
    exact ⟨(hp₁.trans hp₂).trans hp₃, bounds_seq useBackward (htail _ hp₃) hbounds⟩

theorem visits_visit (room : Nat) : ∀ (scope : UseScope) (e : TypedExpr),
    Excludes scope.excluded e → Visits scope (.eval e) (visit room scope e) := by
  induction room with
  | zero =>
    intro scope e _ live s live' s' h
    rw [visit] at h
    cases h
  | succ room ih =>
    intro scope e hex
    have hchild (scope' : UseScope) (hscope : scope'.excluded = scope.excluded) (c : TypedExpr)
        (hc : c ∈ e.children) : Visits scope' (.eval c) (visit room scope' c) :=
      ih scope' c (by rw [hscope]; exact hex.child hc)
    intro live s live' s' h
    rw [visit] at h
    obtain ⟨_, s₁, hspend, h⟩ := use_bind h
    suffices hcontrol : Persists s₁ s' ∧ UseBounds scope s' (useControl e) (scope.futures live) (scope.set live') from
      ⟨(spend_ok hspend).trans hcontrol.1, bounds_eval hcontrol.2⟩
    have hsame (c : TypedExpr) (hc : c ∈ e.children) := hchild scope rfl c hc
    have hparts (parts : List TypedExpr) (hmem : ∀ c ∈ parts, c ∈ e.children) :=
      visits_parts fun c hc => hsame c (hmem c hc)
    cases hkind : e.kind
    all_goals simp only [useControl, hkind] at h ⊢
    case localVar id => exact visits_read hkind _ _ _ _ h
    case unary | cast | saturatingIndex | checked =>
        exact hsame _ (by simp [TypedExpr.children, hkind]) _ _ _ _ h
    case construct unionId caseId payload =>
        cases payload with
        | none => exact visits_pure _ _ _ _ h
        | some value => exact hsame _ (by simp [TypedExpr.children, hkind]) _ _ _ _ h
    case binary operator a b =>
        have ha := hsame a (by simp [TypedExpr.children, hkind])
        have hb := hsame b (by simp [TypedExpr.children, hkind])
        have hboth := hparts [a, b] (by simp [TypedExpr.children, hkind])
        cases operator
        case and | or => exact visits_shortCircuit ha hb _ _ _ _ h
        case pipe => exact visits_opaque _ _ _ _ h
        all_goals exact hboth _ _ _ _ h
    case call callee arguments | record fields | tuple | array | list | closure =>
        exact hparts _ (by simp [TypedExpr.children, hkind]) _ _ _ _ h
    case assign place value =>
        exact visits_seq (hsame value (by simp [TypedExpr.children, hkind])) visits_assign
          _ _ _ _ h
    case block bindings result =>
        refine visits_block (hsame result (by simp [TypedExpr.children, hkind])) ?_ _ _ _ _ h
        intro b hb
        exact hsame b.2 (by
          simp only [TypedExpr.children, hkind]
          exact mem_append_left _ (mem_map_of_mem hb))
    case ifElse condition thenBranch elseBranch =>
        exact visits_ifElse (hsame condition (by simp [TypedExpr.children, hkind]))
          (hsame thenBranch (by simp [TypedExpr.children, hkind]))
          (hsame elseBranch (by simp [TypedExpr.children, hkind])) _ _ _ _ h
    case whileDo condition body =>
        have hc : condition ∈ e.children := by simp [TypedExpr.children, hkind]
        have hb : body ∈ e.children := by simp [TypedExpr.children, hkind]
        refine visits_loop (fun exit head recording =>
          hchild (scope.inLoop exit head recording) rfl body hb) ?_ ?_ _ _ _ _ h
        · rintro exit head recording e' ⟨⟩
          exact hchild (scope.inLoop exit head recording) rfl condition hc
        · intro exit head recording s K live hbounds
          simpa using hbounds
    case forRange counter start step finish body descending exclusive =>
        have hb : body ∈ e.children := by simp [TypedExpr.children, hkind]
        have hloop := visits_for (fun exit head recording => hchild (scope.inLoop exit head recording) rfl body hb)
          (show ∀ id ∈ [counter.id], id = counter.id ∨ id ∈ scope.excluded by simp)
        exact visits_seq (hparts [start, step, finish] (by simp [TypedExpr.children, hkind])) hloop _ _ _ _ h
    case forEach owner item source body =>
        have hb : body ∈ e.children := by simp [TypedExpr.children, hkind]
        have howner : owner.id ∈ scope.excluded := hex e (.refl e) owner.id (by simp [exclusions, hkind])
        have hloop := visits_for (fun exit head recording => hchild (scope.inLoop exit head recording) rfl body hb)
          (show ∀ id ∈ [owner.id, item.id], id = item.id ∨ id ∈ scope.excluded by simp [howner])
        exact visits_seq visits_opaque (visits_store hloop) _ _ _ _ h
    case breakLoop =>
        cases hloops : scope.loops with
        | nil =>
          simp only [hloops] at h
          exact visits_leave id (by simp [Futures.at, UseScope.futures, hloops])
            _ _ _ _ h
        | cons context rest =>
          simp only [hloops] at h
          exact visits_leave (fun _ => context.exit) (by simp [Futures.at, UseScope.futures, hloops]) _ _ _ _ h
    case continueLoop =>
        cases hloops : scope.loops with
        | nil =>
          simp only [hloops] at h
          exact visits_leave id (by simp [Futures.at, UseScope.futures, hloops])
            _ _ _ _ h
        | cons context rest =>
          simp only [hloops] at h
          exact visits_leave (fun _ => context.head) (by simp [Futures.at, UseScope.futures, hloops]) _ _ _ _ h
    case matchWith subject value arms =>
        obtain ⟨-, hbodies, hbound⟩ := hex.matchArms hkind
        exact visits_match (fun recording arm harm => ih { scope with recording } _ (hbodies arm harm))
          (hsame value (by simp [TypedExpr.children, hkind])) hbound _ _ _ _ h
    all_goals first
      | exact visits_opaque _ _ _ _ h
      | exact visits_pure _ _ _ _ h

theorem excludeLoop_ok {budget budget' : Nat} {excluded' : Live}
    (h : excludeLoop budget pending excluded = some (excluded', budget')) :
    excluded ⊆ excluded' ∧ ∀ e room, (e, room) ∈ pending → Excludes excluded' e := by
  induction budget generalizing pending excluded with
  | zero =>
    match pending with
    | [] =>
      cases h
      exact ⟨fun _ h => h, by simp⟩
    | (_, 0) :: _ | (_, _ + 1) :: _ => cases h
  | succ budget ih =>
    match pending with
    | [] =>
      cases h
      exact ⟨fun _ h => h, by simp⟩
    | (_, 0) :: _ => cases h
    | (e, room + 1) :: pending =>
      rw [excludeLoop] at h
      obtain ⟨hsub, hrest⟩ := ih h
      refine ⟨Finset.subset_union_left.trans hsub, ?_⟩
      rintro e' room' hmem
      rcases mem_cons.mp hmem with heq | hmem
      · cases heq
        intro sub hwithin id hid
        cases hwithin with
        | refl => exact hsub (Finset.mem_union_right _ (mem_toFinset.mpr hid))
        | child hc hwithin =>
          exact hrest _ room (mem_append_left _ (by simpa using hc)) sub hwithin id hid
      · exact hrest e' room' (mem_append_right _ hmem)

/-- A read is needed before all that comes before it, up to a store. -/
theorem mem_before {mid post : List UseEvent} {event : UseEvent} (hreads : event.reads id) (hwrite : .write id ∉ mid)
    (hex : id ∉ scope.excluded) : id ∈ before (useAct scope) (mid ++ event :: post) x := by
  induction mid with
  | nil =>
    cases event with
    | read e' id' | look id' => exact .inl ⟨hreads.symm, by rwa [hreads]⟩
    | write id' => exact hreads.elim
  | cons ev mid ih =>
    obtain ⟨hne, hrest⟩ := not_or.mp (mt mem_cons.mpr hwrite)
    cases ev with
    | read e' id' | look id' => exact .inr (ih hrest)
    | write id' => exact ⟨ih hrest, fun heq => hne (by rw [heq])⟩

theorem movesLast_of_good {evs : List UseEvent} (hrecording : scope.recording = true)
    (hgood : Good (useAct scope) (useOk scope s) evs x) : MovesLast scope.types
      { reads := fun key => s.reads key == some true
        bindings := fun key => s.bindings key == some true } evs := by
  rintro pre e id mid event post rfl hreads hwrite ⟨hmoves, hcopy, hdrop⟩
  obtain ⟨-, ⟨hkind, hok⟩, -⟩ := good_append.mp hgood
  have hread : s.reads (spanKey e.span, id) = some true := by
    simpa [LastUses.movesRead, hkind, LastUses.movesReadAt] using hmoves
  have htracks : scope.tracks e.ty = true := by simp [UseScope.tracks, hcopy, hdrop]
  suffices hlater : id ∈ scope.excluded ∨ id ∈ before (useAct scope) (mid ++ event :: post) x by
    rw [hok hrecording htracks hlater] at hread
    cases hread
  by_cases hex : id ∈ scope.excluded
  · exact .inl hex
  · exact .inr (mem_before hreads hwrite hex)

/-- Where the analysis marks a binding of a match as moved, it takes its part out of a local that no path through the
arms reads before the local is stored into. -/
theorem visit_movesBinding {e value : TypedExpr} {subject : Local} (hkind : e.kind = .matchWith subject value arms)
    (hvalue : value.kind = .localVar id) (hex : Excludes scope.excluded e) (hrecording : scope.recording = true)
    (h : (visit (room + 1) scope e live).run s = some (live', s')) {binding : TypedMatchArm × Local}
    (hb : binding ∈ armBindings arms) (hmoved : s'.bindings (spanKey binding.2.span) = some true)
    {pre post : List UseEvent} {event : UseEvent} {o : Outcome}
    (hpath : Path useControl False (armsTask arms) (pre ++ event :: post) o) (hreads : event.reads id) :
    .write id ∈ pre := by
  obtain ⟨hsubject, hbodies, hbound⟩ := hex.matchArms hkind
  rw [visit] at h
  obtain ⟨_, s₁, -, h⟩ := use_bind h
  simp only [hkind, matchUses] at h
  obtain ⟨now, s₂, hget, h⟩ := use_bind h
  cases hget
  obtain ⟨fall, s₃, hgrow, h⟩ := use_bind h
  obtain ⟨entries, s₄, hround, h⟩ := use_bind h
  obtain ⟨_, s₅, hrecord, h⟩ := use_bind h
  simp only [hvalue] at h
  obtain ⟨rfl, rfl⟩ := use_pure h
  have howned := recordBindings_owned hrecording hrecord hb hmoved
  have hplace : value.isPlace = true := by
    cases value
    cases hvalue
    rfl
  simp only [ownsSubject, hplace, hvalue, Bool.not_true, Bool.false_or, Bool.and_eq_true, decide_eq_true_eq] at howned
  obtain ⟨hdead, htracked⟩ := howned
  obtain ⟨-, harms⟩ := visits_arms (fun recording arm harm =>
    visits_visit room { scope with recording } _ (hbodies arm harm)) hbound hgrow hround
  by_contra hwrite
  have hlive := (harms _ _ hpath).1 (mem_before hreads hwrite htracked)
  exact hdead (Finset.mem_erase.mpr ⟨fun heq => htracked (heq ▸ hsubject), hlive.1⟩)

end Bodies

/-- On every path without a jump out of the condition of a `while`, a marked read is the last one before the local is
stored into again. When the analysis gives up, nothing is marked. -/
theorem withBudget_movesLast (function : CheckedBody) (types : TypeFacts) (budget : Nat) :
    (∀ evs o, Path useControl False (.eval function.body) evs o →
      MovesLast types (withBudget function types budget) evs)
    ∧ (analyzeUses function types budget = none → ∀ e, (withBudget function types budget).movesRead e = false) := by
  cases hanalyze : analyzeUses function types budget with
  | none =>
    have hnone (e : TypedExpr) : (withBudget function types budget).movesRead e = false := by
      simp only [withBudget, hanalyze, LastUses.movesRead]
      split <;> rfl
    refine ⟨?_, fun _ => hnone⟩
    rintro evs o - pre e id mid event post - - - ⟨hmoves, -⟩
    rw [hnone e] at hmoves
    cases hmoves
  | some s =>
    refine ⟨fun evs o hpath => ?_, by simp⟩
    simp only [withBudget, hanalyze]
    simp only [analyzeUses, Option.bind_eq_bind] at hanalyze
    obtain ⟨⟨excluded, left⟩, hexclude, hanalyze⟩ := Option.bind_eq_some_iff.mp hanalyze
    obtain ⟨⟨live, s'⟩, hvisit, hs⟩ := Option.bind_eq_some_iff.mp hanalyze
    obtain rfl : s' = s := Option.some.inj hs
    obtain ⟨-, hex⟩ := excludeLoop_ok hexclude
    obtain ⟨-, hbounds⟩ := visits_visit _ _ _ (hex _ _ (mem_singleton.mpr rfl)) _ _ _ _ hvisit
    exact movesLast_of_good rfl (hbounds evs o hpath).2

def arrayFacts : TypeFacts where
  isCopy _ := true
  needsDrop
    | .array _ => true
    | _ => false
  hasUserDrop _ := false

def exprAt (start : Nat) (ty : Ty) (kind : TypedExprKind) : TypedExpr :=
  { kind, ty, span := { start, «end» := start + 1, source := none } }

def unitLocal (id : Nat) : Local :=
  { id, ty := .unit, name := "_", mutable := false, span := default, provenance := .generated }

/-- The array `xs`, read at a position. -/
def readArray (start : Nat) : TypedExpr := exprAt start (.array .i32) (.localVar 0)

def jumpCondition : TypedExpr :=
  exprAt 4 .bool (.block [(unitLocal 4, exprAt 5 .unit (.ifElse (exprAt 6 .bool (.localVar 1))
    (exprAt 7 .unit .breakLoop) (exprAt 8 .unit .unit)))] (exprAt 9 .bool (.bool false)))

def pairBody : CheckedBody where
  parameters := []
  captureCount := 0
  ownedCaptures := false
  body := exprAt 0 (.tuple [.array .i32, .array .i32]) (.tuple [readArray 1, readArray 2])

theorem withBudget_movesLast_pair :
    Path useControl False (.eval pairBody.body) [.read (readArray 1) 0, .read (readArray 2) 0] .done
      ∧ MovesLast arrayFacts (withBudget pairBody arrayFacts lastUseBudget)
        [.read (readArray 1) 0, .read (readArray 2) 0]
      ∧ TakenAt arrayFacts (withBudget pairBody arrayFacts lastUseBudget) (readArray 2) := by
  have hpath : Path useControl False (.eval pairBody.body)
      ([.read (readArray 1) 0] ++ ([.read (readArray 2) 0] ++ [])) .done :=
    .eval (.seq (.eval (.emit _)) (.seq (.eval (.emit _)) .skip))
  exact ⟨hpath, (withBudget_movesLast pairBody arrayFacts lastUseBudget).1 _ _ hpath, rfl, rfl, rfl⟩

/-- `xs; while ((if stop then break); false) do (); xs <- []` -/
def jumpRound : TypedExpr :=
  exprAt 3 .unit (.block [({ unitLocal 3 with ty := .array .i32 }, readArray 10),
      (unitLocal 5, exprAt 11 .unit (.whileDo jumpCondition (exprAt 12 .unit .unit)))]
    (exprAt 13 .unit (.assign (readArray 14) (exprAt 15 (.array .i32) (.array [])))))

def jumpLoop : TypedExpr := exprAt 1 .unit (.whileDo (exprAt 2 .bool (.bool true)) jumpRound)

/-- `while true do (..)` with this round, then `xs`. -/
def jumpBody : CheckedBody where
  parameters := []
  captureCount := 0
  ownedCaptures := false
  body := exprAt 0 (.array .i32) (.block [(unitLocal 2, jumpLoop)] (readArray 16))

/-- When the condition of the inner loop breaks, the outer loop ends before `xs` is stored into, and `xs` is read again
after the move. -/
theorem withBudget_conditionJump : ∃ evs, Path useControl True (.eval jumpBody.body) evs .done
      ∧ ¬ MovesLast arrayFacts (analyze jumpBody arrayFacts) evs := by
  let stop : UseEvent := .read (exprAt 6 .bool (.localVar 1)) 1
  have hcondition : Path useControl True (.eval jumpCondition) ([stop] ++ []) .breaks :=
    .eval (.seqLeave (.eval (.seq (.eval (.emit _)) (.left (.eval (.leave _))))) (by decide))
  have hround : Path useControl True (.eval jumpRound)
      ([.read (readArray 10) 0] ++ ([.write 3] ++ ([stop] ++ []))) .breaks :=
    .eval (.seq (.eval (.emit _)) (.seq (.emit _)
      (.seqLeave (.eval (.loopTest hcondition (by decide) (.inr trivial))) (by decide))))
  have hloop : Path useControl True (.eval jumpLoop)
      ([] ++ ([.read (readArray 10) 0] ++ ([.write 3] ++ ([stop] ++ [])))) .done :=
    .eval (.loopBreak (.eval .skip) hround)
  refine ⟨_, .eval (.seq hloop (.seq (.emit _) (.eval (.emit _)))), fun h => ?_⟩
  exact h [] (readArray 10) 0 [.write 3, stop, .write 2] (.read (readArray 16) 0) [] rfl rfl
    (by simp [stop]) ⟨rfl, rfl, rfl⟩

end Tsuzuri
