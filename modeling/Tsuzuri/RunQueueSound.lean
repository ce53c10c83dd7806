import Tsuzuri.RunQueue

/-!
# No G is lost or run twice

Every `G` that is not waiting is in one place: the slot `runnext` or the ring of one P, the global queue, or the
hands of one M.
-/

namespace Tsuzuri.RunQueue

open StealRing Counted List Option
open Function (update update_of_ne update_self)
open Ring (contents)
open Transition (RunWhen runWhen_of_any runActs tested sum_move)

variable {tail head n : Nat}

theorem gap_eq (h : head ≤ tail) (hlt : tail < head + 2 ^ 32) : gap tail head = tail - head := by
  unfold gap word
  rw [UInt32.toNat_sub, UInt32.toNat_ofNat', UInt32.toNat_ofNat']
  omega

theorem word_eq_iff {k : Nat} (h : head ≤ k) (hlt : k < head + 2 ^ 32) : word k = word head ↔ k = head := by
  rw [word, word, ← UInt32.toNat_inj, UInt32.toNat_ofNat', UInt32.toNat_ofNat']
  omega

theorem slot_word (k : Nat) : (word k % 256).toNat = k % runqSlots := by
  rw [UInt32.toNat_mod, word, UInt32.toNat_ofNat']
  exact Nat.mod_mod_of_dvd k (by decide)

namespace Runq

variable {G : Type} {q q' : Runq G}

@[simp] theorem load_eq (k : Nat) : q.load k = q.ring.item runqSlots k := by
  rw [load, slot_word]
  rfl

@[simp] theorem ring_store (k : Nat) (g : G) : (q.store k g).ring = q.ring.store runqSlots k g := by
  rw [store, slot_word]
  rfl

@[simp] theorem runnext_store (k : Nat) (g : G) : (q.store k g).runnext = q.runnext := rfl

theorem ring_publish (h : tail = q.ring.tail + n) : (q.publish tail).ring = q.ring.publish n := by
  subst h
  rfl

@[simp] theorem runnext_publish (tail : Nat) : (q.publish tail).runnext = q.runnext := rfl

theorem claim_eq_some (h : q.claim head n = some q') :
    word q.ring.head = word head ∧ q' = { q with ring := q.ring.advance n } := by
  unfold claim at h
  split at h
  · rename_i heq
    exact ⟨heq, (Option.some.inj h).symm⟩
  · cases h

theorem claim_eq_none (h : q.claim head n = none) : word q.ring.head ≠ word head := by
  unfold claim at h
  split at h
  · cases h
  · assumption

theorem takeNext_eq_some [DecidableEq G] {g : G} (h : q.takeNext g = some q') :
    q.runnext = some g ∧ q' = { q with runnext := none } := by
  unfold takeNext at h
  split at h
  · rename_i heq
    exact ⟨heq, (Option.some.inj h).symm⟩
  · cases h

def queued (q : Runq G) : List G := q.runnext.toList ++ q.ring.items runqSlots

end Runq

section Places

variable {G P M : Type}

def PutPc.hands : PutPc G → List G
  | .next g | .head g | .tail g _ | .store g _ | .publish g _ | .read g .. | .reload g => [g]

def KeepPc.hands : KeepPc G → List G
  | .tail batch => batch
  | .store g _ batch _ => g :: batch

def Pc.hands : Pc G P → List G
  | .put pc => pc.hands
  | .spill batch => batch
  | .keep pc => pc.hands
  | _ => []

@[simp] theorem Pc.hands_out : (Pc.out : Pc G P).hands = [] := rfl

def Next.hands : Next G P → List G
  | .goto pc => pc.hands
  | .found g => [g]

def Pc.Searches : Pc G P → Prop
  | .out | .put _ | .spill _ => False
  | _ => True

/-- What the owner of `r` knows of it. -/
def PutPc.Knows (r : Counted G) : PutPc G → Prop
  | .next _ | .head _ => True
  | .tail _ h => h ≤ r.head ∧ r.tail ≤ h + runqSlots
  | .store _ t => r.tail = t ∧ t < r.head + runqSlots
  | .publish g t => r.tail = t ∧ t < r.head + runqSlots ∧ r.item runqSlots t = g
  | .read _ h t batch => r.tail = t ∧ t = h + runqSlots ∧ r.Snapshot runqSlots h (runqSlots / 2) batch
  | .reload _ => r.tail < r.head + runqSlots

def GetPc.Knows (r : Counted G) : GetPc G → Prop
  | .next | .take _ | .head => True
  | .tail h => h ≤ r.head ∧ r.tail ≤ h + runqSlots
  | .slot h => h ≤ r.head ∧ r.tail ≤ h + runqSlots ∧ h < r.tail
  | .claim h g => r.tail ≤ h + runqSlots ∧ r.Snapshot runqSlots h 1 [g]
  | .last | .lastTake _ => r.head = r.tail

def StealPc.Knows (r : Counted G) : StealPc G → Prop
  | .head | .next | .take _ => True
  | .tail h => h ≤ r.head
  | .read h n batch => 0 < n ∧ n ≤ runqSlots / 2 ∧ r.Snapshot runqSlots h n batch

def KeepPc.Knows (r : Counted G) : KeepPc G → Prop
  | .tail batch => r.head = r.tail ∧ batch ≠ [] ∧ batch.length ≤ runqSlots / 2
  | .store _ t batch stored => r.head = r.tail ∧ r.tail = t ∧ batch.length ≤ runqSlots / 2 ∧
      stored ≤ batch.length ∧ contents r.slots runqSlots t stored = batch.take stored

/-- The M on `p` takes several `G`s off the global queue, and steals, with an empty ring only. -/
def Pc.Knows (rings : P → Counted G) (p : P) : Pc G P → Prop
  | .out | .spill _ => True
  | .put pc => pc.Knows (rings p)
  | .get pc => pc.Knows (rings p)
  | .size max | .global max => max = 1 ∨ max = 0 ∧ (rings p).head = (rings p).tail
  | .search => (rings p).head = (rings p).tail
  | .steal victim _ pc => victim ≠ p ∧ (rings p).head = (rings p).tail ∧ pc.Knows (rings victim)
  | .keep pc => pc.Knows (rings p)

def Next.Knows (rings : P → Counted G) (p : P) : Next G P → Prop
  | .goto pc => pc.Knows rings p
  | .found _ => True

variable {rings : P → Counted G} {p : P}

theorem Pc.knows_put {pc : PutPc G} : (Pc.put pc).Knows rings p ↔ pc.Knows (rings p) := .rfl
theorem Pc.knows_get {pc : GetPc G} : (Pc.get pc).Knows rings p ↔ pc.Knows (rings p) := .rfl

variable {r r' : Counted G}

theorem PutPc.Knows.popped {pc : PutPc G} (h : pc.Knows r) (hp : r.Popped r') : pc.Knows r' := by
  have hhead := hp.head
  have htail := hp.tail
  cases pc with
  | next g => trivial
  | head g => trivial
  | tail g head => exact ⟨h.1.trans hhead, htail.trans_le h.2⟩
  | store g tail => exact ⟨htail.trans h.1, h.2.trans_le (Nat.add_le_add_right hhead _)⟩
  | publish g tail =>
    refine ⟨htail.trans h.1, h.2.1.trans_le (Nat.add_le_add_right hhead _), ?_⟩
    exact (congrFun hp.slots _).trans h.2.2
  | read g head tail batch => exact ⟨htail.trans h.1, h.2.1, h.2.2.evolves hp.evolves⟩
  | reload g =>
    have hroom : r.tail < r.head + runqSlots := h
    exact htail.trans_lt (hroom.trans_le (Nat.add_le_add_right hhead _))

theorem empty_popped (h : r.head = r.tail) (hp : r.Popped r') : r'.head = r'.tail := by
  have := hp.head
  have := hp.tail
  have := hp.le
  omega

theorem GetPc.Knows.popped {pc : GetPc G} (h : pc.Knows r) (hp : r.Popped r') : pc.Knows r' := by
  have hhead := hp.head
  have htail := hp.tail
  cases pc with
  | next => trivial
  | take g => trivial
  | head => trivial
  | tail head => exact ⟨h.1.trans hhead, htail.trans_le h.2⟩
  | slot head => exact ⟨h.1.trans hhead, htail.trans_le h.2.1, h.2.2.trans_eq htail.symm⟩
  | claim head g => exact ⟨htail.trans_le h.1, h.2.evolves hp.evolves⟩
  | last | lastTake g => exact empty_popped (r := r) h hp

theorem StealPc.Knows.evolves {pc : StealPc G} (h : pc.Knows r) (he : r.Evolves runqSlots r') : pc.Knows r' := by
  cases pc with
  | tail head => exact Nat.le_trans h he.head
  | read head n batch => exact ⟨h.1, h.2.1, h.2.2.evolves he⟩
  | _ => trivial

theorem KeepPc.Knows.popped {pc : KeepPc G} (h : pc.Knows r) (hp : r.Popped r') : pc.Knows r' := by
  cases pc with
  | tail batch => exact ⟨empty_popped h.1 hp, h.2⟩
  | store g tail batch stored =>
    refine ⟨empty_popped h.1 hp, hp.tail.trans h.2.1, h.2.2.1, h.2.2.2.1, ?_⟩
    rw [hp.slots]
    exact h.2.2.2.2

theorem Pc.Knows.stable {rings rings' : P → Counted G} {pc : Pc G P} (h : pc.Knows rings p)
    (hown : (rings p).Popped (rings' p)) (hall : ∀ p', (rings p').Evolves runqSlots (rings' p')) :
    pc.Knows rings' p := by
  cases pc with
  | out => trivial
  | put pc => exact @PutPc.Knows.popped _ _ _ pc h hown
  | spill batch => trivial
  | get pc => exact @GetPc.Knows.popped _ _ _ pc h hown
  | size max | global max => exact Or.imp_right (And.imp_right (empty_popped · hown)) h
  | search => exact empty_popped (r := rings p) h hown
  | steal victim stealNext pc => exact ⟨h.1, empty_popped h.2.1 hown, h.2.2.evolves (hall victim)⟩
  | keep pc => exact @KeepPc.Knows.popped _ _ _ pc h hown

end Places

variable {ok : Bool}

section Queue

variable {G P : Type} [DecidableEq G]

/-- A step at the queue `q`, of an M that has `before` in its hands and then `after`. -/
structure Kept (q q' : Runq G) (before after : List G) : Prop where
  bounded : q'.ring.Bounded runqSlots
  evolves : q.ring.Evolves runqSlots q'.ring
  moved : ∀ g, q'.queued.count g + after.count g = q.queued.count g + before.count g

variable {q q' : Runq G}

theorem Kept.refl (hb : q.ring.Bounded runqSlots) {hands : List G} : Kept q q hands hands :=
  ⟨hb, .refl, fun _ => rfl⟩

theorem Kept.of_ring (q' : Runq G) (hb : q.ring.Bounded runqSlots) (hring : q'.ring = q.ring) {before after : List G}
    (h : ∀ g, q'.runnext.toList.count g + after.count g = q.runnext.toList.count g + before.count g) :
    Kept q q' before after := by
  refine ⟨hring ▸ hb, hring ▸ .refl, fun g => ?_⟩
  have := h g
  simp only [Runq.queued, count_append, hring]
  omega

section

variable (hb : q.ring.Bounded runqSlots)

include hb

theorem kept_store {k : Nat} {g : G} (hk : q.ring.tail ≤ k) (hroom : k < q.ring.head + runqSlots)
    {hands : List G} : Kept q (q.store k g) hands hands := by
  refine ⟨⟨?_, ?_⟩, ?_, fun x => ?_⟩
  · rw [Runq.ring_store]
    exact hb.le
  · rw [Runq.ring_store]
    exact hb.room
  · rw [Runq.ring_store]
    exact evolves_store hk hroom
  · rw [Runq.queued, Runq.ring_store, items_store hb.le hk hroom]
    rfl

theorem kept_publish {tail : Nat} (htail : tail = q.ring.tail + n) (hroom : tail ≤ q.ring.head + runqSlots)
    {before after batch : List G} (hbatch : contents q.ring.slots runqSlots q.ring.tail n = batch)
    (h : ∀ g, batch.count g + after.count g = before.count g) : Kept q (q.publish tail) before after := by
  have hring := Runq.ring_publish htail
  subst htail
  refine ⟨⟨?_, ?_⟩, ?_, fun g => ?_⟩
  · rw [hring]
    exact hb.le.trans (Nat.le_add_right ..)
  · rw [hring]
    exact hroom
  · rw [hring]
    exact evolves_publish
  · have := h g
    rw [Runq.queued, hring, items_publish hb.le, hbatch]
    simp only [Runq.queued, Runq.runnext_publish, count_append]
    omega

theorem kept_claim {h : Nat} {batch before after : List G} (hsnap : q.ring.Snapshot runqSlots h n batch)
    (hlen : batch.length = n) (hhead : q.ring.head = h) (hhands : ∀ g, after.count g = before.count g + batch.count g) :
    q.ring.Popped (q.ring.advance n) ∧ Kept q { q with ring := q.ring.advance n } before after := by
  obtain ⟨hle, hitems⟩ := hsnap.claim hlen hhead
  have hpop := popped_advance hle
  refine ⟨hpop, hpop.bounded hb, hpop.evolves, fun g => ?_⟩
  have := hhands g
  simp only [Runq.queued, count_append, hitems]
  omega

theorem kept_takeNext {g : G} (hnext : q.runnext = some g) (hring : q'.ring = q.ring)
    (hnone : q'.runnext = none) : Kept q q' [] [g] :=
  .of_ring q' hb hring fun x => by simp [hnext, hnone]

theorem runqput_kept {pc : PutPc G} (hk : pc.Knows q.ring) :
    Kept q (runqput (P := P) q pc).1 pc.hands (runqput (P := P) q pc).2.hands := by
  cases pc with
  | next g =>
    refine .of_ring { q with runnext := some g } hb rfl fun x => ?_
    simp only [runqput]
    cases q.runnext with
    | none => simp [Next.hands, Pc.hands, PutPc.hands]
    | some old =>
      simp only [Next.hands, Pc.hands, PutPc.hands, toList_some]
      omega
  | head g => exact .refl hb
  | tail g h =>
    simp only [runqput]
    split <;> exact .refl hb
  | store g t => exact kept_store hb hk.1.le hk.2
  | publish g t =>
    obtain ⟨rfl, hroom, hitem⟩ := hk
    exact kept_publish (n := 1) hb rfl hroom (contents_one.trans (congrArg (fun g => [g]) hitem)) fun _ => rfl
  | read g h t batch =>
    obtain ⟨htail, rfl, hsnap⟩ := hk
    have hgap : gap (h + runqSlots) h / 2 = runqSlots / 2 := by
      rw [gap_eq (Nat.le_add_right ..) (by unfold runqSlots; omega), Nat.add_sub_cancel_left]
    simp only [runqput, hgap]
    split
    · exact .refl hb
    · rename_i hfull
      split
      · rename_i q' hclaim
        obtain ⟨hword, rfl⟩ := Runq.claim_eq_some hclaim
        have hhead := (word_eq_iff hsnap.old (by have := hb.le; unfold runqSlots at htail; omega)).mp hword
        refine (kept_claim hb hsnap (le_antisymm hsnap.short (not_lt.mp hfull)) hhead fun x => ?_).2
        simp only [Next.hands, Pc.hands, PutPc.hands, count_append]
        omega
      · exact .refl hb
  | reload g => exact .refl hb

end

omit [DecidableEq G] in
theorem runqput_next {pc : PutPc G} (hb : q.ring.Bounded runqSlots) (hk : pc.Knows q.ring) :
    ∃ pc' : Pc G P, (runqput q pc).2 = .goto pc' ∧ ¬pc'.Searches ∧
      ∀ (rings : P → Counted G) (p : P), rings p = (runqput (P := P) q pc).1.ring → pc'.Knows rings p := by
  cases pc with
  | next g =>
    simp only [runqput]
    cases q.runnext with
    | none => exact ⟨.out, rfl, id, fun _ _ _ => trivial⟩
    | some old => exact ⟨.put (.head old), rfl, id, fun _ _ _ => trivial⟩
  | head g =>
    refine ⟨_, rfl, id, fun rings p hring => ?_⟩
    rw [Pc.knows_put, hring]
    exact ⟨le_rfl, hb.room⟩
  | tail g h =>
    obtain ⟨hold, hroom⟩ := hk
    have hgap : gap q.ring.tail h = q.ring.tail - h :=
      gap_eq (hold.trans hb.le) (by unfold runqSlots at hroom; omega)
    refine ⟨_, rfl, id, fun rings p hring => ?_⟩
    rw [Pc.knows_put, hring, hgap]
    change PutPc.Knows q.ring _
    have := hb.le
    split
    · exact ⟨rfl, by omega⟩
    · exact ⟨rfl, by omega, .start hold fun _ => by unfold runqSlots at *; omega⟩
  | store g t =>
    obtain ⟨htail, hroom⟩ := hk
    refine ⟨_, rfl, id, fun rings p hring => ?_⟩
    rw [Pc.knows_put, hring]
    change PutPc.Knows (q.store t g).ring _
    rw [Runq.ring_store]
    exact ⟨htail, hroom, item_store⟩
  | publish g t => exact ⟨.out, rfl, id, fun _ _ _ => trivial⟩
  | read g h t batch =>
    obtain ⟨htail, rfl, hsnap⟩ := hk
    have hgap : gap (h + runqSlots) h / 2 = runqSlots / 2 := by
      rw [gap_eq (Nat.le_add_right ..) (by unfold runqSlots; omega), Nat.add_sub_cancel_left]
    simp only [runqput, hgap]
    split
    · rename_i hlt
      refine ⟨_, rfl, id, fun rings p hring => ?_⟩
      rw [Pc.knows_put, hring, Runq.load_eq]
      exact ⟨htail, rfl, hsnap.read hlt⟩
    · split
      · exact ⟨_, rfl, id, fun _ _ _ => trivial⟩
      · rename_i hclaim
        have hne := mt (congrArg word) (Runq.claim_eq_none hclaim)
        refine ⟨_, rfl, id, fun rings p hring => ?_⟩
        rw [Pc.knows_put, hring]
        have := hsnap.old
        exact show q.ring.tail < q.ring.head + runqSlots by omega
  | reload g =>
    refine ⟨_, rfl, id, fun rings p hring => ?_⟩
    rw [Pc.knows_put, hring]
    exact ⟨rfl, hk⟩

theorem runqget_kept {pc : GetPc G} (hb : q.ring.Bounded runqSlots) (hk : pc.Knows q.ring) :
    Kept q (runqget (P := P) q ok pc).1 [] (runqget (P := P) q ok pc).2.hands := by
  have hreset : Kept q { q with streak := 0 } [] [] :=
    .of_ring { q with streak := 0 } hb rfl fun _ => rfl
  cases pc with
  | next =>
    simp only [runqget]
    split
    · split
      · exact .refl hb
      · exact hreset
    · exact hreset
  | take g =>
    simp only [runqget]
    split
    · rename_i q' htake
      obtain ⟨hnext, rfl⟩ := Runq.takeNext_eq_some htake
      exact kept_takeNext hb hnext rfl rfl
    · exact hreset
  | claim h g =>
    obtain ⟨hroom, hsnap⟩ := hk
    simp only [runqget]
    split
    · rename_i q' hclaim
      have hclaim : q.claim h 1 = some q' := by
        cases ok with
        | true => exact hclaim
        | false => cases hclaim
      obtain ⟨hword, rfl⟩ := Runq.claim_eq_some hclaim
      have hhead := (word_eq_iff hsnap.old (by have := hb.le; unfold runqSlots at hroom; omega)).mp hword
      exact (kept_claim hb hsnap rfl hhead fun _ => (Nat.zero_add _).symm).2
    · exact .refl hb
  | lastTake g =>
    simp only [runqget]
    split
    · rename_i q' htake
      obtain ⟨hnext, rfl⟩ := Runq.takeNext_eq_some htake
      exact kept_takeNext hb hnext rfl rfl
    · exact .refl hb
  | last =>
    simp only [runqget]
    split <;> exact .refl hb
  | tail h | head | slot h => exact .refl hb

variable {p : P}

theorem runqget_next {pc : GetPc G} (hb : q.ring.Bounded runqSlots) (hk : pc.Knows q.ring)
    {rings : P → Counted G} (hring : rings p = (runqget (P := P) q ok pc).1.ring) :
    (runqget q ok pc).2.Knows rings p := by
  cases pc with
  | next =>
    simp only [runqget] at hring ⊢
    split
    · split <;> trivial
    · trivial
  | take g =>
    simp only [runqget] at hring ⊢
    split <;> trivial
  | head =>
    simp only [runqget, Next.Knows, Pc.knows_get] at hring ⊢
    rw [hring]
    exact ⟨le_rfl, hb.room⟩
  | tail h =>
    obtain ⟨hold, hroom⟩ := hk
    have hword := word_eq_iff (hold.trans hb.le) (by unfold runqSlots at hroom; omega)
    simp only [runqget, Next.Knows, Pc.knows_get] at hring ⊢
    rw [hring]
    have := hb.le
    split
    · rename_i heq
      exact show q.ring.head = q.ring.tail by have := hword.mp heq; omega
    · rename_i hne
      have := mt hword.mpr hne
      exact ⟨hold, hroom, show h < q.ring.tail by omega⟩
  | slot h =>
    obtain ⟨hold, hroom, hlt⟩ := hk
    simp only [runqget, Next.Knows, Pc.knows_get, Runq.load_eq] at hring ⊢
    rw [hring]
    exact ⟨hroom, (Snapshot.start hold fun _ => hlt).read Nat.one_pos⟩
  | claim h g =>
    simp only [runqget] at hring ⊢
    split <;> trivial
  | last =>
    simp only [runqget] at hring ⊢
    have hempty : (rings p).head = (rings p).tail := by
      rw [hring]
      split <;> exact hk
    split
    · exact hempty
    · exact .inr ⟨rfl, hempty⟩
  | lastTake g =>
    simp only [runqget] at hring ⊢
    split
    · trivial
    · rename_i hnone
      refine .inr ⟨rfl, ?_⟩
      rw [hring, hnone]
      exact hk

/-! ### `tzr_runqsteal` -/

section Steal

variable {victim : P} {stealNext : Bool}

theorem runqsteal_kept (victim : P) (stealNext ok : Bool) {pc : StealPc G} (hb : q.ring.Bounded runqSlots)
    (hk : pc.Knows q.ring) (hprompt : ∀ h n batch, pc = .read h n batch → q.ring.head < h + 2 ^ 32) :
    q.ring.Popped (runqsteal victim stealNext q ok pc).1.ring ∧
      Kept q (runqsteal victim stealNext q ok pc).1 [] (runqsteal victim stealNext q ok pc).2.hands := by
  have hsame : q.ring.Popped q.ring ∧ Kept q q [] [] := ⟨.refl hb.le, .refl hb⟩
  cases pc with
  | head => exact hsame
  | tail h =>
    simp only [runqsteal]
    split
    · split <;> exact hsame
    · split <;> exact hsame
  | next =>
    simp only [runqsteal]
    split <;> exact hsame
  | take g =>
    simp only [runqsteal]
    split
    · rename_i q' htake
      obtain ⟨hnext, rfl⟩ := Runq.takeNext_eq_some htake
      exact ⟨.refl hb.le, kept_takeNext hb hnext rfl rfl⟩
    · exact hsame
  | read h n batch =>
    obtain ⟨hpos, -, hsnap⟩ := hk
    simp only [runqsteal]
    split
    · exact hsame
    · rename_i hfull
      split
      · rename_i q' hclaim
        have hclaim : q.claim h n = some q' := by
          cases ok with
          | true => exact hclaim
          | false => cases hclaim
        obtain ⟨hword, rfl⟩ := Runq.claim_eq_some hclaim
        have hhead := (word_eq_iff hsnap.old (hprompt h n batch rfl)).mp hword
        exact kept_claim hb hsnap (le_antisymm hsnap.short (not_lt.mp hfull)) hhead fun _ => (Nat.zero_add _).symm
      · exact hsame

theorem runqsteal_next {pc : StealPc G} (hb : q.ring.Bounded runqSlots) (hk : pc.Knows q.ring)
    (hprompt : ∀ h, pc = .tail h → q.ring.head < h + 2 ^ 32) {rings : P → Counted G}
    (hring : rings victim = (runqsteal victim stealNext q ok pc).1.ring) (hne : victim ≠ p)
    (hempty : (rings p).head = (rings p).tail) : (runqsteal victim stealNext q ok pc).2.Knows rings p := by
  cases pc with
  | head =>
    refine ⟨hne, hempty, ?_⟩
    rw [hring]
    exact le_rfl
  | tail h =>
    have hold : h ≤ q.ring.head := hk
    have hroom := hb.room
    -- the head has moved by less than 2^32 since it was read, and the difference of the low bits is right if
    -- it has not moved at all
    have hgap : q.ring.head = h → gap q.ring.tail h = q.ring.tail - h := fun hhead =>
      gap_eq (hold.trans hb.le) (by unfold runqSlots at hroom; omega)
    simp only [runqsteal] at hring ⊢
    split
    · split
      · exact ⟨hne, hempty, trivial⟩
      · exact hempty
    · rename_i hpos
      split
      · exact ⟨hne, hempty, trivial⟩
      · rename_i hhalf
        have hsnap : q.ring.Snapshot runqSlots h (gap q.ring.tail h - gap q.ring.tail h / 2) [] :=
          .start hold fun hhead => by
            have := hgap hhead
            have := hb.le
            omega
        refine ⟨hne, hempty, Nat.pos_of_ne_zero hpos, not_lt.mp hhalf, ?_⟩
        rw [hring, if_neg hpos, if_neg hhalf]
        exact hsnap
  | next =>
    simp only [runqsteal] at hring ⊢
    split
    · exact ⟨hne, hempty, trivial⟩
    · exact hempty
  | take g =>
    simp only [runqsteal] at hring ⊢
    split
    · trivial
    · exact hempty
  | read h n batch =>
    obtain ⟨hpos, hhalf, hsnap⟩ := hk
    simp only [runqsteal] at hring ⊢
    split
    · rename_i hlt
      refine ⟨hne, hempty, hpos, hhalf, ?_⟩
      rw [hring, if_pos hlt, Runq.load_eq]
      exact hsnap.read hlt
    · rename_i hfull
      have hlen := le_antisymm hsnap.short (not_lt.mp hfull)
      split
      · refine ⟨hempty, ?_, hlen.trans_le hhalf⟩
        rintro rfl
        exact absurd hlen hpos.ne
      · exact ⟨hne, hempty, trivial⟩

end Steal

theorem runqkeep_kept {pc : KeepPc G} (hb : q.ring.Bounded runqSlots) (hk : pc.Knows q.ring) :
    Kept q (runqkeep (P := P) q pc).1 pc.hands (runqkeep (P := P) q pc).2.hands := by
  cases pc with
  | tail batch =>
    obtain ⟨-, hne, -⟩ := hk
    obtain ⟨rest, g, rfl⟩ := (eq_nil_or_concat' batch).resolve_left hne
    simp only [runqkeep, getLast?_concat, dropLast_concat]
    refine .of_ring q hb rfl fun x => ?_
    split
    · rename_i hrest
      simp [Next.hands, KeepPc.hands, hrest]
    · simp only [Next.hands, Pc.hands, KeepPc.hands, count_append, count_cons, count_nil]
      omega
  | store g t batch stored =>
    obtain ⟨hempty, rfl, hlen, hstored, hcontents⟩ := hk
    simp only [runqkeep]
    split
    · rename_i more hmore
      obtain ⟨hlt, -⟩ := List.getElem?_eq_some_iff.mp hmore
      exact kept_store hb (Nat.le_add_right ..) (by unfold runqSlots at *; omega)
    · rename_i hnone
      obtain rfl : stored = batch.length := le_antisymm hstored (getElem?_eq_none_iff.mp hnone)
      rw [take_length] at hcontents
      refine kept_publish hb rfl (by unfold runqSlots at *; omega) hcontents fun x => ?_
      simp only [Next.hands, KeepPc.hands, count_cons, count_nil]
      omega

omit [DecidableEq G] in
theorem runqkeep_next {pc : KeepPc G} (hk : pc.Knows q.ring) {rings : P → Counted G}
    (hring : rings p = (runqkeep (P := P) q pc).1.ring) : (runqkeep q pc).2.Knows rings p := by
  cases pc with
  | tail batch =>
    obtain ⟨hempty, hne, hlen⟩ := hk
    obtain ⟨rest, g, rfl⟩ := (eq_nil_or_concat' batch).resolve_left hne
    simp only [runqkeep, getLast?_concat, dropLast_concat] at hring ⊢
    split
    · trivial
    · rw [length_append, length_singleton] at hlen
      refine ⟨?_, ?_, by omega, Nat.zero_le _, rfl⟩
      · rw [hring]
        exact hempty
      · rw [hring]
  | store g t batch stored =>
    obtain ⟨hempty, rfl, hlen, hstored, hcontents⟩ := hk
    simp only [runqkeep] at hring ⊢
    split
    · rename_i more hmore
      obtain ⟨hlt, hget⟩ := List.getElem?_eq_some_iff.mp hmore
      rw [hmore] at hring
      refine ⟨?_, ?_, hlen, hlt, ?_⟩
      · rw [hring, Runq.ring_store]
        exact hempty
      · rw [hring, Runq.ring_store]
        rfl
      · rw [hring, Runq.ring_store, Ring.contents_add, take_succ_eq_append_getElem hlt, hget, ← hcontents]
        refine congrArg₂ (· ++ ·) (contents_of_kept fun k hk hkn => ?_) (congrArg (fun g => [g]) item_store)
        exact item_store_of_ne (by omega) hkn (by unfold runqSlots at *; omega)
    · trivial

theorem runqputLocked_kept {g : G} (hb : q.ring.Bounded runqSlots) (hroom : q.ring.tail < q.ring.head + runqSlots) :
    ∃ q', runqputLocked q g = (q', []) ∧ Kept q q' [g] [] ∧ q'.ring.head = q.ring.head ∧
      q'.ring.tail = q.ring.tail + 1 := by
  have hgap : gap q.ring.tail q.ring.head < runqSlots := by
    have := hb.le
    rw [gap_eq this (by unfold runqSlots at hroom; omega)]
    omega
  have hstore : Kept q (q.store q.ring.tail g) [g] [g] := kept_store hb le_rfl hroom
  have hring := Runq.ring_store (q := q) q.ring.tail g
  have htail : q.ring.tail = (q.store q.ring.tail g).ring.tail := by rw [hring]; rfl
  have hpublish : Kept (q.store q.ring.tail g) ((q.store q.ring.tail g).publish (q.ring.tail + 1)) [g] [] := by
    have hbatch : contents (q.store q.ring.tail g).ring.slots runqSlots (q.store q.ring.tail g).ring.tail 1 = [g] := by
      rw [contents_one, ← htail, hring, item_store]
    refine kept_publish hstore.bounded (congrArg (· + 1) htail) ?_ hbatch fun _ => rfl
    rw [hring]
    exact hroom
  have hhead : ((q.store q.ring.tail g).publish (q.ring.tail + 1)).ring.head = q.ring.head := rfl
  refine ⟨_, if_pos hgap, ⟨hpublish.bounded, hstore.evolves.trans rfl hpublish.evolves, fun x => ?_⟩, hhead, rfl⟩
  have := hpublish.moved x
  have := hstore.moved x
  omega

theorem globrunqmore_kept (n : Nat) : ∀ (global : List G) {q : Runq G}, q.ring.Bounded runqSlots →
    n ≤ global.length → q.ring.tail + n ≤ q.ring.head + runqSlots →
    ∃ global' q', globrunqmore n global q = (global', q', []) ∧
      global'.length = global.length - n ∧ Kept q q' global global' := by
  induction n with
  | zero => exact fun _ _ hb _ _ => ⟨_, _, rfl, rfl, .refl hb⟩
  | succ n ih =>
    intro global q hb hlen hroom
    obtain ⟨more, global, rfl⟩ := exists_cons_of_length_pos (Nat.zero_lt_of_lt hlen)
    obtain ⟨q₁, hput, hkept, hhead, htail⟩ := runqputLocked_kept (g := more) hb (by omega)
    rw [length_cons] at hlen
    obtain ⟨global', q', hmore, hlen', hkept'⟩ := ih global hkept.bounded (by omega) (by omega)
    refine ⟨global', q', ?_, by rw [hlen', length_cons]; omega, hkept'.bounded,
      hkept.evolves.trans hhead hkept'.evolves, fun x => ?_⟩
    · simp only [globrunqmore, hput, hmore, append_nil]
    · have hmoved := hkept.moved x
      have hmoved' := hkept'.moved x
      simp only [count_cons, count_nil] at hmoved ⊢
      omega

theorem globrunqCount_spec (nprocs : Nat) (max : Int) (hn : 0 < n) :
    ∃ k : Nat, globrunqCount nprocs n max = k + 1 ∧ k < n ∧ k < runqSlots / 2 ∧ (max = 1 → k = 0) := by
  have hdiv : 0 ≤ (n : Int).tdiv nprocs := Int.tdiv_nonneg (Int.natCast_nonneg _) (Int.natCast_nonneg _)
  have hhalf : ((runqSlots / 2 : Nat) : Int) = 128 := rfl
  have hslots : runqSlots / 2 = 128 := rfl
  generalize hd : (n : Int).tdiv nprocs = d at hdiv
  have hcount : 1 ≤ globrunqCount nprocs n max ∧ globrunqCount nprocs n max ≤ n ∧ globrunqCount nprocs n max ≤ 128 ∧
      (max = 1 → globrunqCount nprocs n max = 1) := by
    simp only [globrunqCount, hd, hhalf]
    split_ifs <;> omega
  refine ⟨(globrunqCount nprocs n max - 1).toNat, ?_⟩
  omega

end Queue

/-! ## The system -/

section System

variable {G P M : Type} [DecidableEq G]

def State.rings (s : State G P M) (p : P) : Counted G := (s.runq p).ring

/-- The `G` that an M runs, and those that it has taken off the queues or is to put on one. -/
def State.hands (s : State G P M) (m : M) : List G := (s.curg m).toList ++ (s.pc m).hands

def State.places [Fintype P] [Fintype M] (s : State G P M) (g : G) : Nat :=
  ∑ p, (s.runq p).queued.count g + s.global.count g + ∑ m, (s.hands m).count g

def State.waits (s : State G P M) (g : G) : Nat := if s.waiting g then 1 else 0

def State.withQueues [DecidableEq P] (s : State G P M) (p : P) (q : Runq G) (global : List G) (size : Int) :
    State G P M :=
  { s.setRunq p q with global := global, size := size }

structure Inv [Fintype P] [Fintype M] (s : State G P M) : Prop where
  bounded : ∀ p, (s.rings p).Bounded runqSlots
  size : s.size = s.global.length
  places : ∀ g, s.places g + s.waits g = 1
  single : ∀ m m' p, s.has m = some p → s.has m' = some p → m = m'
  owner : ∀ m, s.pc m ≠ .out → s.has m ≠ none
  idle : ∀ m, (s.pc m).Searches → s.curg m = none
  knows : ∀ m p, s.has m = some p → (s.pc m).Knows s.rings p

variable [DecidableEq P] [DecidableEq M] [Fintype P] [Fintype M] {s t : State G P M}

structure Moves (s t : State G P M) (m : M) : Prop where
  has : t.has = s.has
  pc : ∀ x, x ≠ m → t.pc x = s.pc x
  curg : ∀ x, x ≠ m → t.curg x = s.curg x
  bounded : ∀ p, (t.rings p).Bounded runqSlots
  evolves : ∀ p, (s.rings p).Evolves runqSlots (t.rings p)
  popped : ∀ p, s.has m ≠ some p → (s.rings p).Popped (t.rings p)
  size : t.size = t.global.length
  places : ∀ g, ∑ p, (t.runq p).queued.count g + t.global.count g + (t.hands m).count g + t.waits g =
    ∑ p, (s.runq p).queued.count g + s.global.count g + (s.hands m).count g + s.waits g

structure Fits (t : State G P M) (m : M) : Prop where
  owner : t.pc m ≠ .out → t.has m ≠ none
  idle : (t.pc m).Searches → t.curg m = none
  knows : ∀ p, t.has m = some p → (t.pc m).Knows t.rings p

variable {m : M} {p : P}

omit [DecidableEq P] in
theorem Inv.moves (h : Inv s) (hmove : Moves s t m) (hfits : Fits t m) : Inv t where
  bounded := hmove.bounded
  size := hmove.size
  places g := by
    have hothers : ∀ x, x ≠ m → (t.hands x).count g = (s.hands x).count g := fun x hx => by
      rw [State.hands, State.hands, hmove.pc x hx, hmove.curg x hx]
    have hsum := sum_move m hothers
    have hplaces := hmove.places g
    have := h.places g
    unfold State.places at this ⊢
    omega
  single := hmove.has ▸ h.single
  owner x := by
    by_cases hx : x = m
    · exact hx ▸ hfits.owner
    · rw [hmove.pc x hx, hmove.has]
      exact h.owner x
  idle x := by
    by_cases hx : x = m
    · exact hx ▸ hfits.idle
    · rw [hmove.pc x hx, hmove.curg x hx]
      exact h.idle x
  knows x p hhas := by
    by_cases hx : x = m
    · subst hx
      exact hfits.knows p hhas
    · rw [hmove.pc x hx]
      rw [hmove.has] at hhas
      refine (h.knows x p hhas).stable (hmove.popped p fun hm => hx (h.single x m p hhas hm)) hmove.evolves

variable {q : Runq G} {size : Int} {next : Next G P}

omit [DecidableEq G] [DecidableEq M] [Fintype P] [Fintype M] in
theorem rings_withQueues {global : List G} : (s.withQueues p q global size).rings = update s.rings p q.ring := by
  funext x
  by_cases hx : x = p
  · subst hx
    simp [State.rings, State.withQueues, State.setRunq]
  · simp [State.rings, State.withQueues, State.setRunq, update_of_ne hx]

omit [DecidableEq G] [DecidableEq P] [Fintype P] [Fintype M] in
theorem rings_next : (s.next m next).rings = s.rings := by
  cases next <;> rfl

structure Stepped (s t : State G P M) : Prop where
  inv : Inv t
  evolves : ∀ p, (s.rings p).Evolves runqSlots (t.rings p)

omit [Fintype M] in
theorem moves_queue {global before after : List G} (hb : ∀ p, (s.rings p).Bounded runqSlots)
    (hsize : size = global.length) (hkept : Kept (s.runq p) q before after)
    (hhands : ∀ g, global.count g + next.hands.count g + before.count g =
      s.global.count g + (s.pc m).hands.count g + after.count g)
    (hpopped : s.has m ≠ some p → (s.rings p).Popped q.ring) (hfound : ∀ g, next = .found g → s.curg m = none) :
    Moves s ((s.withQueues p q global size).next m next) m where
  has := by cases next <;> rfl
  pc x hx := by cases next <;> exact update_of_ne hx ..
  curg x hx := by
    cases next with
    | goto pc => rfl
    | found g => exact update_of_ne hx ..
  bounded x := by
    rw [rings_next, rings_withQueues]
    by_cases hx : x = p
    · subst hx
      rw [update_self]
      exact hkept.bounded
    · rw [update_of_ne hx]
      exact hb x
  evolves x := by
    rw [rings_next, rings_withQueues]
    by_cases hx : x = p
    · subst hx
      rw [update_self]
      exact hkept.evolves
    · rw [update_of_ne hx]
      exact .refl
  popped x hm := by
    rw [rings_next, rings_withQueues]
    by_cases hx : x = p
    · subst hx
      rw [update_self]
      exact hpopped hm
    · rw [update_of_ne hx]
      exact .refl (hb x).le
  size := by
    cases next <;> exact hsize
  places g := by
    have hothers : ∀ x, x ≠ p → (update s.runq p q x).queued.count g = (s.runq x).queued.count g := fun x hx => by
      rw [update_of_ne hx]
    have hsum := sum_move p hothers
    rw [update_self] at hsum
    have hmoved := hkept.moved g
    have hglobal := hhands g
    have hwaits : ((s.withQueues p q global size).next m next).waits g = s.waits g := by cases next <;> rfl
    rw [hwaits]
    cases next with
    | goto pc =>
      simp only [State.next, State.goto, State.withQueues, State.setRunq, State.hands, update_self,
        count_append, Next.hands] at hglobal ⊢
      omega
    | found g' =>
      simp only [State.next, State.found, State.withQueues, State.setRunq, State.hands, update_self,
        count_append, Next.hands, toList_some, hfound g' rfl, toList_none, Pc.hands_out,
        count_nil] at hglobal ⊢
      omega

theorem Inv.queue {own : P} {global before after : List G} (h : Inv s) (hhas : s.has m = some own)
    (hsize : size = global.length) (hkept : Kept (s.runq p) q before after)
    (hhands : ∀ g, global.count g + next.hands.count g + before.count g =
      s.global.count g + (s.pc m).hands.count g + after.count g) (hpopped : own ≠ p → (s.rings p).Popped q.ring)
    (hidle : ∀ pc, next = .goto pc → pc.Searches → s.curg m = none)
    (hfound : ∀ g, next = .found g → s.curg m = none) (hknows : next.Knows (update s.rings p q.ring) own) :
    Stepped s ((s.withQueues p q global size).next m next) := by
  have hmoves := moves_queue h.bounded hsize hkept hhands
    (fun hm => hpopped fun heq => hm (hhas.trans (congrArg some heq))) hfound
  have hgoto : ∀ pc, next = .goto pc → ((s.withQueues p q global size).next m next).pc m = pc := by
    rintro pc rfl
    exact update_self ..
  have hout : ∀ g, next = .found g → ((s.withQueues p q global size).next m next).pc m = .out := by
    rintro g rfl
    exact update_self ..
  refine ⟨h.moves hmoves ⟨fun _ => ?_, fun hsearches => ?_, fun p' hp' => ?_⟩, hmoves.evolves⟩
  · rw [hmoves.has, hhas]
    exact some_ne_none _
  · cases next with
    | goto pc =>
      rw [hgoto pc rfl] at hsearches
      exact hidle pc rfl hsearches
    | found g =>
      rw [hout g rfl] at hsearches
      exact hsearches.elim
  · obtain rfl : own = p' := Option.some.inj (hhas.symm.trans (hmoves.has ▸ hp'))
    rw [rings_next, rings_withQueues]
    cases next with
    | goto pc =>
      rw [hgoto pc rfl]
      exact hknows
    | found g =>
      rw [hout g rfl]
      trivial

omit [DecidableEq P] [DecidableEq M] [Fintype M] in
theorem moves_global (hb : ∀ p, (s.rings p).Bounded runqSlots) (hhas : t.has = s.has)
    (hpc : ∀ x, x ≠ m → t.pc x = s.pc x) (hcurg : ∀ x, x ≠ m → t.curg x = s.curg x)
    (hrunq : t.runq = s.runq) (hsize : t.size = t.global.length)
    (hplaces : ∀ g, t.global.count g + (t.hands m).count g + t.waits g =
      s.global.count g + (s.hands m).count g + s.waits g) : Moves s t m := by
  have hrings : t.rings = s.rings := by
    unfold State.rings
    rw [hrunq]
  refine ⟨hhas, hpc, hcurg, hrings ▸ hb, fun p => hrings ▸ .refl, fun p _ => ?_, hsize, fun g => ?_⟩
  · rw [hrings]
    exact .refl (hb p).le
  have := hplaces g
  rw [hrunq]
  omega

omit [DecidableEq G] [DecidableEq P] [DecidableEq M] [Fintype P] [Fintype M] in
theorem foldl_globrunqput (batch : List G) : ∀ s : State G P M, batch.foldl State.globrunqput s =
    { s with global := s.global ++ batch, size := s.size + batch.length } := by
  induction batch with
  | nil =>
    intro s
    simp
  | cons g batch ih =>
    intro s
    rw [foldl_cons, ih]
    simp only [State.globrunqput, append_assoc, singleton_append, length_cons]
    congr 1
    push_cast
    omega

omit [DecidableEq P] in
theorem Inv.spill {batch : List G} (h : Inv s) (hpc : s.pc m = .spill batch) :
    Stepped s ((batch.foldl State.globrunqput s).goto m .out) := by
  rw [foldl_globrunqput]
  have hmoves : Moves s (State.goto { s with
      global := s.global ++ batch, size := s.size + batch.length } m .out) m := by
    refine moves_global h.bounded rfl (fun x hx => update_of_ne hx ..) (fun _ _ => rfl) rfl ?_ fun g => ?_
    · change s.size + batch.length = ((s.global ++ batch).length : Int)
      rw [h.size, length_append]
      push_cast
      rfl
    · change (s.global ++ batch).count g + _ + s.waits g = _
      simp only [State.goto, State.hands, update_self, hpc, count_append, Pc.hands, count_nil]
      omega
  refine ⟨h.moves hmoves ⟨fun hout => ?_, fun hsearches => ?_, fun p _ => ?_⟩, hmoves.evolves⟩
  · exact absurd (update_self ..) hout
  · rw [show (State.goto _ m .out).pc m = .out from update_self ..] at hsearches
    exact hsearches.elim
  · rw [show (State.goto _ m .out).pc m = .out from update_self ..]
    trivial

theorem Inv.goto {pc : Pc G P} (h : Inv s) (hhas : s.has m = some p) (hhands : pc.hands = (s.pc m).hands)
    (hidle : pc.Searches → s.curg m = none) (hpc : pc.Knows s.rings p) : Stepped s (s.goto m pc) := by
  have hkept : Kept (s.runq p) (s.runq p) [] [] := .refl (h.bounded p)
  have hgoto : Stepped s ((s.withQueues p (s.runq p) s.global s.size).next m (.goto pc)) := by
    refine h.queue hhas h.size hkept (fun g => ?_) (fun _ => .refl (h.bounded p).le) ?_ (fun _ => nofun) ?_
    · rw [Next.hands, hhands]
    · rintro _ ⟨⟩
      exact hidle
    · rw [show (s.runq p).ring = s.rings p from rfl, Function.update_eq_self]
      exact hpc
  unfold State.withQueues State.setRunq at hgoto
  rwa [Function.update_eq_self] at hgoto

theorem Inv.global {max : Int} (pc : Pc G P) (h : Inv s) (hhas : s.has m = some p) (hidle : s.curg m = none)
    (hhands : (s.pc m).hands = []) (hmax : max = 1 ∨ max = 0 ∧ (s.rings p).head = (s.rings p).tail)
    (hpc : pc.Knows s.rings p) (hpchands : pc.hands = []) :
    ∃ t, State.afterGlobal m pc (s.globrunqget p max) = (t, []) ∧ Stepped s t := by
  unfold State.globrunqget
  split
  · refine ⟨_, rfl, ?_⟩
    exact h.goto hhas (hpchands.trans hhands.symm) (fun _ => hidle) hpc
  · rename_i hsize
    have hlen := h.size
    cases hglobal : s.global with
    | nil =>
      rw [hglobal] at hlen
      exact absurd hlen hsize
    | cons g global =>
      rw [hglobal] at hlen
      obtain ⟨k, hcount, hk, hhalf, hone⟩ := globrunqCount_spec (Fintype.card P) max
        (Nat.zero_lt_of_lt (length_cons ▸ Nat.lt_succ_self global.length : global.length < (g :: global).length))
      rw [← hlen] at hcount
      rw [length_cons] at hk hlen
      have hb := h.bounded p
      have hroom : (s.rings p).tail + k ≤ (s.rings p).head + runqSlots := by
        rcases hmax with hmax | ⟨-, hempty⟩
        · rw [hone hmax]
          exact hb.room
        · unfold runqSlots at *
          omega
      obtain ⟨global', q, hmore, hlen', hkept⟩ := globrunqmore_kept k global hb (Nat.lt_succ_iff.mp hk) hroom
      have htake : (globrunqCount (Fintype.card P) s.size max - 1).toNat = k := by omega
      simp only [htake, hmore, State.afterGlobal]
      refine ⟨_, rfl, ?_⟩
      change Stepped s ((s.withQueues p q global' _).next m (.found g))
      refine h.queue hhas ?_ hkept (fun x => ?_) (fun hne => absurd rfl hne) (fun _ _ _ => hidle)
        (fun _ _ => hidle) trivial
      · rw [hlen', hcount, hlen]
        omega
      · simp only [hglobal, hhands, Next.hands, count_cons, count_nil]
        omega

/-! ### The steps -/

def StealPc.Prompt (r : Counted G) : StealPc G → Prop
  | .tail h | .read h _ _ => r.head < h + 2 ^ 32
  | _ => True

instance {r : Counted G} : DecidablePred (StealPc.Prompt r)
  | .tail h | .read h _ _ => inferInstanceAs (Decidable (r.head < h + 2 ^ 32))
  | .head | .next | .take _ => isTrue trivial

def Pc.Prompt (rings : P → Counted G) : Pc G P → Prop
  | .steal victim _ pc => pc.Prompt (rings victim)
  | _ => True

instance {rings : P → Counted G} : DecidablePred (Pc.Prompt rings)
  | .steal victim _ pc => inferInstanceAs (Decidable (pc.Prompt (rings victim)))
  | .out | .put _ | .spill _ | .get _ | .size _ | .global _ | .search | .keep _ => isTrue trivial

def Prompt (s : State G P M) (_ : Act G P M) : Prop := ∀ m, (s.pc m).Prompt s.rings

instance {a : Act G P M} : Decidable (Prompt s a) :=
  inferInstanceAs (Decidable (∀ m, (s.pc m).Prompt s.rings))

theorem Inv.advance {es : List Event} (h : Inv s) (hhas : s.has m = some p)
    (hprompt : (s.pc m).Prompt s.rings) (hstep : advance s m p ok = some (t, es)) : es = [] ∧ Stepped s t := by
  have hknows := h.knows m p hhas
  have hidle := h.idle m
  have hb := h.bounded p
  unfold RunQueue.advance at hstep
  cases hpc : s.pc m with
  | out =>
    rw [hpc] at hstep
    cases hstep
  | put pc =>
    rw [hpc] at hstep hknows
    cases hstep
    obtain ⟨pc', hnext, hsearches, hknows'⟩ := runqput_next (P := P) hb hknows
    have hkept := runqput_kept (P := P) hb hknows
    refine ⟨rfl, h.queue hhas h.size hkept (fun g => ?_) (fun hne => absurd rfl hne) ?_ ?_ ?_⟩
    · simp only [hpc, Pc.hands]
      omega
    · rw [hnext]
      rintro _ ⟨⟩ hs
      exact absurd hs hsearches
    · rw [hnext]
      simp
    · rw [hnext]
      exact hknows' _ _ (update_self ..)
  | spill batch =>
    rw [hpc] at hstep
    cases hstep
    exact ⟨rfl, h.spill hpc⟩
  | get pc =>
    rw [hpc] at hstep hknows hidle
    cases hstep
    refine ⟨rfl, h.queue hhas h.size (runqget_kept (P := P) hb hknows) (fun g => ?_) (fun hne => absurd rfl hne)
      (fun _ _ _ => hidle trivial) (fun _ _ => hidle trivial) ?_⟩
    · simp only [hpc, Pc.hands, count_nil]
      omega
    · exact runqget_next (P := P) hb hknows (update_self ..)
  | size max =>
    rw [hpc] at hstep hknows hidle
    cases hstep
    refine ⟨rfl, h.goto hhas ?_ (fun _ => hidle trivial) ?_⟩
    · rw [hpc]
      split_ifs <;> rfl
    · split_ifs with hsize hone
      · exact hknows
      · trivial
      · exact (hknows.resolve_left hone).2
  | global max =>
    rw [hpc] at hstep hknows hidle
    have hnext : (if max = 1 then Pc.get .next else .search : Pc G P).Knows s.rings p := by
      split_ifs with hone
      · trivial
      · exact (hknows.resolve_left hone).2
    obtain ⟨u, hglobal, hstepped⟩ := h.global _ hhas (hidle trivial) (by rw [hpc]; rfl) hknows hnext
      (by split_ifs <;> rfl)
    change some (State.afterGlobal _ _ _) = _ at hstep
    rw [hglobal] at hstep
    cases hstep
    exact ⟨rfl, hstepped⟩
  | search =>
    rw [hpc] at hstep
    cases hstep
  | steal victim stealNext pc =>
    rw [hpc] at hstep hknows hidle hprompt
    obtain ⟨hne, hempty, hknows⟩ := hknows
    cases hstep
    obtain ⟨hpopped, hkept⟩ := runqsteal_kept victim stealNext ok (h.bounded victim) hknows
      (by rintro h n batch rfl; exact hprompt)
    refine ⟨rfl, h.queue hhas h.size hkept (fun g => ?_) (fun _ => hpopped) (fun _ _ _ => hidle trivial)
      (fun _ _ => hidle trivial) ?_⟩
    · simp only [hpc, Pc.hands, count_nil]
      omega
    · refine runqsteal_next (h.bounded victim) hknows (by rintro h rfl; exact hprompt) (update_self ..) hne ?_
      rw [update_of_ne hne.symm]
      exact hempty
  | keep pc =>
    rw [hpc] at hstep hknows hidle
    cases hstep
    refine ⟨rfl, h.queue hhas h.size (runqkeep_kept (P := P) hb hknows) (fun g => ?_) (fun hne => absurd rfl hne)
      (fun _ _ _ => hidle trivial) (fun _ _ => hidle trivial) ?_⟩
    · simp only [hpc, Pc.hands]
      omega
    · exact runqkeep_next (P := P) hknows (update_self ..)

omit [DecidableEq P] in
theorem Inv.ready {g : G} (h : Inv s) (hpc : s.pc m = .out) (hwaits : s.waiting g = true) (hhas : s.has m ≠ none) :
    Stepped s (State.goto { s with waiting := update s.waiting g false } m (.put (.next g))) := by
  have hmoves : Moves s (State.goto { s with waiting := update s.waiting g false } m (.put (.next g))) m := by
    refine moves_global h.bounded rfl (fun x hx => update_of_ne hx ..) (fun _ _ => rfl) rfl h.size fun x => ?_
    simp only [State.goto, State.hands, State.waits, update_self, hpc, count_append, Pc.hands, PutPc.hands, count_nil]
    by_cases hx : x = g
    · subst hx
      simp only [count_singleton_self, update_self, hwaits, Bool.false_eq_true, if_false, if_true]
      omega
    · simp [update_of_ne hx, Ne.symm hx]
  have hnext : (State.goto { s with waiting := update s.waiting g false } m (.put (.next g))).pc m =
    .put (.next g) := update_self ..
  refine ⟨h.moves hmoves ⟨fun _ => hhas, fun hsearches => ?_, fun p _ => ?_⟩, hmoves.evolves⟩
  · rw [hnext] at hsearches
    exact hsearches.elim
  · rw [hnext]
    trivial

omit [DecidableEq P] in
theorem Inv.out (h : Inv s) (hmoves : Moves s t m) (hpc : t.pc m = .out) : Stepped s t := by
  refine ⟨h.moves hmoves ⟨fun hne => absurd hpc hne, fun hsearches => ?_, fun p _ => ?_⟩, hmoves.evolves⟩
  · rw [hpc] at hsearches
    exact hsearches.elim
  · rw [hpc]
    trivial

omit [DecidableEq P] [DecidableEq M] in
theorem Inv.setHas {has : M → Option P} (h : Inv s) (hhas : ∀ x, x ≠ m → has x = s.has x)
    (hpc : s.pc m = .out) (hsingle : ∀ p, has m = some p → ∀ x, x ≠ m → s.has x ≠ some p) :
    Stepped s { s with has := has } := by
  refine ⟨⟨h.bounded, h.size, h.places, fun x y p hx hy => ?_, fun x hne => ?_, h.idle, fun x p hp => ?_⟩,
    fun p => .refl⟩
  · by_cases hxm : x = m
    · subst hxm
      by_contra hxy
      exact hsingle p hx y (Ne.symm hxy) ((hhas y (Ne.symm hxy)).symm.trans hy)
    · by_cases hym : y = m
      · subst hym
        exact absurd ((hhas x hxm).symm.trans hx) (hsingle p hy x hxm)
      · exact h.single x y p ((hhas x hxm).symm.trans hx) ((hhas y hym).symm.trans hy)
  · have hxm : x ≠ m := fun hxm => hne (hxm ▸ hpc)
    exact (hhas x hxm).trans_ne (h.owner x hne)
  · by_cases hxm : x = m
    · subst hxm
      rw [show State.pc { s with has := has } x = .out from hpc]
      trivial
    · exact h.knows x p ((hhas x hxm).symm.trans hp)

variable {es : List Event}

section Acts

variable {m : M} (h : Inv s)

include h

theorem Inv.step_ready {g : G} (hstep : step s (.ready m g) = some (t, es)) : es = [] ∧ Stepped s t := by
  simp only [RunQueue.step] at hstep
  split at hstep
  · rename_i hpc hwaits
    cases hstep
    refine ⟨rfl, ?_⟩
    split
    · rename_i hhas
      exact h.ready hpc hwaits (isSome_iff_ne_none.mp hhas)
    · refine h.out (moves_global (m := m) h.bounded rfl (fun _ _ => rfl) (fun _ _ => rfl) rfl ?_ fun x => ?_) hpc
      · simp only [State.globrunqput, length_append, length_singleton, h.size]
        push_cast
        rfl
      · simp only [State.globrunqput, State.hands, State.waits, count_append]
        by_cases hx : x = g
        · subst hx
          simp [hwaits]
          omega
        · simp [update_of_ne hx, Ne.symm hx]
  · cases hstep

theorem Inv.step_yield (hstep : step s (.yield m) = some (t, es)) : es = [] ∧ Stepped s t := by
  simp only [RunQueue.step] at hstep
  split at hstep
  · rename_i g hpc hcurg
    cases hstep
    refine ⟨rfl, h.out (m := m) (moves_global h.bounded rfl (fun _ _ => rfl)
      (fun x hx => update_of_ne hx ..) rfl ?_ fun x => ?_) hpc⟩
    · simp only [State.globrunqput, length_append, length_singleton, h.size]
      push_cast
      rfl
    · change (s.global ++ [g]).count x + _ + s.waits x = _
      simp only [State.globrunqput, State.hands, update_self, hcurg, count_append,
        toList_some, toList_none, count_nil]
      omega
  · cases hstep

theorem Inv.step_park (hstep : step s (.park m) = some (t, es)) : es = [] ∧ Stepped s t := by
  simp only [RunQueue.step] at hstep
  split at hstep
  · rename_i g hpc hcurg
    cases hstep
    have hrunning : s.waiting g = false := by
      have hplaces := h.places g
      have := count_pos_iff.mpr (show g ∈ s.hands m by simp [State.hands, hcurg])
      have := Finset.add_sum_erase _ (fun x => (s.hands x).count g) (Finset.mem_univ m)
      unfold State.places State.waits at hplaces
      split at hplaces
      · omega
      · rename_i hrunning
        exact Bool.eq_false_iff.mpr hrunning
    refine ⟨rfl, h.out (m := m) (moves_global h.bounded rfl (fun _ _ => rfl)
      (fun x hx => update_of_ne hx ..) rfl h.size fun x => ?_) hpc⟩
    simp only [State.hands, State.waits, update_self, hcurg, count_append, toList_some, toList_none, count_nil]
    by_cases hx : x = g
    · subst hx
      simp [hrunning]
      omega
    · simp [update_of_ne hx, Ne.symm hx]
  · cases hstep

theorem Inv.step_find {globalFirst : Bool} (hstep : step s (.find m globalFirst) = some (t, es)) :
    es = [] ∧ Stepped s t := by
  simp only [RunQueue.step] at hstep
  split at hstep
  · rename_i p hpc hcurg hhas
    cases hstep
    refine ⟨rfl, h.goto hhas ?_ (fun _ => hcurg) ?_⟩
    · rw [hpc]
      split <;> rfl
    · split
      · exact .inl rfl
      · trivial
  · cases hstep

theorem Inv.step_steal {victim : P} {stealNext : Bool}
    (hstep : step s (.steal m victim stealNext) = some (t, es)) : es = [] ∧ Stepped s t := by
  simp only [RunQueue.step] at hstep
  split at hstep
  · rename_i hpc
    split at hstep
    · cases hstep
    · rename_i hne
      cases hstep
      obtain ⟨p, hhas⟩ := ne_none_iff_exists'.mp (h.owner m (by rw [hpc]; simp))
      have hempty := h.knows m p hhas
      rw [hpc] at hempty
      refine ⟨rfl, h.goto hhas (by rw [hpc]; rfl) (fun _ => h.idle m (by rw [hpc]; trivial)) ⟨?_, hempty, trivial⟩⟩
      rintro rfl
      exact hne hhas
  · cases hstep

theorem Inv.step_giveUp (hstep : step s (.giveUp m) = some (t, es)) : es = [] ∧ Stepped s t := by
  simp only [RunQueue.step] at hstep
  split at hstep
  · rename_i p hpc hhas
    have hempty := h.knows m p hhas
    have hidle := h.idle m
    rw [hpc] at hempty hidle
    split at hstep
    · obtain ⟨u, hglobal, hstepped⟩ := h.global .out hhas (hidle trivial) (by rw [hpc]; rfl) (.inr ⟨rfl, hempty⟩)
        trivial rfl
      rw [hglobal] at hstep
      cases hstep
      exact ⟨rfl, hstepped⟩
    · cases hstep
      have hgoto : Stepped s (s.goto m .out) := h.goto hhas (by rw [hpc]; rfl) (fun hs => hs.elim) trivial
      have hset : Stepped (s.goto m .out) { s.goto m .out with has := update s.has m none } :=
        hgoto.inv.setHas (fun x hx => update_of_ne hx ..) (update_self ..) fun p hp => by simp at hp
      exact ⟨rfl, hset.inv, hgoto.evolves⟩
  · cases hstep

end Acts

theorem Inv.step {a : Act G P M} (h : Inv s) (hprompt : Prompt s a)
    (hstep : step s a = some (t, es)) : es = [] ∧ Stepped s t := by
  cases a with
  | step m ok =>
    obtain ⟨p, hhas, hadvance⟩ := bind_eq_some_iff.mp hstep
    exact h.advance hhas (hprompt m) hadvance
  | ready m g => exact h.step_ready hstep
  | yield m => exact h.step_yield hstep
  | park m => exact h.step_park hstep
  | find m globalFirst => exact h.step_find hstep
  | steal m victim stealNext => exact h.step_steal hstep
  | giveUp m => exact h.step_giveUp hstep
  | acquire m p =>
    simp only [RunQueue.step] at hstep
    split at hstep
    · rename_i hpc hhas
      split at hstep
      · cases hstep
      · rename_i hfree
        cases hstep
        refine ⟨rfl, h.setHas (fun x hx => update_of_ne hx ..) hpc fun q hq x _ hx => ?_⟩
        rw [update_self] at hq
        exact hfree ⟨x, hx.trans hq.symm⟩
    · cases hstep
  | release m =>
    simp only [RunQueue.step] at hstep
    split at hstep
    · rename_i hpc
      cases hstep
      exact ⟨rfl, h.setHas (fun x hx => update_of_ne hx ..) hpc fun q hq => by simp at hq⟩
    · cases hstep

omit [DecidableEq P] [DecidableEq M] in
theorem inv_init (slots : P → Nat → G) : Inv (State.init slots : State G P M) where
  bounded _ := ⟨le_rfl, Nat.zero_le _⟩
  size := rfl
  places g := by
    simp [State.places, State.init, State.hands, State.waits, Runq.queued, Counted.items]
  single _ _ _ h := by cases h
  owner _ h := absurd rfl h
  idle _ h := h.elim
  knows _ _ h := by cases h

/-- Every `G` that does not wait is in one place, and `runq_size` is the length of the global queue. -/
structure Exact (s : State G P M) : Prop where
  runnable : ∀ g, s.waiting g = false → s.places g = 1
  waiting : ∀ g, s.waiting g = true → s.places g = 0
  bounded : ∀ p, (s.rings p).head ≤ (s.rings p).tail ∧ (s.rings p).tail - (s.rings p).head ≤ runqSlots
  size : s.size = s.global.length

def Untouched (s t : State G P M) : Prop :=
  ∀ p k, (s.rings p).head ≤ k → k < (s.rings p).tail →
    (t.rings p).slots (k % runqSlots) = (s.rings p).slots (k % runqSlots)

omit [DecidableEq P] [DecidableEq M] in
theorem Inv.exact (h : Inv s) : Exact s where
  runnable g hg := by
    have hplaces := h.places g
    rwa [State.waits, hg] at hplaces
  waiting g hg := by
    have hplaces := h.places g
    rw [State.waits, hg] at hplaces
    exact Nat.succ.inj hplaces
  bounded p := ⟨(h.bounded p).le, by have := (h.bounded p).room; omega⟩
  size := h.size

theorem runq_exact {slots : P → Nat → G} {es : List Event}
    (h : RunWhen step Prompt (State.init slots : State G P M) es t) :
    es = [] ∧ Exact t ∧ ∀ a u es', Prompt t a → step t a = some (u, es') → Untouched t u := by
  have hinv : es = [] ∧ Inv t := by
    refine h.invariant (P := fun es t => es = [] ∧ Inv t) ⟨rfl, inv_init slots⟩ ?_
    rintro es es' t u a ⟨rfl, ht⟩ hprompt hstep
    obtain ⟨rfl, hstepped⟩ := ht.step hprompt hstep
    exact ⟨rfl, hstepped.inv⟩
  exact ⟨hinv.1, hinv.2.exact, fun a u es' hprompt hstep p =>
    ((hinv.2.step hprompt hstep).2.evolves p).kept⟩

/-- `m1` steals from the queue of `m0`, while a thread puts a `G` on the global queue. -/
theorem runq_exact_steal : ∃ es t, RunWhen step Prompt
      (State.init (fun _ _ => 0) : State (Fin 3) (Fin 2) (Fin 3)) es t ∧
    (es = [] ∧ Exact t ∧ ∀ a u es', Prompt t a → step t a = some (u, es') → Untouched t u) ∧
    t.curg 1 = some 0 ∧ (t.runq 0).runnext = some 1 ∧ t.global = [2] := by
  let s : State (Fin 3) (Fin 2) (Fin 3) := State.init fun _ _ => 0
  let acts : List (Act (Fin 3) (Fin 2) (Fin 3)) :=
    [.acquire 0 0, .acquire 1 1, .ready 0 0, .step 0 true, .ready 0 1] ++ List.replicate 5 (.step 0 true) ++
      [.find 1 false] ++ List.replicate 5 (.step 1 true) ++ [.steal 1 0 false, .ready 2 2] ++
      List.replicate 5 (.step 1 true)
  let look : State (Fin 3) (Fin 2) (Fin 3) × List Event → Bool := fun r =>
    decide (r.1.curg 1 = some 0 ∧ (r.1.runq 0).runnext = some 1 ∧ r.1.global = [2])
  have hacts : (runActs (tested (fun s a => decide (Prompt s a)) step) s acts).any look = true := by decide +kernel
  obtain ⟨es, t, hrun, hlook⟩ : ∃ es t, RunWhen step Prompt s es t ∧ look (t, es) = true :=
    runWhen_of_any (I := fun _ => True) trivial (fun _ _ => trivial) (fun _ h => of_decide_eq_true h) hacts
  exact ⟨es, t, hrun, runq_exact hrun, of_decide_eq_true hlook⟩

end System

end Tsuzuri.RunQueue
