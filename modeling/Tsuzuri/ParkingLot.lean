import Tsuzuri.Parking

/-!
# The parking lot

Waiters of a word are kept in a bucket that all words share whose addresses hash alike.
-/

namespace Tsuzuri.ParkingLot

open Parking Transition List
open Function (update update_of_ne update_self)

/-! ## Buckets -/

def BUCKETS : Nat := 251

def bucketOf (addr : Nat) : Nat := (addr >>> 3) % BUCKETS

/-- A waiter's record is on the stack of its call, and so has the name of its `G`. -/
structure Waiter (G : Type) where
  g : G
  addr : Nat

/-- A bucket: the records from `first` on along their links, and `last`. -/
structure Bucket (G : Type) where
  waiters : List (Waiter G)
  last : Option G

variable {G : Type} [DecidableEq G]

/-- `last->next = &w` -/
def linkAfter (last : G) (w : Waiter G) : List (Waiter G) → List (Waiter G)
  | [] => []
  | x :: xs => if x.g = last then [x, w] else x :: linkAfter last w xs

def Bucket.push (b : Bucket G) (w : Waiter G) : Bucket G where
  waiters :=
    match b.last with
    | some last => linkAfter last w b.waiters
    | none => [w]
  last := some w.g

/-- The loop of `tzr_bucket_unlink`: the rest of the chain and `last`, where the target is found. -/
def unlinkFrom (target : G) (kept : Option G) : Option G → List (Waiter G) → Option (Bucket G)
  | _, [] => none
  | last, w :: rest =>
    if w.g = target then some ⟨rest, if rest.isEmpty then last else kept⟩
    else (unlinkFrom target kept (some w.g) rest).map fun b => { b with waiters := w :: b.waiters }

def Bucket.unlink (b : Bucket G) (target : G) : Bucket G × Bool :=
  match unlinkFrom target b.last none b.waiters with
  | some b' => (b', true)
  | none => (b, false)

/-- The loop of `tzr_addr_wake`, with the waiters that it wakes. -/
def wakeFrom (addr : Nat) (kept : Option G) : Option Nat → Option G → List (Waiter G) → Bucket G × List G
  | _, last, [] => (⟨[], last⟩, [])
  | n, last, w :: rest =>
    if n = some 0 then (⟨w :: rest, kept⟩, [])
    else if w.addr = addr then
      let r := wakeFrom addr kept (n.map (· - 1)) last rest
      (r.1, w.g :: r.2)
    else
      let r := wakeFrom addr kept n (some w.g) rest
      ({ r.1 with waiters := w :: r.1.waiters }, r.2)

def Bucket.wake (b : Bucket G) (addr : Nat) (n : Option Nat) : Bucket G × List G :=
  wakeFrom addr b.last n none b.waiters

def Bucket.queue (b : Bucket G) (addr : Nat) : List G := (b.waiters.filter (·.addr = addr)).map (·.g)

/-- The records are linked up to `last`, each once. -/
structure Bucket.Linked (b : Bucket G) : Prop where
  last_eq : b.last = b.waiters.getLast?.map (·.g)
  nodup : (b.waiters.map (·.g)).Nodup

section Buckets

variable {b : Bucket G}

omit [DecidableEq G] in
theorem getLast_cons (w : Waiter G) (ws : List (Waiter G)) (last : Option G) :
    ((w :: ws).getLast?.map (·.g)).or last = (ws.getLast?.map (·.g)).or (some w.g) := by
  cases ws with
  | nil => rfl
  | cons y ys =>
    rw [getLast?_cons_cons]
    obtain ⟨l, hl⟩ := Option.isSome_iff_exists.mp (show ((y :: ys).getLast?).isSome = true by simp)
    rw [hl]
    rfl

theorem linkAfter_eq (w : Waiter G) {ws : List (Waiter G)} {last : Waiter G} (hlast : ws.getLast? = some last)
    (hnodup : (ws.map (·.g)).Nodup) : linkAfter last.g w ws = ws ++ [w] := by
  induction ws with
  | nil => exact nomatch hlast
  | cons x xs ih =>
    cases xs with
    | nil =>
      obtain rfl : x = last := by simpa using hlast
      simp [linkAfter]
    | cons y ys =>
      rw [getLast?_cons_cons] at hlast
      have hmem : last ∈ y :: ys := mem_of_getLast? hlast
      have hne : x.g ≠ last.g := fun heq =>
        (nodup_cons.mp hnodup).1 (mem_map.mpr ⟨last, hmem, heq.symm⟩)
      rw [linkAfter, if_neg hne, ih hlast (nodup_cons.mp hnodup).2]
      rfl

theorem push_waiters (h : b.Linked) (w : Waiter G) : (b.push w).waiters = b.waiters ++ [w] := by
  unfold Bucket.push
  cases hlast : b.waiters.getLast? with
  | none =>
    have hnil := getLast?_eq_none_iff.mp hlast
    rw [h.last_eq, hlast, hnil]
    rfl
  | some last =>
    rw [h.last_eq, hlast]
    exact linkAfter_eq w hlast h.nodup

theorem Bucket.Linked.push (h : b.Linked) {w : Waiter G} (hw : w.g ∉ b.waiters.map (·.g)) : (b.push w).Linked where
  last_eq := by
    rw [push_waiters h, getLast?_concat]
    rfl
  nodup := by
    rw [push_waiters h, map_append]
    refine nodup_append.mpr ⟨h.nodup, nodup_singleton _, fun x hx y hy heq => hw ?_⟩
    have hy' : y = w.g := mem_singleton.mp hy
    rwa [← hy', ← heq]

theorem queue_push (h : b.Linked) (w : Waiter G) (addr : Nat) :
    (b.push w).queue addr = b.queue addr ++ if w.addr = addr then [w.g] else [] := by
  unfold Bucket.queue
  rw [push_waiters h, filter_append, map_append]
  split <;> rename_i haddr <;> simp [haddr]

theorem unlinkFrom_eq (target : G) (kept : Option G) (ws : List (Waiter G)) : ∀ last,
    (target ∉ ws.map (·.g) → unlinkFrom target kept last ws = none) ∧
    (target ∈ ws.map (·.g) → kept = (ws.getLast?.map (·.g)).or last → (ws.map (·.g)).Nodup →
      ∃ b, unlinkFrom target kept last ws = some b ∧ b.waiters = ws.filter (·.g ≠ target) ∧
        b.last = (b.waiters.getLast?.map (·.g)).or last) := by
  induction ws with
  | nil => exact fun last => ⟨fun _ => rfl, fun h => absurd h not_mem_nil⟩
  | cons w rest ih =>
    intro last
    rw [map_cons, mem_cons, not_or]
    constructor
    · rintro ⟨hne, hrest⟩
      rw [unlinkFrom, if_neg (Ne.symm hne), (ih _).1 hrest]
      rfl
    · intro hmem hkept hnodup
      obtain ⟨hnot, hnodup'⟩ := nodup_cons.mp hnodup
      by_cases hw : w.g = target
      · have hfilter : (w :: rest).filter (·.g ≠ target) = rest := by
          rw [filter_cons_of_neg (by simpa using hw), filter_eq_self]
          intro x hx
          simpa using fun heq : x.g = target => hnot (hw ▸ heq ▸ mem_map_of_mem hx)
        refine ⟨_, by rw [unlinkFrom, if_pos hw], hfilter.symm, ?_⟩
        cases rest with
        | nil => rfl
        | cons y ys =>
          rw [getLast?_cons_cons] at hkept
          exact hkept
      · have hmem' := hmem.resolve_left (Ne.symm hw)
        have hkept' : kept = (rest.getLast?.map (·.g)).or (some w.g) := by
          rw [hkept, getLast_cons]
        obtain ⟨b, hunlink, hwaiters, hlast⟩ := (ih (some w.g)).2 hmem' hkept' hnodup'
        refine ⟨{ b with waiters := w :: b.waiters }, ?_, ?_, ?_⟩
        · rw [unlinkFrom, if_neg hw, hunlink]
          rfl
        · rw [filter_cons_of_pos (by simpa using hw), hwaiters]
        · rw [getLast_cons]
          exact hlast

theorem unlink_eq (h : b.Linked) (target : G) : (b.unlink target).2 = decide (target ∈ b.waiters.map (·.g)) ∧
      (b.unlink target).1.waiters = b.waiters.filter (·.g ≠ target) ∧ (b.unlink target).1.Linked := by
  obtain ⟨hnone, hsome⟩ := unlinkFrom_eq target b.last b.waiters none
  unfold Bucket.unlink
  by_cases hmem : target ∈ b.waiters.map (·.g)
  · obtain ⟨b', hunlink, hwaiters, hlast⟩ := hsome hmem (by rw [h.last_eq, Option.or_none]) h.nodup
    rw [hunlink]
    refine ⟨(decide_eq_true hmem).symm, hwaiters, by rw [hlast, Option.or_none], ?_⟩
    rw [hwaiters]
    exact h.nodup.sublist ((filter_sublist).map _)
  · rw [hnone hmem]
    refine ⟨(decide_eq_false hmem).symm, ?_, h⟩
    rw [filter_eq_self.mpr]
    intro x hx
    simpa using fun heq : x.g = target => hmem (heq ▸ mem_map_of_mem hx)

omit [DecidableEq G] in
theorem wakeFrom_eq (addr : Nat) (kept : Option G) (ws : List (Waiter G)) : ∀ n last,
    (∀ l, ws.getLast? = some l → kept = some l.g) →
    (wakeFrom addr kept n last ws).2 = taken n ((ws.filter (·.addr = addr)).map (·.g)) ∧
      (wakeFrom addr kept n last ws).1.last = ((wakeFrom addr kept n last ws).1.waiters.getLast?.map (·.g)).or last ∧
      (wakeFrom addr kept n last ws).1.waiters.Sublist ws ∧ (wakeFrom addr kept n last ws).1.queue addr =
        ((ws.filter (·.addr = addr)).map (·.g)).drop (wakeFrom addr kept n last ws).2.length ∧ ∀ other, other ≠ addr →
        (wakeFrom addr kept n last ws).1.queue other = (ws.filter (·.addr = other)).map (·.g) := by
  induction ws with
  | nil =>
    intro n last _
    exact ⟨by cases n <;> simp [wakeFrom, taken], rfl, List.Sublist.refl _, rfl, fun _ _ => rfl⟩
  | cons w rest ih =>
    intro n last hkept
    have hkept' : ∀ l, rest.getLast? = some l → kept = some l.g := by
      intro l hl
      refine hkept l ?_
      cases rest with
      | nil => simp at hl
      | cons y ys => rwa [getLast?_cons_cons]
    by_cases hn : n = some 0
    · subst hn
      rw [wakeFrom, if_pos rfl]
      refine ⟨rfl, ?_, List.Sublist.refl _, rfl, fun _ _ => rfl⟩
      obtain ⟨l, hl⟩ := Option.isSome_iff_exists.mp (show ((w :: rest).getLast?).isSome = true by simp)
      rw [hl]
      exact hkept l hl
    · by_cases hw : w.addr = addr
      · obtain ⟨hwoken, hlast, hsub, hqueue, hother⟩ := ih (n.map (· - 1)) last hkept'
        rw [wakeFrom, if_neg hn, if_pos hw]
        dsimp only
        refine ⟨?_, hlast, hsub.cons _, ?_, fun other hne => ?_⟩
        · rw [filter_cons_of_pos (by simpa using hw), hwoken]
          cases n with
          | none => rfl
          | some n =>
            obtain ⟨m, rfl⟩ := Nat.exists_eq_succ_of_ne_zero fun h0 => hn (congrArg some h0)
            rfl
        · rw [filter_cons_of_pos (by simpa using hw)]
          exact hqueue
        · rw [filter_cons_of_neg (by simpa using fun heq => hne (heq.symm.trans hw))]
          exact hother other hne
      · obtain ⟨hwoken, hlast, hsub, hqueue, hother⟩ := ih n (some w.g) hkept'
        rw [wakeFrom, if_neg hn, if_neg hw]
        dsimp only
        refine ⟨?_, ?_, hsub.cons_cons _, ?_, fun other hne => ?_⟩
        · rwa [filter_cons_of_neg (by simpa using hw)]
        · rw [getLast_cons]
          exact hlast
        · rw [filter_cons_of_neg (by simpa using hw), ← hqueue]
          unfold Bucket.queue
          rw [filter_cons_of_neg (by simpa using hw)]
        · have htail := hother other hne
          unfold Bucket.queue at htail ⊢
          by_cases ho : w.addr = other
          · rw [filter_cons_of_pos (by simpa using ho), filter_cons_of_pos (by simpa using ho),
              map_cons, map_cons, htail]
          · rw [filter_cons_of_neg (by simpa using ho), filter_cons_of_neg (by simpa using ho), htail]

omit [DecidableEq G] in
theorem wake_eq (h : b.Linked) (addr : Nat) (n : Option Nat) :
    (b.wake addr n).2 = taken n (b.queue addr) ∧ (b.wake addr n).1.Linked ∧
      (b.wake addr n).1.waiters.Sublist b.waiters ∧
      (b.wake addr n).1.queue addr = (b.queue addr).drop (taken n (b.queue addr)).length ∧
      ∀ other, other ≠ addr → (b.wake addr n).1.queue other = b.queue other := by
  obtain ⟨hwoken, hlast, hsub, hqueue, hother⟩ := wakeFrom_eq addr b.last b.waiters n none fun l hl => by
    rw [h.last_eq, hl]
    rfl
  unfold Bucket.wake
  refine ⟨hwoken, ⟨by rw [hlast, Option.or_none], h.nodup.sublist (hsub.map _)⟩, hsub, ?_, hother⟩
  rw [hqueue, hwoken]
  rfl

end Buckets

/-! ## The lot -/

variable {K : Type} {kind : Nat → K} {prim : K → Prim}

structure Lot (G : Type) (kind : Nat → K) (prim : K → Prim) where
  mem : Nat → Nat
  bucket : Nat → Bucket G
  phase : G → (addr : Nat) → Phase (prim (kind addr))
  busy : G → Option Nat

inductive LotAct (G : Type) (kind : Nat → K) (prim : K → Prim) where
  | start (g : G) (addr : Nat) (op : (prim (kind addr)).Op)
  | run (g : G) (choice : Nat)
  | doom (g : G)

def LotAct.party : LotAct G kind prim → G
  | .start g _ _ => g
  | .run g _ => g
  | .doom g => g

namespace Lot

variable (s : Lot G kind prim)

/-- A party at a point of its operation on the word at `addr`. -/
def set (g : G) (addr : Nat) (phase : Phase (prim (kind addr))) : Lot G kind prim :=
  { s with phase := update s.phase g (update (s.phase g) addr phase) }

def goOn (g : G) (addr : Nat) (next : Next (prim (kind addr)).Code (prim (kind addr)).Idle) :
    Lot G kind prim × List (G × Nat) :=
  let s := s.set g addr next.phase
  match next with
  | .goto _ => (s, [])
  | .ends _ status => ({ s with busy := update s.busy g none }, [(g, status)])

def setBucket (addr : Nat) (b : Bucket G) : Lot G kind prim :=
  { s with bucket := update s.bucket (bucketOf addr) b }

/-- `tzr_ready` of the waiters of a word that a wake took out. -/
def readyAll (addr : Nat) (woken : List G) : Lot G kind prim :=
  { s with
    phase := fun g =>
      if g ∈ woken then update (s.phase g) addr (s.phase g addr).ready else s.phase g }

def runInstr (g : G) (addr choice : Nat) :
    Instr (prim (kind addr)).Code (prim (kind addr)).Idle → Option (Lot G kind prim × List (G × Nat))
  | .atomic effect =>
    (effect (s.mem addr))[choice]?.map fun out =>
      { s with mem := update s.mem addr out.1 }.goOn g addr out.2
  | .wait expected next doomed =>
    if s.mem addr = expected then
      some ((s.setBucket addr ((s.bucket (bucketOf addr)).push ⟨g, addr⟩)).set g addr (.parked next doomed), [])
    else some (s.set g addr (.run next), [])
  | .wake count next =>
    let r := (s.bucket (bucketOf addr)).wake addr count
    some (((s.setBucket addr r.1).readyAll addr r.2).goOn g addr next)

/-- The end of `tzr_addr_wait` for a waiter that the detector woke. -/
def giveUp (g : G) (addr : Nat) (next : (prim (kind addr)).Code)
    (doomed : Next (prim (kind addr)).Code (prim (kind addr)).Idle) : Lot G kind prim × List (G × Nat) :=
  let r := (s.bucket (bucketOf addr)).unlink g
  if r.2 then (s.setBucket addr r.1).goOn g addr doomed
  else ((s.setBucket addr r.1).set g addr (.run next), [])

end Lot

def Lot.step (thread : G → Bool) (s : Lot G kind prim) : LotAct G kind prim → Option (Lot G kind prim × List (G × Nat))
  | .start g addr op =>
    if s.busy g = none then
      match s.phase g addr with
      | .idle i => ((prim (kind addr)).start i op).map fun code =>
        ({ s.set g addr (.run code) with busy := update s.busy g (some addr) }, [])
      | _ => none
    else none
  | .run g choice => do
    let addr ← s.busy g
    match s.phase g addr with
    | .run code => s.runInstr g addr choice ((prim (kind addr)).instr code)
    | .doomed next doomed => some (s.giveUp g addr next doomed)
    | _ => none
  | .doom g => do
    let addr ← s.busy g
    match s.phase g addr with
    | .parked next doomed => if thread g then some (s.set g addr (.doomed next doomed), []) else none
    | _ => none

def Lot.word (s : Lot G kind prim) (addr : Nat) : Word (prim (kind addr)) G where
  word := s.mem addr
  queue := (s.bucket (bucketOf addr)).queue addr
  phase g := s.phase g addr

/-- The buckets and the parties agree on who waits where. -/
structure Frame (s : Lot G kind prim) : Prop where
  linked : ∀ i, (s.bucket i).Linked
  home : ∀ i, ∀ w ∈ (s.bucket i).waiters, bucketOf w.addr = i ∧ s.busy w.g = some w.addr
  busy : ∀ g addr, s.busy g ≠ some addr → ∃ i, s.phase g addr = .idle i

structure LotInv (s : Lot G kind prim) : Prop extends Frame s where
  queued : ∀ addr, Queued (s.word addr)

section Steps

variable {s : Lot G kind prim} {g : G} {addr : Nat}

@[simp] theorem word_set (s : Lot G kind prim) (g : G) (addr : Nat) (phase : Phase (prim (kind addr))) :
    (s.set g addr phase).word addr = (s.word addr).set g phase := by
  unfold Lot.word Lot.set Word.set
  congr 1
  funext x
  by_cases hx : x = g
  · subst hx
    simp
  · simp [update_of_ne hx]

theorem word_set_of_ne {other : Nat} (h : other ≠ addr) (phase : Phase (prim (kind addr))) :
    (s.set g addr phase).word other = s.word other := by
  unfold Lot.word Lot.set
  congr 1
  funext x
  dsimp only
  by_cases hx : x = g
  · subst hx
    rw [update_self, update_of_ne h]
  · rw [update_of_ne hx]

theorem word_goOn (s : Lot G kind prim) (g : G) (addr : Nat)
    (next : Next (prim (kind addr)).Code (prim (kind addr)).Idle) :
    (s.goOn g addr next).1.word addr = (s.word addr).set g next.phase ∧ (s.goOn g addr next).2 = next.ended g := by
  cases next with
  | goto code => exact ⟨word_set .., rfl⟩
  | ends i status => exact ⟨word_set s g addr (.idle i), rfl⟩

theorem word_goOn_of_ne {other : Nat} (h : other ≠ addr) (next : Next (prim (kind addr)).Code (prim (kind addr)).Idle) :
    (s.goOn g addr next).1.word other = s.word other := by
  cases next with
  | goto code => exact word_set_of_ne h _
  | ends i status => exact word_set_of_ne (s := s) h (.idle i)

omit [DecidableEq G] in
theorem queue_setBucket (s : Lot G kind prim) (addr : Nat) (b : Bucket G)
    (hsame : ∀ other, other ≠ addr → b.queue other = (s.bucket (bucketOf addr)).queue other) (other : Nat) :
    (((s.setBucket addr b).bucket (bucketOf other)).queue other) =
      if other = addr then b.queue addr else (s.bucket (bucketOf other)).queue other := by
  unfold Lot.setBucket
  dsimp only
  split
  · rename_i heq
    subst heq
    rw [update_self]
  · rename_i hne
    by_cases hbucket : bucketOf other = bucketOf addr
    · rw [hbucket, update_self, hsame other hne]
    · rw [update_of_ne hbucket]

theorem Frame.set (h : Frame s) (hbusy : s.busy g = some addr) (phase : Phase (prim (kind addr))) :
    Frame (s.set g addr phase) where
  linked := h.linked
  home := h.home
  busy x a hx := by
    obtain ⟨i, hi⟩ := h.busy x a hx
    refine ⟨i, ?_⟩
    unfold Lot.set
    by_cases hxg : x = g
    · subst hxg
      have ha : a ≠ addr := fun heq => hx (heq ▸ hbusy)
      dsimp only
      rw [update_self, update_of_ne ha, hi]
    · dsimp only
      rw [update_of_ne hxg, hi]

theorem Frame.goOn (h : Frame s) (hbusy : s.busy g = some addr) (hfree : ∀ i, ∀ w ∈ (s.bucket i).waiters, w.g ≠ g)
    (next : Next (prim (kind addr)).Code (prim (kind addr)).Idle) : Frame (s.goOn g addr next).1 := by
  cases next with
  | goto code => exact h.set hbusy _
  | ends i status =>
    refine ⟨h.linked, fun j w hw => ?_, fun x a hx => ?_⟩
    · obtain ⟨hhome, hb⟩ := h.home j w hw
      exact ⟨hhome, (update_of_ne (hfree j w hw) ..).trans hb⟩
    · by_cases hxg : x = g
      · subst hxg
        by_cases ha : a = addr
        · subst ha
          exact ⟨i, by simp [Lot.goOn, Lot.set, Next.phase]⟩
        · exact (h.set hbusy (.idle i)).busy x a fun heq => ha (Option.some.inj (heq.symm.trans hbusy))
      · refine (h.set hbusy (.idle i)).busy x a fun heq => hx ?_
        exact (update_of_ne hxg ..).trans heq

omit [DecidableEq G] in
theorem LotInv.free (h : LotInv s) (hbusy : s.busy g = some addr) (hmem : g ∉ (s.word addr).queue) :
    ∀ i, ∀ w ∈ (s.bucket i).waiters, w.g ≠ g := by
  rintro i w hw rfl
  obtain ⟨hhome, hb⟩ := h.home i w hw
  obtain rfl := Option.some.inj (hb.symm.trans hbusy)
  refine hmem (mem_map.mpr ⟨w, mem_filter.mpr ⟨?_, by simp⟩, rfl⟩)
  rwa [hhome]

omit [DecidableEq G] in
theorem Frame.setBucket (h : Frame s) (b : Bucket G) (hlinked : b.Linked)
    (hhome : ∀ w ∈ b.waiters, bucketOf w.addr = bucketOf addr ∧ s.busy w.g = some w.addr) :
    Frame (s.setBucket addr b) where
  linked i := by
    unfold Lot.setBucket
    by_cases hi : i = bucketOf addr
    · subst hi
      dsimp only
      rwa [update_self]
    · dsimp only
      rw [update_of_ne hi]
      exact h.linked i
  home i w hw := by
    unfold Lot.setBucket at hw
    by_cases hi : i = bucketOf addr
    · subst hi
      dsimp only at hw
      rw [update_self] at hw
      exact hhome w hw
    · dsimp only at hw
      rw [update_of_ne hi] at hw
      exact h.home i w hw
  busy := h.busy

/-- A step of the lot is a step of one word, and no other word is changed. -/
structure WordStep (thread : G → Bool) (s : Lot G kind prim) (g : G) (es : List (G × Nat))
    (t : Lot G kind prim) : Prop where
  inv : LotInv t
  word : ∃ addr a, a.party = g ∧ (∀ other, s.busy g = some other → other = addr) ∧
    (s.word addr).step thread a = some (t.word addr, es) ∧
    ∀ other, other ≠ addr → t.word other = s.word other

variable {thread : G → Bool} {es : List (G × Nat)} {t : Lot G kind prim}

theorem WordStep.of_word (h : LotInv s) (hframe : Frame t) (a : Act (prim (kind addr)) G) (hparty : a.party = g)
    (hhome : ∀ other, s.busy g = some other → other = addr)
    (hstep : (s.word addr).step thread a = some (t.word addr, es))
    (hother : ∀ other, other ≠ addr → t.word other = s.word other) : WordStep thread s g es t where
  inv := by
    refine ⟨hframe, fun other => ?_⟩
    by_cases ho : other = addr
    · subst ho
      exact (h.queued other).move (step_move hstep)
    · rw [hother other ho]
      exact h.queued other
  word := ⟨addr, a, hparty, hhome, hstep, hother⟩

omit [DecidableEq G] in
theorem home_of_busy (hbusy : s.busy g = some addr) : ∀ other, s.busy g = some other → other = addr :=
  fun _ hother => Option.some.inj (hother.symm.trans hbusy)

variable (h : LotInv s)

include h

theorem start_word (hbusy : s.busy g = none) {i : (prim (kind addr)).Idle}
    (hphase : s.phase g addr = .idle i) {op : (prim (kind addr)).Op} {code : (prim (kind addr)).Code}
    (hstart : (prim (kind addr)).start i op = some code) :
    WordStep thread s g [] { s.set g addr (.run code) with busy := update s.busy g (some addr) } := by
  refine .of_word h ⟨h.linked, fun j w hw => ?_, fun x a hx => ?_⟩ (.start g op : Act (prim (kind addr)) G) rfl
    (fun _ hother => nomatch hbusy.symm.trans hother) ?_ ?_
  · obtain ⟨hhome, hb⟩ := h.home j w hw
    have hne : w.g ≠ g := by
      rintro rfl
      exact nomatch hb.symm.trans hbusy
    exact ⟨hhome, (update_of_ne hne ..).trans hb⟩
  · by_cases hxg : x = g
    · subst hxg
      have ha : a ≠ addr := by
        rintro rfl
        exact hx (update_self ..)
      obtain ⟨j, hj⟩ := h.busy x a (by rw [hbusy]; exact Option.some_ne_none a |>.symm)
      exact ⟨j, by simp [Lot.set, update_of_ne ha, hj]⟩
    · obtain ⟨j, hj⟩ := h.busy x a fun heq => hx ((update_of_ne hxg ..).trans heq)
      exact ⟨j, by simp [Lot.set, update_of_ne hxg, hj]⟩
  · have hword : (s.word addr).phase g = .idle i := hphase
    simp only [Word.step, hword, hstart, Option.map_some]
    exact congrArg some (Prod.ext (word_set ..).symm rfl)
  · exact fun other ho => word_set_of_ne (s := s) ho _

section

variable (hbusy : s.busy g = some addr)

include hbusy

theorem atomic_word {code : (prim (kind addr)).Code} (hphase : s.phase g addr = .run code)
    {effect : Nat → List (Nat × Next (prim (kind addr)).Code (prim (kind addr)).Idle)}
    (hinstr : (prim (kind addr)).instr code = .atomic effect) {choice : Nat}
    {out : Nat × Next (prim (kind addr)).Code (prim (kind addr)).Idle}
    (hout : (effect (s.mem addr))[choice]? = some out) :
    WordStep thread s g (({ s with mem := update s.mem addr out.1 } : Lot G kind prim).goOn g addr out.2).2
      (({ s with mem := update s.mem addr out.1 } : Lot G kind prim).goOn g addr out.2).1 := by
  have hfree := h.free hbusy ((h.queued addr).notMem_run hphase)
  have hmem : Frame { s with mem := update s.mem addr out.1 } := ⟨h.linked, h.home, h.busy⟩
  refine .of_word h (hmem.goOn hbusy hfree _) (.run g choice : Act (prim (kind addr)) G) rfl (home_of_busy hbusy) ?_ ?_
  · have hword : (s.word addr).phase g = .run code := hphase
    obtain ⟨hgo, hended⟩ := word_goOn ({ s with mem := update s.mem addr out.1 } : Lot G kind prim) g addr out.2
    rw [hgo, hended]
    simp only [Word.step, hword, hinstr, Word.runInstr]
    change Option.map _ ((effect (s.mem addr))[choice]?) = _
    rw [hout]
    refine congrArg some (Prod.ext ?_ rfl)
    congr 1
    simp [Lot.word]
  · intro other ho
    rw [word_goOn_of_ne ho]
    simp [Lot.word, update_of_ne ho]

theorem park_word {code next : (prim (kind addr)).Code} (choice : Nat) (hphase : s.phase g addr = .run code)
    {expected : Nat} {doomed : Next (prim (kind addr)).Code (prim (kind addr)).Idle}
    (hinstr : (prim (kind addr)).instr code = .wait expected next doomed) (hmem : s.mem addr = expected) :
    WordStep thread s g [] ((s.setBucket addr ((s.bucket (bucketOf addr)).push ⟨g, addr⟩)).set g addr
      (.parked next doomed)) := by
  have hnot := (h.queued addr).notMem_run hphase
  have hfree := h.free hbusy hnot
  have hlinked := h.linked (bucketOf addr)
  have hpush := hlinked.push (w := ⟨g, addr⟩) fun hmem' => by
    obtain ⟨w, hw, hg⟩ := mem_map.mp hmem'
    exact hfree _ w hw hg
  have hframe : Frame (s.setBucket addr ((s.bucket (bucketOf addr)).push ⟨g, addr⟩)) := by
    refine h.toFrame.setBucket _ hpush fun w hw => ?_
    rw [push_waiters hlinked, mem_append, mem_singleton] at hw
    rcases hw with hw | rfl
    · exact h.home _ w hw
    · exact ⟨rfl, hbusy⟩
  have hqueue := queue_setBucket s addr ((s.bucket (bucketOf addr)).push ⟨g, addr⟩) fun other ho => by
    rw [queue_push hlinked, if_neg (Ne.symm ho), append_nil]
  refine .of_word h (hframe.set hbusy _) (.run g choice : Act (prim (kind addr)) G) rfl (home_of_busy hbusy) ?_ ?_
  · have hword : (s.word addr).phase g = .run code := hphase
    rw [word_set]
    simp only [Word.step, hword, hinstr, Word.runInstr]
    rw [if_pos (show (s.word addr).word = expected from hmem)]
    refine congrArg some (Prod.ext (congrArg (Word.set · g _) (Word.ext rfl ?_ rfl)) rfl)
    refine Eq.trans ?_ ((hqueue addr).trans (if_pos rfl)).symm
    rw [queue_push hlinked, if_pos rfl]
    rfl
  · intro other ho
    rw [word_set_of_ne ho]
    exact Word.ext rfl ((hqueue other).trans (if_neg ho)) rfl

theorem wake_word {code : (prim (kind addr)).Code} (choice : Nat) (hphase : s.phase g addr = .run code)
    {count : Option Nat} {next : Next (prim (kind addr)).Code (prim (kind addr)).Idle}
    (hinstr : (prim (kind addr)).instr code = .wake count next) :
    WordStep thread s g (((s.setBucket addr ((s.bucket (bucketOf addr)).wake addr count).1).readyAll addr
        ((s.bucket (bucketOf addr)).wake addr count).2).goOn g addr next).2
      (((s.setBucket addr ((s.bucket (bucketOf addr)).wake addr count).1).readyAll addr
        ((s.bucket (bucketOf addr)).wake addr count).2).goOn g addr next).1 := by
  have hnot := (h.queued addr).notMem_run hphase
  have hfree := h.free hbusy hnot
  obtain ⟨hwoken, hlinked, hsub, hqueue, hsame⟩ := wake_eq (h.linked (bucketOf addr)) addr count
  have hbucket : Frame (s.setBucket addr ((s.bucket (bucketOf addr)).wake addr count).1) :=
    h.toFrame.setBucket _ hlinked fun w hw => h.home _ w (hsub.subset hw)
  have hwaits : ∀ x ∈ ((s.bucket (bucketOf addr)).wake addr count).2, s.busy x = some addr := by
    intro x hx
    rw [hwoken] at hx
    have hx' : x ∈ (s.bucket (bucketOf addr)).queue addr := by
      rw [taken_append count ((s.bucket (bucketOf addr)).queue addr)]
      exact mem_append_left _ hx
    obtain ⟨w, hw, rfl⟩ := mem_map.mp hx'
    obtain ⟨hw, haddr⟩ := mem_filter.mp hw
    rw [(h.home _ w hw).2]
    exact congrArg some (by simpa using haddr)
  have hqueues := queue_setBucket s addr _ hsame
  generalize ((s.bucket (bucketOf addr)).wake addr count).1 = b at *
  generalize ((s.bucket (bucketOf addr)).wake addr count).2 = woken at *
  have hready : Frame ((s.setBucket addr b).readyAll addr woken) := by
    refine ⟨hbucket.linked, hbucket.home, fun x a hx => ?_⟩
    obtain ⟨i, hi⟩ := h.busy x a hx
    refine ⟨i, ?_⟩
    change (if x ∈ woken then _ else s.phase x) a = _
    split
    · rename_i hmem
      have ha : a ≠ addr := by
        rintro rfl
        exact hx (hwaits x hmem)
      exact (update_of_ne ha ..).trans hi
    · exact hi
  have hphases : ∀ x, ((s.setBucket addr b).readyAll addr woken).phase x addr =
      Parking.ready woken (s.word addr).phase x := by
    intro x
    change (if x ∈ woken then _ else s.phase x) addr = _
    unfold Parking.ready
    split
    · exact update_self ..
    · rfl
  have hfree' : ∀ i, ∀ w ∈ (((s.setBucket addr b).readyAll addr woken).bucket i).waiters, w.g ≠ g := by
    intro i w hw
    by_cases hi : i = bucketOf addr
    · subst hi
      refine hfree _ w (hsub.subset ?_)
      simpa [Lot.readyAll, Lot.setBucket] using hw
    · refine hfree i w ?_
      simpa [Lot.readyAll, Lot.setBucket, update_of_ne hi] using hw
  refine .of_word h (hready.goOn hbusy hfree' next) (.run g choice : Act (prim (kind addr)) G) rfl
    (home_of_busy hbusy) ?_ ?_
  · have hword : (s.word addr).phase g = .run code := hphase
    obtain ⟨hgo, hended⟩ := word_goOn ((s.setBucket addr b).readyAll addr woken) g addr next
    rw [hgo, hended]
    simp only [Word.step, hword, hinstr, Word.runInstr]
    refine congrArg some (Prod.ext (congrArg (Word.set · g _) (Word.ext rfl ?_ ?_)) rfl)
    · exact (((hqueues addr).trans (if_pos rfl)).trans hqueue).symm
    · funext x
      refine Eq.trans ?_ (hphases x).symm
      rw [hwoken]
      rfl
  · intro other ho
    rw [word_goOn_of_ne ho]
    refine Word.ext rfl ((hqueues other).trans (if_neg ho)) ?_
    funext x
    change (if x ∈ woken then _ else s.phase x) other = _
    split
    · exact update_of_ne ho ..
    · rfl

theorem giveUp_word {next : (prim (kind addr)).Code} (choice : Nat)
    {doomed : Next (prim (kind addr)).Code (prim (kind addr)).Idle} (hphase : s.phase g addr = .doomed next doomed) :
    WordStep thread s g (s.giveUp g addr next doomed).2 (s.giveUp g addr next doomed).1 := by
  have hword : (s.word addr).phase g = .doomed next doomed := hphase
  obtain ⟨hfound, hwaiters, hlinked⟩ := unlink_eq (h.linked (bucketOf addr)) g
  have hbucket : Frame (s.setBucket addr ((s.bucket (bucketOf addr)).unlink g).1) := by
    refine h.toFrame.setBucket _ hlinked fun w hw => h.home _ w ?_
    rw [hwaiters] at hw
    exact mem_of_mem_filter hw
  -- the only record of `g` is the one of this wait
  have hmem : g ∈ (s.bucket (bucketOf addr)).waiters.map (·.g) ↔ g ∈ (s.word addr).queue := by
    constructor
    · intro hmem
      by_contra hnot
      obtain ⟨w, hw, hg⟩ := mem_map.mp hmem
      exact h.free hbusy hnot _ w hw hg
    · intro hmem
      obtain ⟨w, hw, hg⟩ := mem_map.mp hmem
      exact mem_map.mpr ⟨w, mem_of_mem_filter hw, hg⟩
  have hqueue : ∀ other, ((s.bucket (bucketOf addr)).unlink g).1.queue other =
      ((s.bucket (bucketOf addr)).queue other).filter (· ≠ g) := by
    intro other
    unfold Bucket.queue
    rw [hwaiters, filter_map, filter_filter, filter_filter]
    congr 1
    refine filter_congr fun w _ => ?_
    simp [Bool.and_comm]
  have hsame : ∀ other, other ≠ addr → ((s.bucket (bucketOf addr)).unlink g).1.queue other =
      (s.bucket (bucketOf addr)).queue other := by
    intro other ho
    rw [hqueue, filter_eq_self]
    rintro x hx
    refine decide_eq_true fun heq => ?_
    subst heq
    obtain ⟨w, hw, rfl⟩ := mem_map.mp hx
    obtain ⟨hw, haddr⟩ := mem_filter.mp hw
    have := Option.some.inj ((h.home _ w hw).2.symm.trans hbusy)
    exact ho ((of_decide_eq_true haddr).symm.trans this)
  have hqueues := queue_setBucket s addr _ hsame
  have herase : ((s.bucket (bucketOf addr)).unlink g).1.queue addr = (s.word addr).queue.erase g := by
    rw [hqueue, (h.queued addr).nodup.erase_eq_filter]
    exact filter_congr fun x _ => by by_cases hx : x = g <;> simp [hx]
  unfold Lot.giveUp
  dsimp only
  rw [hfound]
  by_cases hin : g ∈ (s.word addr).queue
  · rw [if_pos (decide_eq_true (hmem.mpr hin))]
    have hfree : ∀ i, ∀ w ∈ ((s.setBucket addr ((s.bucket (bucketOf addr)).unlink g).1).bucket i).waiters, w.g ≠ g := by
      rintro i w hw rfl
      obtain ⟨hhome, hb⟩ := hbucket.home i w hw
      obtain rfl : w.addr = addr := Option.some.inj (hb.symm.trans hbusy)
      subst hhome
      unfold Lot.setBucket at hw
      dsimp only at hw
      rw [update_self, hwaiters] at hw
      simpa using (mem_filter.mp hw).2
    refine .of_word h (hbucket.goOn hbusy hfree doomed) (.run g choice : Act (prim (kind addr)) G) rfl
      (home_of_busy hbusy) ?_ ?_
    · obtain ⟨hgo, hended⟩ := word_goOn (s.setBucket addr ((s.bucket (bucketOf addr)).unlink g).1) g addr doomed
      rw [hgo, hended]
      simp only [Word.step, hword, Word.giveUp, if_pos hin]
      refine congrArg some (Prod.ext (congrArg (Word.set · g _) (Word.ext rfl ?_ rfl)) rfl)
      exact (((hqueues addr).trans (if_pos rfl)).trans herase).symm
    · intro other ho
      rw [word_goOn_of_ne ho]
      exact Word.ext rfl ((hqueues other).trans (if_neg ho)) rfl
  · rw [if_neg fun hx => hin (hmem.mp (of_decide_eq_true hx))]
    refine .of_word h (hbucket.set hbusy _) (.run g choice : Act (prim (kind addr)) G) rfl (home_of_busy hbusy) ?_ ?_
    · rw [word_set]
      simp only [Word.step, hword, Word.giveUp, if_neg hin]
      refine congrArg some (Prod.ext (congrArg (Word.set · g _) (Word.ext rfl ?_ rfl)) rfl)
      exact (((hqueues addr).trans (if_pos rfl)).trans (herase.trans (erase_of_not_mem hin))).symm
    · intro other ho
      rw [word_set_of_ne ho]
      exact Word.ext rfl ((hqueues other).trans (if_neg ho)) rfl

end

theorem step_word {a : LotAct G kind prim} (hstep : s.step thread a = some (t, es)) :
    WordStep thread s a.party es t := by
  cases a with
  | start g addr op =>
    simp only [Lot.step] at hstep
    split at hstep
    · rename_i hbusy
      split at hstep
      · rename_i hphase
        obtain ⟨code, hstart, heq⟩ := Option.map_eq_some_iff.mp hstep
        cases heq
        exact start_word h hbusy hphase hstart
      · exact nomatch hstep
    · exact nomatch hstep
  | run g choice =>
    simp only [Lot.step, Option.bind_eq_bind, Option.bind_eq_some_iff] at hstep
    obtain ⟨addr, hbusy, hstep⟩ := hstep
    split at hstep
    · rename_i code hphase
      cases hinstr : (prim (kind addr)).instr code with
      | atomic effect =>
        rw [hinstr] at hstep
        obtain ⟨out, hout, heq⟩ := Option.map_eq_some_iff.mp hstep
        obtain ⟨rfl, rfl⟩ := Prod.mk.inj heq
        exact atomic_word h hbusy hphase hinstr hout
      | wait expected next doomed =>
        rw [hinstr] at hstep
        unfold Lot.runInstr at hstep
        dsimp only at hstep
        split at hstep
        · rename_i hmem
          cases hstep
          exact park_word h hbusy choice hphase hinstr hmem
        · rename_i hmem
          cases hstep
          refine .of_word h (h.toFrame.set hbusy _) (.run g choice : Act (prim (kind addr)) G) rfl
            (home_of_busy hbusy) ?_
            fun other ho => word_set_of_ne ho _
          have hword : (s.word addr).phase g = .run code := hphase
          rw [word_set]
          simp only [Word.step, hword, hinstr, Word.runInstr]
          exact if_neg hmem
      | wake count next =>
        rw [hinstr] at hstep
        obtain ⟨rfl, rfl⟩ := Prod.mk.inj (Option.some.inj hstep)
        exact wake_word h hbusy choice hphase hinstr
    · rename_i next doomed hphase
      obtain ⟨rfl, rfl⟩ := Prod.mk.inj (Option.some.inj hstep)
      exact giveUp_word h hbusy choice hphase
    · exact nomatch hstep
  | doom g =>
    simp only [Lot.step, Option.bind_eq_bind, Option.bind_eq_some_iff] at hstep
    obtain ⟨addr, hbusy, hstep⟩ := hstep
    split at hstep
    · rename_i next doomed hphase
      split at hstep
      · rename_i hthread
        cases hstep
        refine .of_word h (h.toFrame.set hbusy _) (.doom g : Act (prim (kind addr)) G) rfl (home_of_busy hbusy) ?_
          fun other ho => word_set_of_ne ho _
        have hword : (s.word addr).phase g = .parked next doomed := hphase
        rw [word_set]
        simp only [Word.step, hword, hthread, if_true]
      · exact nomatch hstep
    · exact nomatch hstep

end Steps

section Busy

variable {thread : G → Bool} {s t : Lot G kind prim} {g : G} {es : List (G × Nat)}

theorem busy_goOn (s : Lot G kind prim) (g : G) {addr : Nat}
    (next : Next (prim (kind addr)).Code (prim (kind addr)).Idle) :
    ((s.goOn g addr next).2 = [] ∧ (s.goOn g addr next).1.busy = s.busy) ∨
      ∃ status, (s.goOn g addr next).2 = [(g, status)] ∧ (s.goOn g addr next).1.busy = update s.busy g none := by
  cases next with
  | goto code => exact .inl ⟨rfl, rfl⟩
  | ends i status => exact .inr ⟨status, rfl, rfl⟩

theorem run_busy {choice : Nat} (hstep : s.step thread (.run g choice) = some (t, es)) :
    ∃ addr, s.busy g = some addr ∧ ((es = [] ∧ t.busy = s.busy) ∨
      ∃ status, es = [(g, status)] ∧ t.busy = update s.busy g none) := by
  simp only [Lot.step, Option.bind_eq_bind, Option.bind_eq_some_iff] at hstep
  obtain ⟨addr, hbusy, hstep⟩ := hstep
  refine ⟨addr, hbusy, ?_⟩
  split at hstep
  · rename_i code hphase
    cases hinstr : (prim (kind addr)).instr code with
    | atomic effect =>
      rw [hinstr] at hstep
      obtain ⟨out, -, heq⟩ := Option.map_eq_some_iff.mp hstep
      obtain ⟨rfl, rfl⟩ := Prod.mk.inj heq
      exact busy_goOn ..
    | wait expected next doomed =>
      rw [hinstr] at hstep
      unfold Lot.runInstr at hstep
      dsimp only at hstep
      split at hstep <;> obtain ⟨rfl, rfl⟩ := Prod.mk.inj (Option.some.inj hstep) <;> exact .inl ⟨rfl, rfl⟩
    | wake count next =>
      rw [hinstr] at hstep
      obtain ⟨rfl, rfl⟩ := Prod.mk.inj (Option.some.inj hstep)
      exact busy_goOn ..
  · unfold Lot.giveUp at hstep
    dsimp only at hstep
    split at hstep
    · obtain heq := Option.some.inj hstep
      obtain ⟨rfl, rfl⟩ := Prod.mk.inj heq
      exact busy_goOn ..
    · cases hstep
      exact .inl ⟨rfl, rfl⟩
  · exact nomatch hstep

theorem start_busy {addr : Nat} {op : (prim (kind addr)).Op} (hstep : s.step thread (.start g addr op) = some (t, es)) :
    es = [] ∧ s.busy g = none ∧ t.busy = update s.busy g (some addr) ∧
      (∃ i code, s.phase g addr = .idle i ∧ (prim (kind addr)).start i op = some code ∧ t.phase g addr = .run code) ∧
      (∀ other, other ≠ addr → t.phase g other = s.phase g other) ∧ ∀ x, x ≠ g → t.phase x = s.phase x := by
  simp only [Lot.step] at hstep
  split at hstep
  · rename_i hbusy
    split at hstep
    · rename_i hphase
      obtain ⟨code, hstart, heq⟩ := Option.map_eq_some_iff.mp hstep
      cases heq
      refine ⟨rfl, hbusy, rfl, ⟨_, code, hphase, hstart, by simp [Lot.set]⟩, fun other ho => ?_, fun x hx => ?_⟩
      · simp [Lot.set, update_of_ne ho]
      · simp [Lot.set, update_of_ne hx]
    · exact nomatch hstep
  · exact nomatch hstep

theorem doom_busy (hstep : s.step thread (.doom g) = some (t, es)) :
    ∃ addr, s.busy g = some addr ∧ es = [] ∧ t.busy = s.busy := by
  simp only [Lot.step, Option.bind_eq_bind, Option.bind_eq_some_iff] at hstep
  obtain ⟨addr, hbusy, hstep⟩ := hstep
  split at hstep
  · split at hstep
    · cases hstep
      exact ⟨addr, hbusy, rfl, rfl⟩
    · exact nomatch hstep
  · exact nomatch hstep

end Busy

def Lot.untouched (mem : Nat → Nat) (idle : (addr : Nat) → (prim (kind addr)).Idle) : Lot G kind prim where
  mem := mem
  bucket _ := ⟨[], none⟩
  phase _ addr := .idle (idle addr)
  busy _ := none

omit [DecidableEq G] in
theorem lotInv_untouched (mem : Nat → Nat) (idle : (addr : Nat) → (prim (kind addr)).Idle) :
    LotInv (Lot.untouched mem idle : Lot G kind prim) where
  linked _ := ⟨rfl, nodup_nil⟩
  home _ _ h := absurd h not_mem_nil
  busy _ addr _ := ⟨idle addr, rfl⟩
  queued _ := ⟨nodup_nil, nofun, nofun, nofun⟩

end Tsuzuri.ParkingLot
