import Tsuzuri.Sync

/-!
# What each word promises

The invariants of the words by themselves. The others wake all (`justified_move`).
-/

namespace Tsuzuri.Sync

open Parking ParkingLot Transition List
open RwMutex (wrap rwMutex Hold)

variable {G : Type} [DecidableEq G] [Fintype G]

/-! ## Mutex -/

variable {word word' : Nat} {g : G}

namespace Mutex

def holding : Bool ⊕ Code → Prop
  | .inl held => held = true
  | .inr (.tryLock held) => held = true
  | .inr (.spin held _) => held = true
  | .inr (.spinTake held _) => held = true
  | .inr (.exchange held) => held = true
  | .inr (.wait held) => held = true
  | .inr .unlock => True
  | .inr .wake => False

instance : DecidablePred holding := fun place => by
  unfold holding
  split <;> infer_instance

def holders (s : Word mutex G) : Nat := tally fun g => holding (s.phase g).place

theorem holding_respin (held : Bool) (n : Nat) : holding (.inr (respin held n)) ↔ held = true := by
  unfold respin
  split <;> rfl

theorem mem_tryLock {held : Bool} {effect : Nat → List (Nat × Next Code Bool)} {next : Next Code Bool}
    (hinstr : instr (.tryLock held) = .atomic effect) (h : (word', next) ∈ effect word) :
    (word = 0 ∧ word' = 1 ∧ next = .ends true 0) ∨ (word' = word ∧ next = .goto (.spin held 0)) := by
  cases hinstr
  dsimp only at h
  split at h
  · rename_i hzero
    obtain ⟨rfl, rfl⟩ := Prod.mk.inj (mem_singleton.mp h)
    exact .inl ⟨hzero, rfl, rfl⟩
  · obtain ⟨rfl, rfl⟩ := Prod.mk.inj (mem_singleton.mp h)
    exact .inr ⟨rfl, rfl⟩

theorem shift_holders {h h' : Nat} {p p' : Bool ⊕ Code} (hword : word ≤ 2)
    (hheld : h = if word = 0 then 0 else 1) (hpos : one (holding p) ≤ h)
    (hcount : h' + one (holding p) = h + one (holding p')) (hshift : @Shift mutex word p word' p') :
    word' ≤ 2 ∧ h' = if word' = 0 then 0 else 1 := by
  have hsame : (holding p ↔ holding p') → word ≤ 2 ∧ h' = if word = 0 then 0 else 1 := by
    intro hiff
    simp only [one, hiff] at hcount
    exact ⟨hword, by omega⟩
  -- a free lock is taken
  have htaken : word = 0 → p' = .inl true → h' = 1 := by
    rintro rfl rfl
    rw [if_pos rfl] at hheld
    rw [show one (holding (.inl true)) = 1 from rfl] at hcount
    omega
  rcases hshift.elim with ⟨code, effect, next, rfl, rfl, hinstr, hmem⟩ | ⟨rfl, hquiet⟩
  · cases code with
    | tryLock held =>
      rcases mem_tryLock hinstr hmem with ⟨hzero, rfl, rfl⟩ | ⟨rfl, rfl⟩
      · exact ⟨by decide, htaken hzero rfl⟩
      · exact hsame Iff.rfl
    | spin held n =>
      obtain ⟨rfl, rfl⟩ := Instr.single hinstr hmem rfl
      refine hsame ?_
      by_cases hzero : word' = 0
      · rw [if_pos hzero]
        rfl
      · rw [if_neg hzero]
        exact (holding_respin held n).symm
    | spinTake held n =>
      cases hinstr
      rcases mem_exchange hmem with ⟨hzero, rfl, rfl⟩ | ⟨rfl, rfl⟩
      · exact ⟨by decide, htaken hzero rfl⟩
      · exact hsame (holding_respin held n).symm
    | exchange held =>
      obtain ⟨rfl, rfl⟩ := Instr.single hinstr hmem rfl
      by_cases hzero : word = 0
      · rw [if_pos hzero] at htaken
        exact ⟨le_rfl, htaken hzero rfl⟩
      · rw [if_neg hzero] at hcount hheld
        have hiff : one (holding (Next.place (P := mutex) (.goto (.wait held)))) =
          one (holding (.inr (.exchange held))) := rfl
        exact ⟨le_rfl, by rw [if_neg (by decide)]; omega⟩
    | unlock =>
      obtain ⟨rfl, rfl⟩ := Instr.single hinstr hmem rfl
      refine ⟨Nat.zero_le _, ?_⟩
      have hgone : one (holding (Next.place (P := mutex) (if word = 2 then .goto .wake else .ends false 0))) = 0 := by
        split <;> rfl
      rw [hgone, show one (holding (.inr .unlock)) = 1 from rfl] at hcount
      rw [if_pos rfl]
      split at hheld <;> omega
    | wait held => exact nomatch hinstr
    | wake => exact nomatch hinstr
  · rcases hquiet with ⟨i, op, code, rfl, rfl, hstart⟩ | ⟨code, expected, next, doomed, hinstr, hto⟩ |
      ⟨code, count, next, hinstr, rfl, rfl⟩ | rfl
    · refine hsame ?_
      cases op with
      | lock =>
        cases hstart
        exact Iff.rfl
      | unlock =>
        cases i with
        | true =>
          cases hstart
          exact iff_of_true rfl trivial
        | false => exact nomatch hstart
    · cases code with
      | wait held =>
        obtain ⟨-, rfl, rfl⟩ := Instr.wait.inj hinstr
        rcases hto with ⟨rfl, rfl⟩ | ⟨rfl, rfl⟩ <;> exact hsame Iff.rfl
      | _ => exact nomatch hinstr
    · cases code with
      | wake =>
        obtain ⟨-, rfl⟩ := Instr.wake.inj hinstr
        exact hsame (iff_of_false id nofun)
      | _ => exact nomatch hinstr
    · exact hsame Iff.rfl

def Pending (s : Word mutex G) : Prop :=
  (∃ g, g ∉ s.queue ∧ ∃ held, (s.phase g).place = .inr (.exchange held)) ∨ ∃ g, s.phase g = .run .wake

end Mutex

structure MutexInv (s : Word mutex G) : Prop where
  queued : Queued s
  word_le : s.word ≤ 2
  holders_eq : Mutex.holders s = if s.word = 0 then 0 else 1
  awake : s.queue ≠ [] → s.word = 2 ∨ Mutex.Pending s

namespace Mutex

variable {s t : Word mutex G} {g : G} {es : List (G × Nat)}

omit [Fintype G] in
theorem Pending.move (h : Pending s) (hmove : Move s g t es)
    (hplace : ∀ held, (s.phase g).place = .inr (.exchange held) → g ∈ s.queue) (hrun : s.phase g ≠ .run .wake) :
    Pending t := by
  rcases h with ⟨x, hx, held, hp⟩ | ⟨x, hp⟩
  · have hxg : x ≠ g := by
      rintro rfl
      exact hx (hplace held hp)
    exact .inl ⟨x, fun hmem => hx (hmove.mem_queue hxg hmem), held, (hmove.place_of_ne hxg).trans hp⟩
  · have hxg : x ≠ g := by
      rintro rfl
      exact hrun hp
    exact .inr ⟨x, hmove.run_of_ne hxg hp⟩

theorem wait_next {code next : Code} {expected : Nat} {doomed : Next Code Bool}
    (hinstr : instr code = .wait expected next doomed) : expected = 2 ∧ ∃ held, next = .exchange held := by
  cases code with
  | wait held =>
    obtain ⟨rfl, rfl, -⟩ := Instr.wait.inj hinstr
    exact ⟨rfl, held, rfl⟩
  | _ => exact nomatch hinstr

omit [Fintype G] in
theorem awake_move (hq : Queued s) (h : s.queue ≠ [] → s.word = 2 ∨ Pending s) (hmove : Move s g t es)
    (hne : t.queue ≠ []) : t.word = 2 ∨ Pending t := by
  cases hmove with
  | start hphase hstart =>
    refine (h hne).imp_right fun hpending => hpending.move (.start hphase hstart) ?_ ?_
    · intro held hplace
      rw [hphase] at hplace
      cases hplace
    · exact fun hrun => by cases hphase.symm.trans hrun
  | atomic hphase hinstr hmem =>
    rename_i code effect word next
    -- what holds at a point that is not the exchange
    have hkeep : (∀ held, code ≠ .exchange held) → s.word = 2 ∨ Pending ({ s with word := word }.set g next.phase) := by
      intro hcode
      refine (h hne).imp_right fun hpending => hpending.move (.atomic hphase hinstr hmem) ?_ ?_
      · intro held hplace
        rw [hphase] at hplace
        exact absurd (Sum.inr.inj hplace) (hcode held)
      · rintro hrun
        obtain rfl := Phase.run.inj (hphase.symm.trans hrun)
        cases hinstr
    cases code with
    | tryLock held =>
      rcases mem_tryLock hinstr hmem with ⟨hzero, rfl, rfl⟩ | ⟨rfl, rfl⟩
      · exact .inr ((hkeep (by simp)).resolve_left (by omega))
      · exact hkeep (by simp)
    | spin held n =>
      obtain ⟨rfl, -⟩ := Instr.single hinstr hmem rfl
      exact hkeep (by simp)
    | spinTake held n =>
      cases hinstr
      rcases mem_exchange hmem with ⟨hzero, rfl, rfl⟩ | ⟨rfl, rfl⟩
      · exact .inr ((hkeep (by simp)).resolve_left (by omega))
      · exact hkeep (by simp)
    | exchange held =>
      obtain ⟨rfl, -⟩ := Instr.single hinstr hmem rfl
      exact .inl rfl
    | unlock =>
      obtain ⟨rfl, rfl⟩ := Instr.single hinstr hmem rfl
      by_cases htwo : s.word = 2
      · refine .inr (.inr ⟨g, ?_⟩)
        rw [Word.set_self, if_pos htwo]
        rfl
      · exact .inr ((hkeep (by simp)).resolve_left htwo)
    | wait held => cases hinstr
    | wake => cases hinstr
  | park hphase hinstr hword =>
    obtain ⟨rfl, -⟩ := wait_next hinstr
    exact .inl hword
  | pass hphase hinstr hword =>
    obtain ⟨-, held, rfl⟩ := wait_next hinstr
    refine .inr (.inl ⟨g, hq.notMem_run hphase, held, ?_⟩)
    rw [Word.set_self]
    rfl
  | wake hphase hinstr =>
    obtain ⟨x, rest, hqueue⟩ := exists_cons_of_ne_nil fun hnil : s.queue = [] =>
      hne (by simp [Word.set, hnil])
    rename_i code count next
    cases code with
    | wake =>
      obtain ⟨rfl, rfl⟩ := Instr.wake.inj hinstr
      have hx : x ∈ s.queue := hqueue ▸ mem_cons_self
      have hxg : x ≠ g := by
        rintro rfl
        exact hq.notMem_run hphase hx
      -- the waiter that is taken out looks again
      obtain ⟨n, d, hplace, code, expected, hwait⟩ := hq.waits x hx
      obtain ⟨-, held, rfl⟩ := wait_next hwait
      refine .inr (.inl ⟨x, ?_, held, ?_⟩)
      · have hnodup := hq.nodup
        rw [hqueue] at hnodup
        simpa [Word.set, taken, hqueue] using (nodup_cons.mp hnodup).1
      · rw [Move.place_of_ne (.wake hphase hinstr) hxg]
        rcases hplace with hplace | hplace <;> rw [hplace] <;> rfl
    | _ => cases hinstr
  | leave hphase hmem =>
    refine (h (ne_nil_of_mem hmem)).imp_right fun hpending => hpending.move (.leave hphase hmem) ?_ ?_
    · exact fun _ _ => hmem
    · exact fun hrun => by cases hphase.symm.trans hrun
  | late hphase hmem =>
    obtain ⟨code, expected, hinstr⟩ := hq.doomed g _ _ hphase
    obtain ⟨-, held, rfl⟩ := wait_next hinstr
    refine .inr (.inl ⟨g, hmem, held, ?_⟩)
    rw [Word.set_self]
    rfl
  | doom hphase =>
    refine (h hne).imp_right fun hpending => hpending.move (.doom hphase) ?_ ?_
    · exact fun _ _ => hq.parked g _ _ hphase
    · exact fun hrun => by cases hphase.symm.trans hrun

end Mutex

section Mutex

variable {s t : Word mutex G} {g : G} {es : List (G × Nat)}

theorem MutexInv.move (h : MutexInv s) (hmove : Move s g t es) : MutexInv t := by
  obtain ⟨hle, hholders⟩ := Mutex.shift_holders h.word_le h.holders_eq
    (le_tally (p := fun x => Mutex.holding (s.phase x).place) g) (hmove.tally Mutex.holding) (hmove.shift h.queued)
  exact ⟨h.queued.move hmove, hle, hholders, Mutex.awake_move h.queued h.awake hmove⟩

omit [DecidableEq G] in
theorem MutexInv.unique (h : MutexInv s) {x : G} (hg : Mutex.holding (s.phase g).place)
    (hx : Mutex.holding (s.phase x).place) : g = x := by
  by_contra hne
  have htwo : 2 ≤ Mutex.holders s := two_le_tally hne hg hx
  have hle := h.holders_eq
  split at hle <;> omega

omit [DecidableEq G] in
theorem MutexInv.held_of_quiet (h : MutexInv s) (hquiet : Quiet s) (hne : s.queue ≠ []) :
    ∃ x, Mutex.holding (s.phase x).place := by
  have hword : s.word = 2 := (h.awake hne).resolve_right (by
    rintro (⟨x, hx, held, hplace⟩ | ⟨x, hrun⟩)
    · obtain ⟨place, hrest⟩ := Option.ne_none_iff_exists'.mp (hquiet x)
      obtain rfl := (Phase.place_of_rest hrest).symm.trans hplace
      exact hx (h.queued.mem_of_rest hrest)
    · exact hquiet x (by rw [hrun]; rfl))
  have hholders := h.holders_eq
  rw [if_neg (by omega)] at hholders
  exact exists_of_tally (hholders.trans_ne Nat.one_ne_zero)

end Mutex

/-! ## Once -/

namespace Once

def Code.caller : Code → Caller
  | .load c => c
  | .take c => c
  | .wait c => c
  | .store c => c
  | .wake c => c

def caller : Caller ⊕ Code → Caller
  | .inl c => c
  | .inr code => code.caller

def begun (s : Word once G) : Nat := ∑ g, (caller (s.phase g).place).begun

def runners (s : Word once G) : Nat := tally fun g => (caller (s.phase g).place).running = true

def blocked : Code → Nat → Prop
  | .load _, word => word = 1
  | _, _ => False

/-- What a step does to the word and its caller. -/
inductive Change (word : Nat) : Caller ⊕ Code → Nat → Caller → Prop
  | same {p} : Change word p word (caller p)
  | pass {p} (done : word = 2) : Change word p word { caller p with passed := true }
  | take {p} (free : word = 0) : Change word p 1 { caller p with begun := (caller p).begun + 1, running := true }
  | store {c} : Change word (.inr (.store c)) 2 { c with running := false }

theorem shift_change {p p' : Caller ⊕ Code} (hshift : @Shift once word p word' p') : Change word p word' (caller p') ∧
      ∀ c, p' = .inr (.store c) → p = p' ∨ c.running = true := by
  rcases hshift.elim with ⟨code, effect, next, rfl, rfl, hinstr, hmem⟩ | ⟨rfl, hquiet⟩
  · cases code with
    | load c =>
      obtain ⟨rfl, rfl⟩ := Instr.single hinstr hmem rfl
      by_cases hdone : word' = 2
      · rw [if_pos hdone]
        exact ⟨.pass (p := .inr (.load c)) hdone, nofun⟩
      · rw [if_neg hdone]
        by_cases hfree : word' = 0
        · rw [if_pos hfree]
          exact ⟨.same (p := .inr (.load c)), nofun⟩
        · rw [if_neg hfree]
          exact ⟨.same (p := .inr (.load c)), nofun⟩
    | take c =>
      cases hinstr
      rcases mem_exchange hmem with ⟨hfree, rfl, rfl⟩ | ⟨rfl, rfl⟩
      · exact ⟨.take (p := .inr (.take c)) hfree, nofun⟩
      · exact ⟨.same (p := .inr (.take c)), nofun⟩
    | store c =>
      obtain ⟨rfl, rfl⟩ := Instr.single hinstr hmem rfl
      exact ⟨.store, nofun⟩
    | wait c => exact nomatch hinstr
    | wake c => exact nomatch hinstr
  · rcases hquiet with ⟨c, op, code, rfl, rfl, hstart⟩ | ⟨code, expected, next, doomed, hinstr, hto⟩ |
      ⟨code, count, next, hinstr, rfl, rfl⟩ | rfl
    · cases op with
      | begin =>
        cases hstart
        exact ⟨.same (p := .inl c), nofun⟩
      | done =>
        obtain ⟨hrunning, heq⟩ := Option.ite_none_right_eq_some.mp hstart
        cases heq
        refine ⟨.same (p := .inl c), fun c' hc => .inr ?_⟩
        obtain rfl := Code.store.inj (Sum.inr.inj hc)
        exact hrunning
    · cases code with
      | wait c =>
        obtain ⟨-, rfl, rfl⟩ := Instr.wait.inj hinstr
        rcases hto with ⟨rfl, rfl⟩ | ⟨rfl, rfl⟩
        · exact ⟨.same (p := .inr (.wait c)), nofun⟩
        · exact ⟨.same (p := .inr (.load c)), nofun⟩
      | _ => exact nomatch hinstr
    · cases code with
      | wake c =>
        obtain ⟨-, rfl⟩ := Instr.wake.inj hinstr
        exact ⟨.same (p := .inr (.wake c)), nofun⟩
      | _ => exact nomatch hinstr
    · exact ⟨.same, fun _ _ => .inl rfl⟩

end Once

/-- The word tells how far the function is. -/
structure OnceInv (s : Word once G) : Prop where
  queued : Queued s
  word_le : s.word ≤ 2
  begun_eq : Once.begun s = if s.word = 0 then 0 else 1
  runners_eq : Once.runners s = if s.word = 1 then 1 else 0
  storing : ∀ g c, (s.phase g).place = .inr (.store c) → c.running = true
  passed : ∀ g, (Once.caller (s.phase g).place).passed = true → s.word = 2
  justified : ∀ x ∈ s.queue, ∀ next, (s.phase x).place = .inr next → Once.blocked next s.word ∨ Waking s

section Once

variable {s t : Word once G} {g : G} {es : List (G × Nat)}

theorem OnceInv.counts (h : OnceInv s) (hmove : Move s g t es) :
    t.word ≤ 2 ∧ (Once.begun t = if t.word = 0 then 0 else 1) ∧ (Once.runners t = if t.word = 1 then 1 else 0) ∧
      (s.word = 2 → t.word = 2) ∧ ((Once.caller (t.phase g).place).passed = true → t.word = 2) := by
  have hbegun : Once.begun t + (Once.caller (s.phase g).place).begun =
      Once.begun s + (Once.caller (t.phase g).place).begun := hmove.sum fun p => (Once.caller p).begun
  have hrunners : Once.runners t + one ((Once.caller (s.phase g).place).running = true) =
      Once.runners s + one ((Once.caller (t.phase g).place).running = true) :=
    hmove.tally fun p => (Once.caller p).running = true
  have hpos : one ((Once.caller (s.phase g).place).running = true) ≤ Once.runners s :=
    le_tally (p := fun x => (Once.caller (s.phase x).place).running = true) g
  have hbegun_eq := h.begun_eq
  have hrunners_eq := h.runners_eq
  have hpassed := h.passed g
  have hstoring := h.storing g
  have hle := h.word_le
  have hchange := (Once.shift_change (hmove.shift h.queued)).1
  generalize Once.caller (t.phase g).place = c' at *
  generalize (s.phase g).place = p at *
  generalize t.word = word' at *
  cases hchange with
  | same => exact ⟨hle, by omega, by omega, id, hpassed⟩
  | pass hdone =>
    dsimp only at hbegun hrunners
    exact ⟨hle, by omega, by omega, id, fun _ => hdone⟩
  | take hfree =>
    rw [if_pos hfree] at hbegun_eq
    rw [if_neg (by omega)] at hrunners_eq
    have hone : one ((true : Bool) = true) = 1 := rfl
    refine ⟨by decide, ?_, ?_, fun htwo => absurd (hfree.symm.trans htwo) (by decide), fun hp => ?_⟩
    · simp at hbegun ⊢
      omega
    · simp at hrunners hpos ⊢
      omega
    · exact absurd (hfree.symm.trans (hpassed hp)) (by decide)
  | store =>
    rename_i c
    have hrunning : (Once.caller (.inr (.store c))).running = true := hstoring c rfl
    -- the caller that stores is the one in the function
    rw [one, if_pos hrunning] at hrunners hpos
    have hone : s.word = 1 := by
      by_contra hne
      rw [if_neg hne] at hrunners_eq
      omega
    rw [hone] at hbegun_eq hrunners_eq
    simp at hbegun_eq hrunners_eq
    have hbegun' : Once.begun t = Once.begun s := Nat.add_right_cancel hbegun
    simp at hrunners
    exact ⟨le_rfl, by rw [hbegun']; exact hbegun_eq, by rw [if_neg (by decide)]; omega, fun _ => rfl, fun _ => rfl⟩

theorem OnceInv.move (h : OnceInv s) (hmove : Move s g t es) : OnceInv t := by
  obtain ⟨hle, hbegun, hrunners, htwo, hpassed⟩ := h.counts hmove
  refine ⟨h.queued.move hmove, hle, hbegun, hrunners, fun x c hplace => ?_, fun x hx => ?_, ?_⟩
  · by_cases hxg : x = g
    · subst hxg
      rcases (Once.shift_change (hmove.shift h.queued)).2 c hplace with hsame | hrunning
      · exact h.storing x c (hsame.trans hplace)
      · exact hrunning
    · exact h.storing x c ((hmove.place_of_ne hxg).symm.trans hplace)
  · by_cases hxg : x = g
    · subst hxg
      exact hpassed hx
    · rw [hmove.place_of_ne hxg] at hx
      exact htwo (h.passed x hx)
  · refine justified_move h.queued hmove h.justified ?_ ?_
    · intro code expected next doomed hphase hinstr hword
      cases code with
      | wait c =>
        obtain ⟨rfl, rfl, -⟩ := Instr.wait.inj hinstr
        exact hword
      | _ => exact nomatch hinstr
    · intro code effect word next hphase hinstr hmem _ _ x hx n hplace hblocked
      cases code with
      | load c =>
        obtain ⟨rfl, -⟩ := Instr.single hinstr hmem rfl
        exact .inl hblocked
      | take c =>
        cases hinstr
        rcases mem_exchange hmem with ⟨hfree, rfl, rfl⟩ | ⟨rfl, rfl⟩
        · cases n with
          | load c' => exact .inl rfl
          | _ => exact hblocked.elim
        · exact .inl hblocked
      | store c =>
        obtain ⟨rfl, rfl⟩ := Instr.single hinstr hmem rfl
        exact .inr ⟨_, _, rfl, rfl⟩
      | wait c | wake c => exact nomatch hinstr

end Once

namespace WaitGroup

def blocked : Code → Nat → Prop
  | .load, word => word ≠ 0
  | _, _ => False

end WaitGroup

structure WaitGroupInv (s : Word waitGroup G) : Prop where
  queued : Queued s
  loaded : ∀ g v, (s.phase g).place = .inr (.wait v) → v ≠ 0
  justified : ∀ x ∈ s.queue, ∀ next, (s.phase x).place = .inr next → WaitGroup.blocked next s.word ∨ Waking s

section WaitGroup

variable {s t : Word waitGroup G} {g : G} {es : List (G × Nat)}

namespace WaitGroup

theorem shift_loaded {p p' : Unit ⊕ Code} (hshift : @Shift waitGroup word p word' p') {v : Nat}
    (hp' : p' = .inr (.wait v)) : p = p' ∨ v ≠ 0 := by
  rcases hshift.elim with ⟨code, effect, next, rfl, rfl, hinstr, hmem⟩ | ⟨rfl, hquiet⟩
  · cases code with
    | add delta =>
      obtain ⟨rfl, rfl⟩ := Instr.single hinstr hmem rfl
      split at hp'
      · exact nomatch hp'
      · split at hp' <;> exact nomatch hp'
    | load =>
      obtain ⟨rfl, rfl⟩ := Instr.single hinstr hmem rfl
      split at hp'
      · exact nomatch hp'
      · rename_i hne
        obtain rfl := Code.wait.inj (Sum.inr.inj hp')
        exact .inr hne
    | wake => exact nomatch hinstr
    | wait v => exact nomatch hinstr
  · rcases hquiet with ⟨i, op, code, rfl, rfl, hstart⟩ | ⟨code, expected, next, doomed, hinstr, hto⟩ |
      ⟨code, count, next, hinstr, rfl, rfl⟩ | rfl
    · cases op <;> obtain rfl := Option.some.inj hstart <;> exact nomatch hp'
    · cases code with
      | wait v =>
        obtain ⟨-, rfl, rfl⟩ := Instr.wait.inj hinstr
        rcases hto with ⟨rfl, rfl⟩ | ⟨rfl, rfl⟩ <;> exact nomatch hp'
      | _ => exact nomatch hinstr
    · cases code with
      | wake =>
        obtain ⟨-, rfl⟩ := Instr.wake.inj hinstr
        exact nomatch hp'
      | _ => exact nomatch hinstr
    · exact .inl rfl

end WaitGroup

omit [Fintype G] in
theorem WaitGroupInv.move (h : WaitGroupInv s) (hmove : Move s g t es) : WaitGroupInv t := by
  refine ⟨h.queued.move hmove, fun x v hplace => ?_, justified_move h.queued hmove h.justified ?_ ?_⟩
  · by_cases hxg : x = g
    · subst hxg
      rcases WaitGroup.shift_loaded (hmove.shift h.queued) hplace with hsame | hne
      · exact h.loaded x v (hsame.trans hplace)
      · exact hne
    · exact h.loaded x v ((hmove.place_of_ne hxg).symm.trans hplace)
  · intro code expected next doomed hphase hinstr hword
    cases code with
    | wait v =>
      obtain ⟨rfl, rfl, -⟩ := Instr.wait.inj hinstr
      exact hword ▸ h.loaded g v (by rw [hphase]; rfl)
    | _ => exact nomatch hinstr
  · intro code effect word next hphase hinstr hmem _ _ x hx n hplace hblocked
    cases code with
    | add delta =>
      obtain ⟨rfl, rfl⟩ := Instr.single hinstr hmem rfl
      cases n with
      | load =>
        by_cases hzero : wrap (s.word + delta.toNat) = 0
        · refine .inr ⟨.wake, _, ?_, rfl⟩
          rw [if_neg (by omega), if_pos hzero]
        · exact .inl hzero
      | _ => exact hblocked.elim
    | load =>
      obtain ⟨rfl, -⟩ := Instr.single hinstr hmem rfl
      exact .inl hblocked
    | wake => exact nomatch hinstr
    | wait v => exact nomatch hinstr

end WaitGroup

/-! ## Semaphore -/

namespace Semaphore

def Code.net : Code → Int
  | .load net _ _ => net
  | .take net _ _ _ => net
  | .wait net _ _ => net
  | .releaseLoad net _ => net
  | .releaseTake net _ _ => net
  | .wake net => net

def net : Int ⊕ Code → Int
  | .inl net => net
  | .inr code => code.net

def Loaded (capacity : UInt64) : Int ⊕ Code → Prop
  | .inr (.take _ weight _ s) => weight ≤ s
  | .inr (.wait _ weight s) => s < weight
  | .inr (.releaseTake _ weight s) => s + weight ≤ capacity.toNat
  | _ => True

def blocked : Code → Nat → Prop
  | .load _ weight true, word => word < weight
  | _, _ => False

theorem check_eq {capacity : UInt64} {s : Nat} (hs : s ≤ capacity.toNat) (net : Int) (weight : Nat) :
    check capacity net weight s =
      if capacity.toNat < s + weight then .ends net 1 else .goto (.releaseTake net weight s) := by
  have hlt : capacity.toNat < 2 ^ 64 := capacity.toNat_lt
  have hwrap : wrap (capacity.toNat + 2 ^ 64 - s) = capacity.toNat - s := by
    unfold wrap
    rw [show capacity.toNat + 2 ^ 64 - s = capacity.toNat - s + 2 ^ 64 by omega, Nat.add_mod_right]
    exact Nat.mod_eq_of_lt (by omega)
  unfold check
  rw [hwrap]
  by_cases hover : capacity.toNat < s + weight
  · rw [if_pos hover, if_pos (by omega)]
  · rw [if_neg hover, if_neg (by omega)]

end Semaphore

structure SemaphoreInv {capacity : UInt64} (s : Word (semaphore capacity) G) : Prop where
  queued : Queued s
  word_le : s.word ≤ capacity.toNat
  free_eq : (s.word : Int) + ∑ g, Semaphore.net (s.phase g).place = capacity.toNat
  loaded : ∀ g, Semaphore.Loaded capacity (s.phase g).place
  justified : ∀ x ∈ s.queue, ∀ next, (s.phase x).place = .inr next → Semaphore.blocked next s.word ∨ Waking s

section Semaphore

variable {capacity : UInt64} {s t : Word (semaphore capacity) G} {g : G} {es : List (G × Nat)}

namespace Semaphore

theorem shift_free {p p' : Int ⊕ Code} (hword : word ≤ capacity.toNat) (hloaded : Loaded capacity p)
    (hshift : @Shift (semaphore capacity) word p word' p') :
    word' ≤ capacity.toNat ∧ (word' : Int) + net p' = word + net p ∧ Loaded capacity p' := by
  have hcheck : ∀ (n : Int) (weight s : Nat), s ≤ capacity.toNat →
      net ((check capacity n weight s).place (P := semaphore capacity)) = n ∧
        Loaded capacity ((check capacity n weight s).place (P := semaphore capacity)) := by
    intro n weight s hs
    rw [check_eq hs]
    by_cases hover : capacity.toNat < s + weight
    · rw [if_pos hover]
      exact ⟨rfl, trivial⟩
    · rw [if_neg hover]
      exact ⟨rfl, Nat.le_of_not_lt hover⟩
  rcases hshift.elim with ⟨code, effect, next, rfl, rfl, hinstr, hmem⟩ | ⟨rfl, hquiet⟩
  · cases code with
    | load n weight block =>
      obtain ⟨rfl, rfl⟩ := Instr.single hinstr hmem rfl
      by_cases hfree : weight ≤ word'
      · rw [if_pos hfree]
        exact ⟨hword, rfl, hfree⟩
      · rw [if_neg hfree]
        cases block with
        | true => exact ⟨hword, rfl, Nat.lt_of_not_le hfree⟩
        | false => exact ⟨hword, rfl, trivial⟩
    | take n weight block s =>
      cases hinstr
      rcases mem_exchange hmem with ⟨rfl, rfl, rfl⟩ | ⟨rfl, rfl⟩
      · have hle : weight ≤ word := hloaded
        refine ⟨by omega, ?_, trivial⟩
        change ((word - weight : Nat) : Int) + (n + weight) = word + n
        omega
      · exact ⟨hword, rfl, trivial⟩
    | releaseLoad n weight =>
      obtain ⟨rfl, rfl⟩ := Instr.single hinstr hmem rfl
      obtain ⟨hnet, hto⟩ := hcheck n weight word' hword
      exact ⟨hword, by rw [hnet]; rfl, hto⟩
    | releaseTake n weight s =>
      cases hinstr
      rcases mem_exchange hmem with ⟨rfl, rfl, rfl⟩ | ⟨rfl, rfl⟩
      · have hle : word + weight ≤ capacity.toNat := hloaded
        have hlt : capacity.toNat < 2 ^ 64 := capacity.toNat_lt
        have hwrap : wrap (word + weight) = word + weight := by
          unfold wrap
          exact Nat.mod_eq_of_lt (by omega)
        rw [hwrap]
        refine ⟨hle, ?_, trivial⟩
        change ((word + weight : Nat) : Int) + (n - weight) = word + n
        omega
      · obtain ⟨hnet, hto⟩ := hcheck n weight word' hword
        exact ⟨hword, by rw [hnet]; rfl, hto⟩
    | wait n weight s => exact nomatch hinstr
    | wake n => exact nomatch hinstr
  · rcases hquiet with ⟨i, op, code, rfl, rfl, hstart⟩ | ⟨code, expected, next, doomed, hinstr, hto⟩ |
      ⟨code, count, next, hinstr, rfl, rfl⟩ | rfl
    · cases op with
      | acquire weight block | release weight =>
        obtain ⟨-, heq⟩ := Option.ite_none_right_eq_some.mp hstart
        cases heq
        exact ⟨hword, rfl, trivial⟩
    · cases code with
      | wait n weight s =>
        obtain ⟨-, rfl, rfl⟩ := Instr.wait.inj hinstr
        rcases hto with ⟨rfl, rfl⟩ | ⟨rfl, rfl⟩ <;> exact ⟨hword, rfl, trivial⟩
      | _ => exact nomatch hinstr
    · cases code with
      | wake n =>
        obtain ⟨-, rfl⟩ := Instr.wake.inj hinstr
        exact ⟨hword, rfl, trivial⟩
      | _ => exact nomatch hinstr
    · exact ⟨hword, rfl, hloaded⟩

end Semaphore

theorem SemaphoreInv.move (h : SemaphoreInv s) (hmove : Move s g t es) : SemaphoreInv t := by
  obtain ⟨hle, hfree, hloaded⟩ := Semaphore.shift_free h.word_le (h.loaded g) (hmove.shift h.queued)
  have hsum := hmove.sum Semaphore.net
  have hbefore := h.free_eq
  refine ⟨h.queued.move hmove, hle, by omega, fun x => ?_, justified_move h.queued hmove h.justified ?_ ?_⟩
  · by_cases hxg : x = g
    · subst hxg
      exact hloaded
    · rw [hmove.place_of_ne hxg]
      exact h.loaded x
  · intro code expected next doomed hphase hinstr hword
    cases code with
    | wait n weight v =>
      obtain ⟨rfl, rfl, -⟩ := Instr.wait.inj hinstr
      have hlt := h.loaded g
      rw [hphase] at hlt
      exact hword ▸ hlt
    | _ => exact nomatch hinstr
  · intro code effect word next hphase hinstr hmem _ _ x hx n hplace hblocked
    cases code with
    | load net weight block =>
      obtain ⟨rfl, -⟩ := Instr.single hinstr hmem rfl
      exact .inl hblocked
    | take net weight block v =>
      cases hinstr
      rcases mem_exchange hmem with ⟨rfl, rfl, rfl⟩ | ⟨rfl, rfl⟩
      · -- less is free than before
        cases n with
        | load net' weight' block' =>
          cases block' with
          | true => exact .inl ((Nat.sub_le ..).trans_lt hblocked)
          | false => exact hblocked.elim
        | _ => exact hblocked.elim
      · exact .inl hblocked
    | releaseLoad net weight =>
      obtain ⟨rfl, -⟩ := Instr.single hinstr hmem rfl
      exact .inl hblocked
    | releaseTake net weight v =>
      cases hinstr
      rcases mem_exchange hmem with ⟨rfl, rfl, rfl⟩ | ⟨rfl, -⟩
      · exact .inr ⟨_, _, rfl, rfl⟩
      · exact .inl hblocked
    | wait net weight v => exact nomatch hinstr
    | wake net => exact nomatch hinstr

end Semaphore

def WordInv : (k : Kind) → Word (prim k) G → Prop
  | .mutex, s => MutexInv s
  | .mutex64, s => MutexInv s
  | .rwMutex, s => Queued s
  | .once, s => OnceInv s
  | .waitGroup, s => WaitGroupInv s
  | .cond, s => Queued s
  | .semaphore _, s => SemaphoreInv s

theorem WordInv.move {k : Kind} {s t : Word (prim k) G} {es : List (G × Nat)} (h : WordInv k s)
    (hmove : Move s g t es) : WordInv k t := by
  cases k with
  | mutex | mutex64 => exact MutexInv.move h hmove
  | rwMutex => exact Queued.move h hmove
  | once => exact OnceInv.move h hmove
  | waitGroup => exact WaitGroupInv.move h hmove
  | cond => exact Queued.move h hmove
  | semaphore capacity => exact SemaphoreInv.move h hmove

end Tsuzuri.Sync
