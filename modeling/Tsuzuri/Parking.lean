import Mathlib.Logic.Function.Basic
import Tsuzuri.Transition

/-!
# Words that parties wait on

A word with a queue, and parties that run operations on it: an atomic step changes the word, a wait joins the queue
while the word is as expected, a wake takes parties from its head.
-/

namespace Parking

open Transition List
open Function (update update_of_ne update_self)

/-- Where an operation goes on: at another point, or at its end with a status. -/
inductive Next (Code Idle : Type) where
  | goto (code : Code)
  | ends (i : Idle) (status : Nat)

/-- The steps of an operation. -/
inductive Instr (Code Idle : Type) where
  | atomic (effect : Nat → List (Nat × Next Code Idle))
  | wait (expected : Nat) (next : Code) (doomed : Next Code Idle)
  | wake (count : Option Nat) (next : Next Code Idle)

def exchange {Code Idle : Type} (expected desired : Nat) (done failed : Next Code Idle) (word : Nat) :
    List (Nat × Next Code Idle) :=
  if word = expected then [(desired, done), (word, failed)] else [(word, failed)]

theorem mem_exchange {expected desired word word' : Nat} {Code Idle : Type} {done failed next : Next Code Idle}
    (h : (word', next) ∈ exchange expected desired done failed word) :
    (word = expected ∧ word' = desired ∧ next = done) ∨ (word' = word ∧ next = failed) := by
  unfold exchange at h
  split at h
  · rename_i heq
    rcases mem_cons.mp h with heq' | h
    · cases heq'
      exact .inl ⟨heq, rfl, rfl⟩
    · obtain ⟨rfl, rfl⟩ := Prod.mk.inj (mem_singleton.mp h)
      exact .inr ⟨rfl, rfl⟩
  · obtain ⟨rfl, rfl⟩ := Prod.mk.inj (mem_singleton.mp h)
    exact .inr ⟨rfl, rfl⟩

/-- An instruction with one outcome. -/
theorem Instr.single {Code Idle : Type} {effect effect' : Nat → List (Nat × Next Code Idle)} {word out word' : Nat}
    {next next' : Next Code Idle} (h : Instr.atomic effect = .atomic effect') (hmem : (word', next') ∈ effect' word)
    (hout : effect word = [(out, next)]) : word' = out ∧ next' = next := by
  rw [← Instr.atomic.inj h, hout] at hmem
  exact Prod.mk.inj (mem_singleton.mp hmem)

structure Prim where
  Idle : Type
  Op : Type
  Code : Type
  start : Idle → Op → Option Code
  instr : Code → Instr Code Idle

/-- A parked party goes on at `next` when it is woken, at `doomed` when it gives up. -/
inductive Phase (P : Prim) where
  | idle (i : P.Idle)
  | run (code : P.Code)
  | parked (next : P.Code) (doomed : Next P.Code P.Idle)
  | doomed (next : P.Code) (doomed : Next P.Code P.Idle)

def Next.phase {P : Prim} : Next P.Code P.Idle → Phase P
  | .goto code => .run code
  | .ends i _ => .idle i

def Next.ended {P : Prim} {G : Type} (g : G) : Next P.Code P.Idle → List (G × Nat)
  | .goto _ => []
  | .ends _ status => [(g, status)]

@[ext]
structure Word (P : Prim) (G : Type) where
  word : Nat
  queue : List G
  phase : G → Phase P

inductive Act (P : Prim) (G : Type) where
  | start (g : G) (op : P.Op)
  | run (g : G) (choice : Nat)
  | doom (g : G)

def Act.party {P : Prim} {G : Type} : Act P G → G
  | .start g _ => g
  | .run g _ => g
  | .doom g => g

def Phase.ready {P : Prim} : Phase P → Phase P
  | .parked next _ => .run next
  | phase => phase

variable {P : Prim} {G : Type} [DecidableEq G]

def ready (woken : List G) (phase : G → Phase P) (g : G) : Phase P :=
  if g ∈ woken then (phase g).ready else phase g

def taken (count : Option Nat) (queue : List G) : List G :=
  match count with
  | none => queue
  | some n => queue.take n

variable {x : G} {es : List (G × Nat)} {code : P.Code}

namespace Word

variable (s : Word P G)

def set (g : G) (phase : Phase P) : Word P G := { s with phase := update s.phase g phase }

@[simp] theorem set_self (g : G) (phase : Phase P) : (s.set g phase).phase g = phase :=
  update_self ..

theorem set_of_ne {g : G} (h : x ≠ g) (phase : Phase P) : (s.set g phase).phase x = s.phase x :=
  update_of_ne h ..

def runInstr (g : G) (choice : Nat) : Instr P.Code P.Idle → Option (Word P G × List (G × Nat))
  | .atomic effect =>
    (effect s.word)[choice]?.map fun out =>
      ({ s with word := out.1 }.set g out.2.phase, out.2.ended g)
  | .wait expected next doomed =>
    if s.word = expected then some ({ s with queue := s.queue ++ [g] }.set g (.parked next doomed), [])
    else some (s.set g (.run next), [])
  | .wake count next =>
    let woken := taken count s.queue
    some ({ s with queue := s.queue.drop woken.length, phase := ready woken s.phase }.set g next.phase, next.ended g)

def giveUp (g : G) (next : P.Code) (doomed : Next P.Code P.Idle) : Word P G × List (G × Nat) :=
  if g ∈ s.queue then ({ s with queue := s.queue.erase g }.set g doomed.phase, doomed.ended g)
  else (s.set g (.run next), [])

/-- The steps. `thread` says which parties the detector may wake. -/
def step (thread : G → Bool) (s : Word P G) : Act P G → Option (Word P G × List (G × Nat))
  | .start g op =>
    match s.phase g with
    | .idle i => (P.start i op).map fun code => (s.set g (.run code), [])
    | _ => none
  | .run g choice =>
    match s.phase g with
    | .run code => s.runInstr g choice (P.instr code)
    | .doomed next doomed => some (s.giveUp g next doomed)
    | _ => none
  | .doom g =>
    match s.phase g with
    | .parked next doomed => if thread g then some (s.set g (.doomed next doomed), []) else none
    | _ => none

end Word

/-! ## The queue -/

structure Queued (s : Word P G) : Prop where
  nodup : s.queue.Nodup
  waits : ∀ g ∈ s.queue, ∃ next doomed, (s.phase g = .parked next doomed ∨ s.phase g = .doomed next doomed) ∧
    ∃ code expected, P.instr code = .wait expected next doomed
  parked : ∀ g next doomed, s.phase g = .parked next doomed → g ∈ s.queue
  doomed : ∀ g next doomed, s.phase g = .doomed next doomed → ∃ code expected, P.instr code = .wait expected next doomed

/-- What a step is. -/
inductive Move (s : Word P G) (g : G) : Word P G → List (G × Nat) → Prop
  | start {i op code} (phase : s.phase g = .idle i) (start : P.start i op = some code) :
      Move s g (s.set g (.run code)) []
  | atomic {code effect word next} (phase : s.phase g = .run code) (instr : P.instr code = .atomic effect)
      (mem : (word, next) ∈ effect s.word) :
      Move s g ({ s with word := word }.set g next.phase) (next.ended g)
  | park {code expected next doomed} (phase : s.phase g = .run code)
      (instr : P.instr code = .wait expected next doomed) (word : s.word = expected) :
      Move s g ({ s with queue := s.queue ++ [g] }.set g (.parked next doomed)) []
  | pass {code expected next doomed} (phase : s.phase g = .run code)
      (instr : P.instr code = .wait expected next doomed) (word : s.word ≠ expected) :
      Move s g (s.set g (.run next)) []
  | wake {code count next} (phase : s.phase g = .run code) (instr : P.instr code = .wake count next) :
      Move s g ({ s with
        queue := s.queue.drop (taken count s.queue).length
        phase := ready (taken count s.queue) s.phase }.set g next.phase) (next.ended g)
  | leave {next doomed} (phase : s.phase g = .doomed next doomed) (mem : g ∈ s.queue) :
      Move s g ({ s with queue := s.queue.erase g }.set g doomed.phase) (doomed.ended g)
  | late {next doomed} (phase : s.phase g = .doomed next doomed) (notMem : g ∉ s.queue) :
      Move s g (s.set g (.run next)) []
  | doom {next doomed} (phase : s.phase g = .parked next doomed) : Move s g (s.set g (.doomed next doomed)) []

theorem step_move {thread : G → Bool} {s t : Word P G} {a : Act P G} (h : s.step thread a = some (t, es)) :
    Move s a.party t es := by
  cases a with
  | start g op =>
    simp only [Word.step] at h
    split at h
    · rename_i hphase
      obtain ⟨code, hstart, heq⟩ := Option.map_eq_some_iff.mp h
      cases heq
      exact .start hphase hstart
    · exact nomatch h
  | run g choice =>
    simp only [Word.step] at h
    split at h
    · rename_i code hphase
      cases hinstr : P.instr code with
      | atomic effect =>
        rw [hinstr] at h
        obtain ⟨out, hout, heq⟩ := Option.map_eq_some_iff.mp h
        cases heq
        exact .atomic hphase hinstr (mem_of_getElem? hout)
      | wait expected next doomed =>
        rw [hinstr] at h
        unfold Word.runInstr at h
        dsimp only at h
        split at h
        · rename_i hword
          cases h
          exact .park hphase hinstr hword
        · rename_i hword
          cases h
          exact .pass hphase hinstr hword
      | wake count next =>
        rw [hinstr] at h
        cases h
        exact .wake hphase hinstr
    · rename_i next doomed hphase
      unfold Word.giveUp at h
      split at h
      · rename_i hmem
        cases h
        exact .leave hphase hmem
      · rename_i hmem
        cases h
        exact .late hphase hmem
    · exact nomatch h
  | doom g =>
    simp only [Word.step] at h
    split at h
    · rename_i hphase
      split at h
      · cases h
        exact .doom hphase
      · exact nomatch h
    · exact nomatch h

def Ran (s : Word P G) (g : G) (t : Word P G) (es : List (G × Nat)) : Instr P.Code P.Idle → Prop
  | .atomic effect => ∃ out ∈ effect s.word, t = { s with word := out.1 }.set g out.2.phase ∧ es = out.2.ended g
  | .wait expected next doomed => es = [] ∧ if s.word = expected
      then t = { s with queue := s.queue ++ [g] }.set g (.parked next doomed) else t = s.set g (.run next)
  | .wake count next => es = next.ended g ∧ t = { s with
      queue := s.queue.drop (taken count s.queue).length
      phase := ready (taken count s.queue) s.phase }.set g next.phase

theorem Move.ran {s t : Word P G} {g : G} (hmove : Move s g t es) (hphase : s.phase g = .run code) :
    Ran s g t es (P.instr code) := by
  cases hmove with
  | start h | leave h | late h | doom h => exact nomatch hphase.symm.trans h
  | atomic h hinstr hmem =>
    obtain rfl := Phase.run.inj (hphase.symm.trans h)
    rw [hinstr]
    exact ⟨_, hmem, rfl, rfl⟩
  | park h hinstr hword =>
    obtain rfl := Phase.run.inj (hphase.symm.trans h)
    rw [hinstr]
    exact ⟨rfl, by rw [if_pos hword]⟩
  | pass h hinstr hword =>
    obtain rfl := Phase.run.inj (hphase.symm.trans h)
    rw [hinstr]
    exact ⟨rfl, by rw [if_neg hword]⟩
  | wake h hinstr =>
    obtain rfl := Phase.run.inj (hphase.symm.trans h)
    rw [hinstr]
    exact ⟨rfl, rfl⟩

def Phase.place : Phase P → P.Idle ⊕ P.Code
  | .idle i => .inl i
  | .run code => .inr code
  | .parked next _ => .inr next
  | .doomed next _ => .inr next

def Next.place : Next P.Code P.Idle → P.Idle ⊕ P.Code
  | .goto code => .inr code
  | .ends i _ => .inl i

def Phase.rest : Phase P → Option (P.Idle ⊕ P.Code)
  | .idle i => some (.inl i)
  | .parked next _ => some (.inr next)
  | _ => none

theorem Phase.place_of_rest {phase : Phase P} {place : P.Idle ⊕ P.Code} (h : phase.rest = some place) :
    phase.place = place := by
  cases phase with
  | idle i => exact Option.some.inj h
  | parked next doomed => exact Option.some.inj h
  | run code => exact nomatch h
  | doomed next doomed => exact nomatch h

omit [DecidableEq G] in
@[simp] theorem Next.place_phase (next : Next P.Code P.Idle) : next.phase.place = next.place := by
  cases next <;> rfl

omit [DecidableEq G] in
@[simp] theorem Phase.place_ready (phase : Phase P) : phase.ready.place = phase.place := by
  cases phase <;> rfl

theorem place_ready (woken : List G) (phase : G → Phase P) (g : G) : (ready woken phase g).place = (phase g).place := by
  unfold ready
  split
  · exact Phase.place_ready _
  · rfl

section Queued

variable {s t : Word P G} {g : G} {es : List (G × Nat)}
variable {next : P.Code} {doomed : Next P.Code P.Idle}

omit [DecidableEq G] in
theorem Queued.mem_of_rest (h : Queued s) (hrest : (s.phase g).rest = some (.inr next)) : g ∈ s.queue := by
  cases hphase : s.phase g with
  | parked n doomed => exact h.parked g n doomed hphase
  | idle i | run code | doomed n doomed =>
    rw [hphase] at hrest
    exact nomatch hrest

omit [DecidableEq G] in

omit [DecidableEq G] in
theorem Queued.notMem_run (h : Queued s) (hphase : s.phase g = .run code) : g ∉ s.queue := by
  intro hmem
  obtain ⟨next, doomed, hwait | hwait, -⟩ := h.waits g hmem <;> exact nomatch hphase.symm.trans hwait

omit [DecidableEq G] in
theorem Queued.notMem_idle (h : Queued s) {i : P.Idle} (hphase : s.phase g = .idle i) : g ∉ s.queue := by
  intro hmem
  obtain ⟨next, doomed, hwait | hwait, -⟩ := h.waits g hmem <;> exact nomatch hphase.symm.trans hwait

theorem Queued.set (h : Queued s) (hg : g ∉ s.queue) (next : Next P.Code P.Idle) (word : Nat) :
    Queued ({ s with word := word }.set g next.phase) where
  nodup := h.nodup
  waits x hx := by
    have hxg : x ≠ g := by
      rintro rfl
      exact hg hx
    obtain ⟨n, d, hphase, hwait⟩ := h.waits x hx
    exact ⟨n, d, hphase.imp (Eq.trans (Word.set_of_ne _ hxg _)) (Eq.trans (Word.set_of_ne _ hxg _)), hwait⟩
  parked x n d hphase := by
    by_cases hxg : x = g
    · subst hxg
      rw [Word.set_self] at hphase
      cases next <;> exact nomatch hphase
    · exact h.parked x n d ((Word.set_of_ne _ hxg _).symm.trans hphase)
  doomed x n d hphase := by
    by_cases hxg : x = g
    · subst hxg
      rw [Word.set_self] at hphase
      cases next <;> exact nomatch hphase
    · exact h.doomed x n d ((Word.set_of_ne _ hxg _).symm.trans hphase)

theorem Queued.park (h : Queued s) (hg : g ∉ s.queue) {expected : Nat}
    (hinstr : P.instr code = .wait expected next doomed) :
    Queued ({ s with queue := s.queue ++ [g] }.set g (.parked next doomed)) where
  nodup := nodup_append.mpr ⟨h.nodup, nodup_singleton g, fun x hx y hy heq =>
    hg (mem_singleton.mp hy ▸ heq ▸ hx)⟩
  waits x hx := by
    by_cases hxg : x = g
    · subst hxg
      exact ⟨next, doomed, .inl (update_self ..), code, expected, hinstr⟩
    · obtain ⟨n, d, hphase, hwait⟩ := h.waits x
        ((mem_append.mp hx).resolve_right fun hmem => hxg (mem_singleton.mp hmem))
      exact ⟨n, d, hphase.imp (Eq.trans (Word.set_of_ne _ hxg _)) (Eq.trans (Word.set_of_ne _ hxg _)), hwait⟩
  parked x n d hphase := by
    by_cases hxg : x = g
    · exact mem_append_right _ (mem_singleton.mpr hxg)
    · exact mem_append_left _ (h.parked x n d ((Word.set_of_ne _ hxg _).symm.trans hphase))
  doomed x n d hphase := by
    by_cases hxg : x = g
    · subst hxg
      rw [Word.set_self] at hphase
      exact nomatch hphase
    · exact h.doomed x n d ((Word.set_of_ne _ hxg _).symm.trans hphase)

omit [DecidableEq G] in
theorem taken_append (count : Option Nat) (queue : List G) :
    queue = taken count queue ++ queue.drop (taken count queue).length := by
  cases count with
  | none => simp [taken]
  | some n =>
    simp only [taken, length_take]
    rcases Nat.le_total n queue.length with hle | hle
    · rw [Nat.min_eq_left hle, take_append_drop]
    · rw [Nat.min_eq_right hle, take_of_length_le hle, drop_length, append_nil]

theorem ready_run {woken : List G} {phase : G → Phase P} (h : phase x = .run code) :
    ready woken phase x = .run code := by
  unfold ready
  split
  · rw [h]
    rfl
  · exact h

theorem Queued.wake (h : Queued s) (count : Option Nat) : Queued { s with
      queue := s.queue.drop (taken count s.queue).length
      phase := ready (taken count s.queue) s.phase } := by
  have happend := taken_append count s.queue
  have hnodup := h.nodup
  rw [happend] at hnodup
  obtain ⟨-, hrest, hdisjoint⟩ := nodup_append.mp hnodup
  generalize taken count s.queue = woken at *
  generalize s.queue.drop woken.length = rest at *
  have hout : ∀ x ∈ rest, x ∉ woken := fun x hx hwoken => hdisjoint x hwoken x hx rfl
  refine ⟨hrest, fun x hx => ?_, fun x n d hphase => ?_, fun x n d hphase => ?_⟩
  · obtain ⟨n, d, hphase, hwait⟩ := h.waits x (happend ▸ mem_append_right _ hx)
    exact ⟨n, d, hphase.imp (Eq.trans (if_neg (hout x hx))) (Eq.trans (if_neg (hout x hx))), hwait⟩
  · change ready woken s.phase x = _ at hphase
    unfold ready at hphase
    split at hphase
    · cases hx : s.phase x <;> rw [hx] at hphase <;> exact nomatch hphase
    · rename_i hnot
      have hmem := h.parked x n d hphase
      rw [happend] at hmem
      exact (mem_append.mp hmem).resolve_left hnot
  · change ready woken s.phase x = _ at hphase
    unfold ready at hphase
    split at hphase
    · refine h.doomed x n d ?_
      cases hx : s.phase x <;> rw [hx] at hphase
      all_goals first | exact hphase | exact nomatch hphase
    · exact h.doomed x n d hphase

theorem Queued.leave (h : Queued s) (next : Next P.Code P.Idle) :
    Queued ({ s with queue := s.queue.erase g }.set g next.phase) where
  nodup := h.nodup.erase g
  waits x hx := by
    obtain ⟨hxg, hmem⟩ := (h.nodup.mem_erase_iff).mp hx
    obtain ⟨n, d, hphase, hwait⟩ := h.waits x hmem
    exact ⟨n, d, hphase.imp (Eq.trans (Word.set_of_ne _ hxg _)) (Eq.trans (Word.set_of_ne _ hxg _)), hwait⟩
  parked x n d hphase := by
    by_cases hxg : x = g
    · subst hxg
      rw [Word.set_self] at hphase
      cases next <;> exact nomatch hphase
    · exact h.nodup.mem_erase_iff.mpr ⟨hxg, h.parked x n d ((Word.set_of_ne _ hxg _).symm.trans hphase)⟩
  doomed x n d hphase := by
    by_cases hxg : x = g
    · subst hxg
      rw [Word.set_self] at hphase
      cases next <;> exact nomatch hphase
    · exact h.doomed x n d ((Word.set_of_ne _ hxg _).symm.trans hphase)

theorem Queued.doom (h : Queued s) (hphase : s.phase g = .parked next doomed) :
    Queued (s.set g (.doomed next doomed)) where
  nodup := h.nodup
  waits x hx := by
    obtain ⟨n, d, hwait, hcode⟩ := h.waits x hx
    by_cases hxg : x = g
    · subst hxg
      rcases hwait with hwait | hwait
      · obtain ⟨rfl, rfl⟩ := Phase.parked.inj (hphase.symm.trans hwait)
        exact ⟨next, doomed, .inr (update_self ..), hcode⟩
      · exact nomatch hphase.symm.trans hwait
    · exact ⟨n, d, hwait.imp (Eq.trans (Word.set_of_ne _ hxg _)) (Eq.trans (Word.set_of_ne _ hxg _)), hcode⟩
  parked x n d hwait := by
    by_cases hxg : x = g
    · subst hxg
      rw [Word.set_self] at hwait
      exact nomatch hwait
    · exact h.parked x n d ((Word.set_of_ne _ hxg _).symm.trans hwait)
  doomed x n d hwait := by
    by_cases hxg : x = g
    · subst hxg
      rw [Word.set_self] at hwait
      obtain ⟨rfl, rfl⟩ := Phase.doomed.inj hwait
      obtain ⟨n, d, hphase' | hphase', hcode⟩ := h.waits x (h.parked x _ _ hphase)
      · obtain ⟨rfl, rfl⟩ := Phase.parked.inj (hphase.symm.trans hphase')
        exact hcode
      · exact nomatch hphase.symm.trans hphase'
    · exact h.doomed x n d ((Word.set_of_ne _ hxg _).symm.trans hwait)

theorem Queued.move (h : Queued s) (hmove : Move s g t es) : Queued t := by
  cases hmove with
  | start hphase hstart => exact h.set (h.notMem_idle hphase) (.goto _) s.word
  | atomic hphase hinstr hmem => exact h.set (h.notMem_run hphase) _ _
  | park hphase hinstr hword => exact h.park (h.notMem_run hphase) hinstr
  | pass hphase hinstr hword => exact h.set (h.notMem_run hphase) (.goto _) s.word
  | wake hphase hinstr =>
    rename_i count next
    exact (h.wake count).set ((h.wake count).notMem_run (ready_run hphase)) next s.word
  | leave hphase hmem => exact h.leave _
  | late hphase hmem => exact h.set hmem (.goto _) s.word
  | doom hphase => exact h.doom hphase

/-- A party of the queue was in it at its place, or has joined it at a wait of the word as it is. -/
theorem Queued.mem_queue (h : Queued s) (hmove : Move s g t es) (hx : x ∈ t.queue) :
    (x ∈ s.queue ∧ (t.phase x).place = (s.phase x).place) ∨ ∃ code next doomed, s.phase x = .run code ∧
      P.instr code = .wait s.word next doomed ∧ t.phase x = .parked next doomed := by
  have hsame {phase : Phase P} {word : Nat} (hg : g ∉ s.queue) (hx : x ∈ s.queue) :
      (x ∈ s.queue ∧ (({ s with word := word }.set g phase).phase x).place = (s.phase x).place) := by
    refine ⟨hx, congrArg Phase.place (Word.set_of_ne _ ?_ _)⟩
    rintro rfl
    exact hg hx
  cases hmove with
  | start hphase => exact .inl (hsame (h.notMem_idle hphase) hx)
  | atomic hphase => exact .inl (hsame (h.notMem_run hphase) hx)
  | park hphase hinstr hword =>
    by_cases hxg : x = g
    · subst hxg
      exact .inr ⟨_, _, _, hphase, hword ▸ hinstr, update_self ..⟩
    · exact .inl ⟨(mem_append.mp hx).resolve_right fun hmem => hxg (mem_singleton.mp hmem),
        congrArg Phase.place (Word.set_of_ne _ hxg _)⟩
  | pass hphase => exact .inl (hsame (h.notMem_run hphase) hx)
  | wake hphase =>
    have hmem : x ∈ s.queue := mem_of_mem_drop hx
    refine .inl ⟨hmem, (congrArg Phase.place (Word.set_of_ne _ ?_ _)).trans (place_ready ..)⟩
    rintro rfl
    exact h.notMem_run hphase hmem
  | leave hphase =>
    obtain ⟨hxg, hmem⟩ := h.nodup.mem_erase_iff.mp hx
    exact .inl ⟨hmem, congrArg Phase.place (Word.set_of_ne _ hxg _)⟩
  | late hphase hnot => exact .inl (hsame hnot hx)
  | doom hphase =>
    refine .inl ⟨hx, ?_⟩
    by_cases hxg : x = g
    · subst hxg
      rw [Word.set_self, hphase]
      rfl
    · exact congrArg Phase.place (Word.set_of_ne _ hxg _)

/-! ## Places -/

/-- How the place of a party moves. -/
inductive Shift (P : Prim) (word : Nat) : P.Idle ⊕ P.Code → Nat → P.Idle ⊕ P.Code → Prop
  | start {i op code} (start : P.start i op = some code) : Shift P word (.inl i) word (.inr code)
  | atomic {code effect word' next} (instr : P.instr code = .atomic effect)
      (mem : (word', next) ∈ effect word) : Shift P word (.inr code) word' next.place
  | wait {code expected next doomed} (instr : P.instr code = .wait expected next doomed)
      (passed : word = expected ∨ word ≠ expected) : Shift P word (.inr code) word (.inr next)
  | wake {code count next} (instr : P.instr code = .wake count next) : Shift P word (.inr code) word next.place
  | leave {code expected next doomed} (instr : P.instr code = .wait expected next doomed) :
      Shift P word (.inr next) word doomed.place
  | stay (place : P.Idle ⊕ P.Code) : Shift P word place word place

omit [DecidableEq G] in
theorem Shift.elim {word word' : Nat} {p p' : P.Idle ⊕ P.Code} (h : Shift P word p word' p') :
    (∃ code effect next, p = .inr code ∧ p' = next.place ∧ P.instr code = .atomic effect ∧
      (word', next) ∈ effect word) ∨
    word' = word ∧ ((∃ i op code, p = .inl i ∧ p' = .inr code ∧ P.start i op = some code) ∨
      (∃ code expected next doomed, P.instr code = .wait expected next doomed ∧
        (p = .inr code ∧ p' = .inr next ∨ p = .inr next ∧ p' = doomed.place)) ∨
      (∃ code count next, P.instr code = .wake count next ∧ p = .inr code ∧ p' = next.place) ∨ p' = p) := by
  cases h with
  | start hstart => exact .inr ⟨rfl, .inl ⟨_, _, _, rfl, rfl, hstart⟩⟩
  | atomic hinstr hmem => exact .inl ⟨_, _, _, rfl, rfl, hinstr, hmem⟩
  | wait hinstr => exact .inr ⟨rfl, .inr (.inl ⟨_, _, _, _, hinstr, .inl ⟨rfl, rfl⟩⟩)⟩
  | wake hinstr => exact .inr ⟨rfl, .inr (.inr (.inl ⟨_, _, _, hinstr, rfl, rfl⟩))⟩
  | leave hinstr => exact .inr ⟨rfl, .inr (.inl ⟨_, _, _, _, hinstr, .inr ⟨rfl, rfl⟩⟩)⟩
  | stay => exact .inr ⟨rfl, .inr (.inr (.inr rfl))⟩

theorem Move.place_of_ne (hmove : Move s g t es) (hx : x ≠ g) : (t.phase x).place = (s.phase x).place := by
  cases hmove <;> simp only [Word.set, update_of_ne hx]
  case wake => exact place_ready ..

theorem Move.shift (h : Queued s) (hmove : Move s g t es) :
    Shift P s.word (s.phase g).place t.word (t.phase g).place := by
  cases hmove with
  | start hphase hstart =>
    rw [hphase]
    simp only [Word.set, update_self]
    exact .start hstart
  | atomic hphase hinstr hmem =>
    rw [hphase]
    simp only [Word.set, update_self, Next.place_phase]
    exact .atomic hinstr hmem
  | park hphase hinstr hword =>
    rw [hphase]
    simp only [Word.set, update_self]
    exact .wait hinstr (.inl hword)
  | pass hphase hinstr hword =>
    rw [hphase]
    simp only [Word.set, update_self]
    exact .wait hinstr (.inr hword)
  | wake hphase hinstr =>
    rw [hphase]
    simp only [Word.set, update_self, Next.place_phase]
    exact .wake hinstr
  | leave hphase hmem =>
    obtain ⟨code, expected, hinstr⟩ := h.doomed g _ _ hphase
    rw [hphase]
    simp only [Word.set, update_self, Next.place_phase]
    exact .leave hinstr
  | late hphase hmem | doom hphase =>
    rw [hphase]
    simp only [Word.set, update_self]
    exact .stay _

section

variable (hmove : Move s g t es)

include hmove

theorem Move.tally [Fintype G] (p : P.Idle ⊕ P.Code → Prop) [DecidablePred p] :
    tally (fun x => p (t.phase x).place) + (if p (s.phase g).place then 1 else 0) =
      tally (fun x => p (s.phase x).place) + if p (t.phase g).place then 1 else 0 :=
  (tally_move (p := fun x => p (s.phase x).place) (q := fun x => p (t.phase x).place) g fun x hx => by
    rw [hmove.place_of_ne hx]).symm

theorem Move.sum [Fintype G] {M : Type} [AddCommMonoid M] (f : P.Idle ⊕ P.Code → M) :
    ∑ x, f (t.phase x).place + f (s.phase g).place = ∑ x, f (s.phase x).place + f (t.phase g).place :=
  sum_move (f := fun x => f (t.phase x).place) (k := fun x => f (s.phase x).place) g fun x hx => by
    rw [hmove.place_of_ne hx]

theorem Move.phase_of_ne (hx : x ≠ g) : t.phase x = s.phase x ∨ t.phase x = (s.phase x).ready := by
  cases hmove with
  | wake =>
    rw [Word.set_of_ne _ hx]
    dsimp only
    unfold ready
    split
    · exact .inr rfl
    · exact .inl rfl
  | _ => exact .inl (Word.set_of_ne _ hx _)

theorem Move.run_of_ne (hx : x ≠ g) (hphase : s.phase x = .run code) : t.phase x = .run code := by
  cases hmove with
  | wake =>
    rw [Word.set_of_ne _ hx]
    exact ready_run hphase
  | _ => exact (Word.set_of_ne _ hx _).trans hphase

theorem Move.mem_queue (hx : x ≠ g) (hmem : x ∈ t.queue) : x ∈ s.queue := by
  cases hmove with
  | park => exact (mem_append.mp hmem).resolve_right fun h => hx (mem_singleton.mp h)
  | wake => exact mem_of_mem_drop hmem
  | leave => exact mem_of_mem_erase hmem
  | _ => exact hmem

end

def Waking (s : Word P G) : Prop := ∃ g code next, s.phase g = .run code ∧ P.instr code = .wake none next

def Quiet (s : Word P G) : Prop := ∀ g, (s.phase g).rest ≠ none

omit [DecidableEq G] in
theorem Quiet.not_waking (h : Quiet s) : ¬Waking s := by
  rintro ⟨g, code, next, hphase, -⟩
  exact h g (by rw [hphase]; rfl)

omit [DecidableEq G] in
theorem Waking.of_run {next : Next P.Code P.Idle} (hphase : s.phase g = .run code)
    (hinstr : P.instr code = .wake none next) : Waking s := ⟨g, code, next, hphase, hinstr⟩

theorem Waking.move (h : Waking s) (hmove : Move s g t es) : Waking t ∨
    ∃ code next, s.phase g = .run code ∧ P.instr code = .wake none next := by
  obtain ⟨x, code, next, hphase, hinstr⟩ := h
  by_cases hx : x = g
  · subst hx
    exact .inr ⟨code, next, hphase, hinstr⟩
  · exact .inl ⟨x, code, next, hmove.run_of_ne hx hphase, hinstr⟩

theorem justified_move {blocked : P.Code → Nat → Prop} (hq : Queued s) (hmove : Move s g t es)
    (h : ∀ x ∈ s.queue, ∀ next, (s.phase x).place = .inr next → blocked next s.word ∨ Waking s)
    (hpark : ∀ {code expected next doomed}, s.phase g = .run code →
      P.instr code = .wait expected next doomed → s.word = expected → blocked next s.word)
    (hatomic : ∀ {code effect word next}, s.phase g = .run code → P.instr code = .atomic effect →
      (word, next) ∈ effect s.word → t.word = word → (t.phase g).place = next.place →
      ∀ x ∈ s.queue, ∀ n, (s.phase x).place = .inr n → blocked n s.word →
        blocked n word ∨ ∃ c m, next = .goto c ∧ P.instr c = .wake none m) :
    ∀ x ∈ t.queue, ∀ next, (t.phase x).place = .inr next → blocked next t.word ∨ Waking t := by
  intro x hx next hplace
  -- a step that is no wake of all keeps what was known of the others
  have hkeep : x ≠ g → (∀ code next, s.phase g = .run code → P.instr code ≠ .wake none next) →
      blocked next s.word ∨ Waking t := by
    intro hxg hother
    have hplace' := (hmove.place_of_ne hxg).symm.trans hplace
    refine (h x (hmove.mem_queue hxg hx) next hplace').imp_right fun hwaking => ?_
    refine (hwaking.move hmove).resolve_right ?_
    rintro ⟨code, next, hphase, hinstr⟩
    exact hother code next hphase hinstr
  have hqueued : x = g → g ∈ t.queue := fun heq => heq ▸ hx
  cases hmove with
  | start hphase hstart =>
    exact hkeep (fun heq => hq.notMem_idle hphase (hqueued heq)) fun c n hc => nomatch hphase.symm.trans hc
  | atomic hphase hinstr hmem =>
    rename_i code effect word next'
    have hxg : x ≠ g := fun heq => hq.notMem_run hphase (hqueued heq)
    have hplace' : (s.phase x).place = .inr next := by
      rwa [Word.set_of_ne _ hxg] at hplace
    rcases hkeep hxg fun c n hc hw => by
      obtain rfl := Phase.run.inj (hphase.symm.trans hc)
      exact nomatch hinstr.symm.trans hw with hblocked | hwaking
    · have hto : (({ s with word := word }.set g next'.phase).phase g).place = next'.place := by
        rw [Word.set_self, Next.place_phase]
      refine (hatomic hphase hinstr hmem rfl hto x hx next hplace' hblocked).imp_right ?_
      rintro ⟨c, m, rfl, hwake⟩
      exact .of_run (Word.set_self ..) hwake
    · exact .inr hwaking
  | park hphase hinstr hword =>
    by_cases hxg : x = g
    · subst hxg
      rw [Word.set_self] at hplace
      obtain rfl := Sum.inr.inj hplace
      exact .inl (hpark hphase hinstr hword)
    · exact hkeep hxg fun c n hc hw => by
        obtain rfl := Phase.run.inj (hphase.symm.trans hc)
        exact nomatch hinstr.symm.trans hw
  | pass hphase hinstr hword =>
    exact hkeep (fun heq => hq.notMem_run hphase (hqueued heq)) fun c n hc hw => by
      obtain rfl := Phase.run.inj (hphase.symm.trans hc)
      exact nomatch hinstr.symm.trans hw
  | wake hphase hinstr =>
    rename_i code count next'
    cases count with
    | none => simp [Word.set, taken] at hx
    | some n =>
      exact hkeep (fun heq => hq.notMem_run hphase (mem_of_mem_drop (hqueued heq))) fun c m hc hw => by
        obtain rfl := Phase.run.inj (hphase.symm.trans hc)
        exact nomatch hinstr.symm.trans hw
  | leave hphase hmem =>
    exact hkeep (fun heq => (hq.nodup.not_mem_erase) (hqueued heq)) fun c n hc => nomatch hphase.symm.trans hc
  | late hphase hmem =>
    exact hkeep (fun heq => hmem (hqueued heq)) fun c n hc => nomatch hphase.symm.trans hc
  | doom hphase =>
    by_cases hxg : x = g
    · subst hxg
      rw [Word.set_self] at hplace
      refine (h x hx next (by rw [hphase]; exact hplace)).imp_right fun hwaking => ?_
      refine (hwaking.move (.doom hphase)).resolve_right ?_
      rintro ⟨c, n, hc, -⟩
      exact nomatch hphase.symm.trans hc
    · exact hkeep hxg fun c n hc => nomatch hphase.symm.trans hc

end Queued

def Word.untouched (word : Nat) (i : P.Idle) : Word P G := ⟨word, [], fun _ => .idle i⟩

omit [DecidableEq G] in
theorem queued_untouched (word : Nat) (i : P.Idle) : Queued (Word.untouched word i : Word P G) :=
  ⟨nodup_nil, nofun, nofun, nofun⟩

end Parking
