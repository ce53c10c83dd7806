import Tsuzuri.RegexThreads

/-!
# The search

The threads of a list and then the later starts come to the same first match as backtracking (`search_ok`), whatever
an earlier search left in the workspace.
-/

namespace Tsuzuri.Regex

open FaultVec (Exec Turn loop loop_ok)
open FaultVec (ok_bind)
open OrderedSearch List

def firstOf (leaf : Nat → Slots → Option Slots) (listed : List (Nat × Slots)) : Option Slots :=
  listed.findSome? fun e => leaf e.1 e.2

theorem firstOf_cons (leaf : Nat → Slots → Option Slots) (e : Nat × Slots) (listed : List (Nat × Slots)) :
    firstOf leaf (e :: listed) = (leaf e.1 e.2).or (firstOf leaf listed) := by
  cases h : leaf e.1 e.2 <;> simp [firstOf, h]

section Search

variable {re : Program} {slots : Nat}
variable {place : Place} {length remaining position target pos : Nat} {code : Option Nat}
  {instr : Instr} {ws : Workspace} {best : Slots} {rest : Scalars} {m : Machine}

theorem Added.first (h : Linked re) {before : List (Nat × Slots)} {start : Nat × Slots} {s : Adding}
    (ha : Added re slots place before length start s) (hpc : start.1 < re.code.length)
    (hclosed : Closed (follow re place) before) (rest : Scalars) (pos : Nat) :
    ∃ listed, Lists re s.threads s.size listed ∧ Closed (follow re place) listed ∧
      firstOf (thread re rest pos) listed = (firstOf (thread re rest pos) before).or
        (backtrack (follow re place) (thread re rest pos) re.code.length start.1 start.2) := by
  obtain ⟨listed, hlists, hexplore⟩ := ha.search
  obtain ⟨hout, hvalue⟩ := hexplore.findSome?_eq (uniform h rest place pos) hclosed (by simpa using hpc)
  refine ⟨listed, hlists, hout, ?_⟩
  rw [firstOf, hvalue, length_range, findSome?_singleton]
  rfl

/-! ## A pass -/

/-- The regions of a workspace that do not change their sizes. -/
structure Room (re : Program) (slots : Nat) (ws : Workspace) : Prop where
  current : Shape re slots ws.current
  next : Shape re slots ws.next
  work : ws.work.length = slots
  best : ws.best.length = slots

theorem room_workspace (re : Program) (slots : Nat) : Room re slots (workspace re slots) :=
  ⟨shape_emptyThreads re slots, shape_emptyThreads re slots, by simp [workspace], by simp [workspace]⟩

/-- How a thread steps over the scalar `code` to the threads behind it. -/
structure Steps (re : Program) (code : Option Nat) (place : Place) (leaf after : Nat → Slots → Option Slots) :
    Prop where
  found : ∀ pc s, re.code[pc]? = some .match_ → leaf pc s = some s
  moves : ∀ pc s instr, re.code[pc]? = some instr → instr ≠ .match_ → (code.any fun c => accepts re c instr) = true →
    leaf pc s = backtrack (follow re place) after re.code.length (pc + 1) s
  stops : ∀ pc s instr, re.code[pc]? = some instr → instr ≠ .match_ →
    (code.any fun c => accepts re c instr) = false → leaf pc s = none

theorem steps_end (re : Program) (pos : Nat) (place : Place) (after : Nat → Slots → Option Slots) :
    Steps re none place (thread re [] pos) after := by
  refine ⟨fun pc s h => ?_, fun pc s instr _ _ h => ?_, fun pc s instr hget hne _ => ?_⟩
  · rw [thread, if_pos h]
  · cases h
  · rw [thread, if_neg (by rw [hget]; simpa using hne)]

theorem steps_cons (re : Program) (code width : Nat) (rest : Scalars) (pos : Nat) :
    Steps re (some code) (placeAt rest (pos + width) (some code)) (thread re ((code, width) :: rest) pos)
      (thread re rest (pos + width)) := by
  refine ⟨fun pc s h => ?_, fun pc s instr hget hne h => ?_, fun pc s instr hget hne h => ?_⟩
  · rw [thread, if_pos h]
  · rw [Option.any_some] at h
    rw [thread, if_neg (by rw [hget]; simpa using hne), hget, Option.any_some, if_pos h]
  · rw [Option.any_some] at h
    rw [thread, if_neg (by rw [hget]; simpa using hne), hget, Option.any_some, h, if_neg (by simp)]

/-- A pass over `count` threads: the list behind the scalar comes to the match that these threads come to. -/
structure Passed (re : Program) (slots : Nat) (code : Option Nat) (place : Place)
    (after : Nat → Slots → Option Slots) (count length : Nat) (ws : Workspace) (total : Option Slots)
    (done : Pass) : Prop where
  room : Room re slots done.ws
  best : done.matched = false → done.ws.best = ws.best
  sparse : Sparse re slots done.ws.next done.length
  steps : done.ws.steps + length ≤ ws.steps + count + done.length
  still : code = none → done.length = length
  threads : ∃ listed, Lists re done.ws.next done.length listed ∧ Closed (follow re place) listed ∧
    (firstOf after listed).or (if done.matched then some done.ws.best else none) = total

theorem accepts_waits (h : (code.any fun c => accepts re c instr) = true) : instr.waits = true := by
  cases code with
  | none => cases h
  | some c => cases instr <;> first | rfl | cases h

theorem pass_match (htarget : FaultVec.index ws.current.dense position = .ok target)
    (hget : re.code[target]? = some .match_) (hbest : FaultVec.index ws.current.table target = .ok best) :
    pass re slots code place (remaining + 1) position ws length =
      .ok { ws := { ws with steps := ws.steps + 1, best }, length, matched := true } := by
  simp only [pass, htarget, index_getElem hget, hbest, ok_bind]

theorem pass_other (htarget : FaultVec.index ws.current.dense position = .ok target)
    (hget : re.code[target]? = some instr) (hne : instr ≠ .match_) (hfits : instr.Fits re.classes.length) :
    pass re slots code place (remaining + 1) position ws length =
      if (code.any fun c => accepts re c instr) = true then do
        let work ← FaultVec.index ws.current.table target
        let added ← addThread re slots ws.next length (target + 1) place work
        pass re slots code place remaining (position + 1)
          { ws with
            next := added.threads, work := added.work, steps := ws.steps + 1 + added.steps } added.size
      else pass re slots code place remaining (position + 1) { ws with steps := ws.steps + 1 } length := by
  rw [pass, htarget, ok_bind]
  simp only [index_getElem hget, ok_bind]
  cases instr with
  | match_ => exact absurd rfl hne
  | _ =>
    simp only [consumes_ok hfits code, ok_bind]

theorem pass_ok (h : Linked re) {leaf : Nat → Slots → Option Slots}
    (hsteps : Steps re code place leaf (thread re rest pos)) {threads : ThreadList} {total : Nat}
    {all : List (Nat × Slots)} (hsparse : Sparse re slots threads total) (hlists : Lists re threads total all) :
    ∀ (remaining position : Nat) (ws : Workspace) (length : Nat) (behind : List (Nat × Slots)),
      position + remaining = total → ws.current = threads → Room re slots ws →
      Sparse re slots ws.next length → Lists re ws.next length behind → Closed (follow re place) behind →
      ∃ done, pass re slots code place remaining position ws length = .ok done ∧
        Passed re slots code place (thread re rest pos) remaining length ws
          ((firstOf (thread re rest pos) behind).or (firstOf leaf (all.drop position))) done := by
  have hlength : all.length = total := by
    have := congrArg List.length hlists.order
    rw [hsparse.length_take, length_map] at this
    exact this.symm
  intro remaining
  induction remaining with
  | zero =>
    intro position ws length behind hposition hcurrent hroom hnext hbehind hclosed
    refine ⟨_, rfl, hroom, fun _ => rfl, hnext, by simp only; omega, fun _ => rfl, behind, hbehind, hclosed, ?_⟩
    rw [drop_eq_nil_of_le (by omega)]
    simp [firstOf]
  | succ remaining ih =>
    intro position ws length behind hposition hcurrent hroom hnext hbehind hclosed
    subst hcurrent
    have hlt : position < all.length := by omega
    obtain ⟨e, he⟩ : ∃ e, all[position] = e := ⟨_, rfl⟩
    have hmem : e ∈ all := he ▸ getElem_mem hlt
    have hdrop : all.drop position = e :: all.drop (position + 1) := by
      rw [drop_eq_getElem_cons hlt, he]
    have hdense : ws.current.dense[position]? = some e.1 := by
      have horder := congrArg (·[position]?) hlists.order
      simp only [getElem?_take, getElem?_map, getElem?_eq_getElem hlt, he,
        if_pos (show position < total by omega)] at horder
      exact horder
    have hpc : e.1 < re.code.length := by
      apply hsparse.lt_of_mem
      rw [hlists.order]
      exact mem_map.mpr ⟨e, hmem, rfl⟩
    obtain ⟨instr, hget⟩ : ∃ instr, re.code[e.1]? = some instr := ⟨_, getElem?_eq_getElem hpc⟩
    have htarget := index_getElem hdense
    rw [hdrop, firstOf_cons]
    by_cases hmatch : instr = .match_
    · -- the first thread at a match decides, and the threads behind it are dropped
      subst hmatch
      have hrow := hlists.slots e hmem _ hget rfl
      refine ⟨_, pass_match htarget hget (index_getElem hrow), ⟨hroom.current, hroom.next, hroom.work,
        hroom.current.rows _ (mem_of_getElem? hrow)⟩, by simp, hnext, by simp only; omega,
        fun _ => rfl, behind, hbehind, hclosed, ?_⟩
      rw [hsteps.found e.1 e.2 hget]
      rfl
    · rw [pass_other htarget hget hmatch (h.fits e.1 _ hget)]
      cases haccepts : code.any fun c => accepts re c instr with
      | false =>
        rw [if_neg (by simp), hsteps.stops e.1 e.2 instr hget hmatch haccepts, Option.none_or]
        obtain ⟨done, hdone, hp⟩ := ih (position + 1) { ws with steps := ws.steps + 1 } length behind
          (by omega) rfl ⟨hroom.current, hroom.next, hroom.work, hroom.best⟩ hnext hbehind hclosed
        refine ⟨done, hdone, hp.room, hp.best, hp.sparse, ?_, hp.still, hp.threads⟩
        have := hp.steps
        simp only at this
        omega
      | true =>
        have hrow := hlists.slots e hmem _ hget (accepts_waits haccepts)
        have hwork := hroom.current.rows _ (mem_of_getElem? hrow)
        have hsucc := h.next e.1 _ hget hmatch
        obtain ⟨added, hadd, ha⟩ := addThread_ok h place hsucc hnext hbehind hwork
        obtain ⟨listed, hlisted, hclosed', hvalue⟩ := ha.first h hsucc hclosed rest pos
        obtain ⟨done, hdone, hp⟩ := ih (position + 1)
          { ws with next := added.threads, work := added.work, steps := ws.steps + 1 + added.steps }
          added.size listed (by omega) rfl
          ⟨hroom.current, ha.sparse.shape, ha.work, hroom.best⟩ ha.sparse hlisted hclosed'
        rw [if_pos rfl, index_getElem hrow, ok_bind, hadd, ok_bind]
        refine ⟨done, hdone, hp.room, hp.best, hp.sparse, ?_, ?_, ?_⟩
        · have h1 := hp.steps
          have h2 := ha.steps
          simp only at h1
          omega
        · rintro rfl
          cases haccepts
        · rw [hsteps.moves e.1 e.2 instr hget hmatch haccepts, ← Option.or_assoc, ← hvalue]
          exact hp.threads

/-! ## The loop -/

def Reads (input : Input) : Scalars → Nat → Prop
  | [], pos => input.scalar pos = .ok none
  | (code, width) :: rest, pos =>
    input.scalar pos = .ok (some (code, width)) ∧ 0 < width ∧ Reads input rest (pos + width)

theorem Reads.scalar {input : Input} (h : Reads input rest pos) : input.scalar pos = .ok rest.head? := by
  cases rest with
  | nil => exact h
  | cons c rest => exact h.1

def later (re : Program) (slots : Nat) (rest : Scalars) (pos : Nat) : Option Slots :=
  match rest with
  | [] => none
  | (code, width) :: rest => leftmost re slots rest (pos + width) (some code)

theorem leftmost_eq (re : Program) (slots : Nat) (rest : Scalars) (pos : Nat) (prev : Option Nat) :
    leftmost re slots rest pos prev =
      (branches re rest pos prev 0 (List.replicate slots (-1))).or (later re slots rest pos) := by
  cases rest with
  | nil => simp [leftmost, later]
  | cons c rest => rfl

theorem later_anchored (h : Linked re) (hanchored : re.anchored = true) (slots : Nat) (rest : Scalars)
    (pos : Nat) : later re slots rest pos = none := by
  cases rest with
  | nil => rfl
  | cons c rest => exact leftmost_anchored h hanchored slots rest _ _

/-- The loop of `search` with the scalars left comes to the match of the whole search. -/
structure Searching (re : Program) (slots start : Nat) (first : Bool) (input : Input) (bound : Nat)
    (total : Option Slots) (rest : Scalars) (m : Machine) : Prop where
  reads : Reads input rest m.pos
  here : m.here = rest.head?
  from_start : start ≤ m.pos
  prev : m.pos ≠ start → m.prev.isSome = true
  room : Room re slots m.ws
  sparse : Sparse re slots m.ws.current m.length
  steps : m.ws.steps + 2 * re.code.length * (rest.length + 1) ≤ bound + m.length
  unmatched : first = true → m.matched = false
  threads : ∃ listed, Lists re m.ws.current m.length listed ∧ Closed (follow re (placeAt rest m.pos m.prev)) listed ∧
    (firstOf (thread re rest m.pos) listed).or
      (if m.matched then some m.ws.best else leftmost re slots rest m.pos m.prev) = total

structure Searched (re : Program) (slots : Nat) (first : Bool) (bound : Nat) (total : Option Slots)
    (result : Bool × Workspace) : Prop where
  found : result.1 = total.isSome
  best : first = false → total = if result.1 then some result.2.best else none
  room : Room re slots result.2
  steps : result.2.steps ≤ bound

/-- What the start thread changes. -/
structure Started (re : Program) (slots : Nat) (total : Option Slots) (rest : Scalars) (m : Machine)
    (result : Workspace × Nat) : Prop where
  room : Room re slots result.1
  best : result.1.best = m.ws.best
  sparse : Sparse re slots result.1.current result.2
  steps : result.1.steps + m.length = m.ws.steps + result.2
  empty : result.2 = 0 → m.matched = true ∨ later re slots rest m.pos = none
  threads : ∃ listed, Lists re result.1.current result.2 listed ∧
    Closed (follow re (placeAt rest m.pos m.prev)) listed ∧
    (firstOf (thread re rest m.pos) listed).or (if m.matched then some m.ws.best else later re slots rest m.pos) = total

variable {start : Nat} {first : Bool} {input : Input} {bound : Nat} {total : Option Slots}

theorem addStart_ok (h : Linked re) (hm : Searching re slots start first input bound total rest m) :
    ∃ result, addStart re slots start m = .ok result ∧ Started re slots total rest m result := by
  obtain ⟨listed, hlists, hclosed, hvalue⟩ := hm.threads
  have hroom := hm.room
  unfold addStart
  cases hmatched : m.matched with
  | true =>
    rw [hmatched, if_pos rfl] at hvalue
    refine ⟨(m.ws, m.length), by simp, hroom, rfl, hm.sparse, rfl, fun _ => .inl hmatched, listed, hlists, hclosed, ?_⟩
    rw [hmatched, if_pos rfl]
    exact hvalue
  | false =>
    rw [hmatched, if_neg (by simp), leftmost_eq] at hvalue
    by_cases hadd : (m.pos = start || !re.anchored) = true
    · rw [if_pos (by simpa using hadd)]
      have hplace : ({ pos := m.pos, prev := m.prev, next := m.here.map Prod.fst } : Place) =
          placeAt rest m.pos m.prev := by
        rw [hm.here]
        rfl
      obtain ⟨added, hadded, ha⟩ := addThread_ok h (placeAt rest m.pos m.prev) h.pos hm.sparse
        hlists (length_replicate (n := slots) (a := (-1 : Int)))
      obtain ⟨listed', hlists', hclosed', hvalue'⟩ := ha.first h h.pos hclosed rest m.pos
      simp only [hplace, hadded, ok_bind]
      refine ⟨_, rfl, ⟨ha.sparse.shape, hroom.next, ha.work, hroom.best⟩, rfl, ha.sparse, ?_, ?_, listed',
        hlists', hclosed', ?_⟩
      · have := ha.steps
        simp only
        omega
      · -- the start itself is listed
        intro hzero
        obtain ⟨out, hout, hexplore⟩ := ha.search
        have hin := hexplore.mem (v := 0) (by simp)
        simp only at hzero
        rw [← hout.order, hzero] at hin
        simp at hin
      · rw [hmatched, if_neg (by simp), hvalue', Option.or_assoc]
        exact hvalue
    · rw [if_neg (by simpa using hadd)]
      simp only [Bool.or_eq_true, decide_eq_true_eq, Bool.not_eq_true', not_or, Bool.not_eq_false] at hadd
      obtain ⟨prev, hprev⟩ := Option.isSome_iff_exists.mp (hm.prev hadd.1)
      have hlater := later_anchored h hadd.2 slots rest m.pos
      refine ⟨(m.ws, m.length), rfl, hroom, rfl, hm.sparse, rfl, fun _ => .inr hlater, listed, hlists, hclosed, ?_⟩
      rw [hprev, branches_anchored h hadd.2, Option.none_or] at hvalue
      rw [hmatched, if_neg (by simp)]
      exact hvalue

theorem or_held (x later : Option Slots) (matched met : Bool) {best' : Slots} (hbest : met = false → best' = best) :
    (x.or (if met then some best' else none)).or (if matched then some best else later) =
      x.or (if matched || met then some best' else later) := by
  cases met with
  | true => cases x <;> simp
  | false =>
    rw [hbest rfl]
    simp

variable (h : Linked re)

include h

theorem turn_ok (hm : Searching re slots start first input bound total rest m) {behind : Scalars}
    (hsteps : Steps re code place (thread re rest m.pos) (thread re behind pos)) :
    ∃ ws length, addStart re slots start m = .ok (ws, length) ∧ length ≤ re.code.length ∧
      (length = 0 → m.ws.steps + 2 * re.code.length * (rest.length + 1) ≤ bound + m.length ∧
        Searched re slots first bound total (m.matched, ws)) ∧
      ∃ done, pass re slots code place length 0 ws 0 = .ok done ∧ Room re slots done.ws ∧
        Sparse re slots done.ws.next done.length ∧ (code = none → done.length = 0) ∧
        done.ws.steps + 2 * re.code.length * (rest.length + 1) ≤ bound + 2 * length + done.length ∧
        ∃ listed, Lists re done.ws.next done.length listed ∧ Closed (follow re place) listed ∧
          (firstOf (thread re behind pos) listed).or (if m.matched || done.matched then some done.ws.best
              else later re slots rest m.pos) = total := by
  obtain ⟨⟨ws, length⟩, hstart, hs⟩ := addStart_ok h hm
  obtain ⟨listed, hlists, hclosed, hvalue⟩ := hs.threads
  have hsteps0 := hm.steps
  have hsteps1 := hs.steps
  simp only at hsteps1
  refine ⟨ws, length, hstart, hs.sparse.size_le, ?_, ?_⟩
  · intro hzero
    refine ⟨hm.steps, ?_⟩
    subst hzero
    have hnil : listed = [] := by simpa using hlists.order.symm
    have htotal : total = if m.matched then some ws.best else none := by
      rw [hs.best, ← hvalue, hnil]
      rcases hs.empty rfl with hmatched | hlater
      · simp [firstOf, hmatched]
      · simp [firstOf, hlater]
    refine ⟨?_, fun _ => htotal, hs.room, ?_⟩
    · rw [htotal]
      cases m.matched <;> rfl
    · simp only
      omega
  · obtain ⟨done, hdone, hp⟩ := pass_ok h hsteps hs.sparse hlists length 0 ws 0 [] (by simp) rfl
      hs.room (sparse_zero hs.room.next) (lists_nil re ws.next) (Closed.nil _)
    obtain ⟨listed', hlists', hclosed', hvalue'⟩ := hp.threads
    refine ⟨done, hdone, hp.room, hp.sparse, hp.still, ?_, listed', hlists', hclosed', ?_⟩
    · have := hp.steps
      omega
    · have hbest : done.matched = false → done.ws.best = m.ws.best :=
        fun hnot => (hp.best hnot).trans hs.best
      rw [← or_held _ _ _ _ hbest, hvalue', ← hvalue]
      simp [firstOf]

theorem searchTurn_end (hm : Searching re slots start first input bound total [] m) :
    ∃ result, searchTurn re input slots start first m = .ok (.leave result) ∧
      Searched re slots first bound total result := by
  have hhere : m.here = none := hm.here
  obtain ⟨ws, length, hstart, hlength, hzero, done, hdone, hroom, _, hstill, hsteps, listed, hlists, _,
    hvalue⟩ := turn_ok h hm (steps_end re m.pos { pos := m.pos, prev := none, next := none } (thread re [] m.pos))
  unfold searchTurn
  rw [hstart, ok_bind]
  by_cases hempty : length = 0
  · exact ⟨_, by simp [hempty], (hzero hempty).2⟩
  · have hnil : listed = [] := by
      have := hlists.order
      rw [hstill rfl] at this
      simpa using this.symm
    have htotal : total = if m.matched || done.matched then some done.ws.best else none := by
      rw [← hvalue, hnil]
      simp [firstOf, later]
    refine ⟨(m.matched || done.matched, done.ws), ?_, ?_, fun _ => htotal, hroom, ?_⟩
    · simp only [hhere, Option.map_none, ok_bind, hdone, hempty, if_false, Option.isNone_none, Bool.or_true, if_true]
    · rw [htotal]
      cases m.matched || done.matched <;> rfl
    · have := hstill rfl
      simp only [length_nil] at hsteps ⊢
      omega

theorem searchTurn_cons {code width : Nat}
    (hm : Searching re slots start first input bound total ((code, width) :: rest) m) :
    (∃ result, searchTurn re input slots start first m = .ok (.leave result) ∧
      Searched re slots first bound total result) ∨ (∃ m', searchTurn re input slots start first m = .ok (.go m') ∧
      Searching re slots start first input bound total rest m') := by
  have hhere : m.here = some (code, width) := hm.here
  obtain ⟨_, hwidth, hreads⟩ := hm.reads
  obtain ⟨ws, length, hstart, hlength, hzero, done, hdone, hroom, hsparse, _, hsteps, listed, hlists,
    hclosed, hvalue⟩ := turn_ok h hm (steps_cons re code width rest m.pos)
  have hplace : placeAt rest (m.pos + width) (some code) =
      { pos := m.pos + width, prev := some code, next := rest.head?.map Prod.fst } := rfl
  rw [hplace] at hdone
  have hmul : 2 * re.code.length * (rest.length + 1 + 1) =
      2 * re.code.length * (rest.length + 1) + 2 * re.code.length := Nat.mul_succ _ _
  have hpos : 0 ≤ 2 * re.code.length * rest.length := Nat.zero_le _
  rw [length_cons, hmul] at hsteps
  have hsize := hsparse.size_le
  unfold searchTurn
  rw [hstart, ok_bind]
  by_cases hempty : length = 0
  · exact .inl ⟨_, by simp [hempty], (hzero hempty).2⟩
  · simp only [hhere, Option.map_some, hreads.scalar, ok_bind, hdone, hempty, if_false,
      Option.isNone_some, Bool.or_false]
    by_cases hleave : (done.matched && first) = true
    · left
      simp only [Bool.and_eq_true] at hleave
      refine ⟨(m.matched || done.matched, done.ws), by simp [hleave.1, hleave.2], ?_, ?_, hroom, ?_⟩
      · rw [← hvalue, hleave.1]
        simp
      · intro hfirst
        rw [hfirst] at hleave
        cases hleave.2
      · rw [Nat.mul_succ] at hsteps
        simp only
        omega
    · right
      rw [if_neg hleave]
      refine ⟨_, rfl, hreads, rfl, ?_, ?_, ⟨hroom.next, hroom.current, hroom.work, hroom.best⟩, hsparse,
        ?_, ?_, listed, hlists, hclosed, hvalue⟩
      · have := hm.from_start
        simp only
        omega
      · intro _
        rfl
      · simp only
        omega
      · intro hfirst
        rw [hfirst, Bool.and_true] at hleave
        simp only [hm.unmatched hfirst, Bool.false_or]
        simpa using hleave

theorem loop_search_ok : ∀ (rest : Scalars) (fuel : Nat) (m : Machine),
    rest.length < fuel → Searching re slots start first input bound total rest m →
    ∃ result, loop fuel (searchTurn re input slots start first) m = .ok result ∧
      Searched re slots first bound total result := by
  intro rest
  induction rest with
  | nil =>
    intro fuel m hfuel hm
    obtain ⟨fuel, rfl⟩ : ∃ f, fuel = f + 1 := ⟨fuel - 1, by omega⟩
    obtain ⟨result, hturn, hr⟩ := searchTurn_end h hm
    refine ⟨result, ?_, hr⟩
    rw [loop, hturn]
    rfl
  | cons c rest ih =>
    intro fuel m hfuel hm
    rw [length_cons] at hfuel
    obtain ⟨fuel, rfl⟩ : ∃ f, fuel = f + 1 := ⟨fuel - 1, by omega⟩
    rcases searchTurn_cons h hm with ⟨result, hturn, hr⟩ | ⟨m', hturn, hm'⟩
    · refine ⟨result, ?_, hr⟩
      rw [loop, hturn]
      rfl
    · obtain ⟨result, hrun, hr⟩ := ih fuel m' (by omega) hm'
      refine ⟨result, ?_, hr⟩
      rw [loop, hturn]
      exact hrun

theorem search_ok {prev : Option Nat} (hreads : Reads input rest start)
    (hprev : input.before start = .ok prev) (hlength : rest.length ≤ input.length) (hroom : Room re slots ws) :
    ∃ result, search re input ws start slots first = .ok result ∧
      Searched re slots first (ws.steps + 2 * re.code.length * (rest.length + 1))
        (leftmost re slots rest start prev) result := by
  unfold search
  rw [hprev, ok_bind, hreads.scalar, ok_bind]
  refine loop_search_ok h rest _ _ (by omega) ⟨hreads, rfl, Nat.le_refl _, fun hne => absurd rfl hne,
    hroom, sparse_zero hroom.current, by simp, fun _ => rfl, [], lists_nil re _, Closed.nil _, ?_⟩
  simp [firstOf]

end Search

end Tsuzuri.Regex
