import Tsuzuri.RegexBacktrack

/-!
# The lists of threads

`add_thread` is a depth-first search (`Explore`) whose set of entered instructions is a sparse set, with entries that
restore the row of slots.
-/

namespace Tsuzuri.Regex

open FaultVec (Exec Turn loop loop_ok index_ok get_natCast)
open FaultVec (ok_bind set_ok)
open OrderedSearch List

theorem index_getElem {α : Type} {xs : List α} {i : Nat} {x : α} (h : xs[i]? = some x) : FaultVec.index xs i = .ok x :=
  index_ok (by rw [get_natCast, h])

variable {re : Program} {instr : Instr} {threads : ThreadList} {pc target : Nat} {stack : List Entry}

theorem inClass_ok {id : Nat} (h : id < re.classes.length) (code : Nat) :
    inClass re id code = .ok (classHas re id code) := by
  unfold inClass classHas
  rw [index_getElem (getElem?_eq_getElem h), getElem?_eq_getElem h]
  rfl

theorem holds_ok {kind word : Nat} (h : 4 ≤ kind → word < re.classes.length) (prev next : Option Nat) :
    holds re kind word prev next = .ok (asserts re kind word prev next) := by
  unfold holds asserts
  split
  · rfl
  split
  · rfl
  split
  · rfl
  split
  · rfl
  have hword := fun code => inClass_ok (h (by omega)) code
  cases prev <;> cases next <;> simp [hword]

theorem consumes_ok (h : instr.Fits re.classes.length) (code : Option Nat) :
    consumes re instr code = .ok (code.any fun c => accepts re c instr) := by
  cases code with
  | none => rfl
  | some c =>
    cases instr with
    | cls id => exact inClass_ok h c
    | _ => rfl

/-! ## Sparse sets -/

/-- The arrays of a list have room for every instruction and a row of slots for each. -/
structure Shape (re : Program) (slots : Nat) (threads : ThreadList) : Prop where
  dense : threads.dense.length = re.code.length
  sparse : threads.sparse.length = re.code.length
  table : threads.table.length = re.code.length
  rows : ∀ row ∈ threads.table, row.length = slots

theorem shape_emptyThreads (re : Program) (slots : Nat) : Shape re slots (emptyThreads re.code.length slots) := by
  refine ⟨by simp [emptyThreads], by simp [emptyThreads], by simp [emptyThreads], ?_⟩
  intro row hrow
  rw [eq_of_mem_replicate hrow, length_replicate]

/-- The first `size` entries are different instructions, each with its place in `sparse`. -/
structure Sparse (re : Program) (slots : Nat) (threads : ThreadList) (size : Nat) : Prop where
  shape : Shape re slots threads
  size_le : size ≤ re.code.length
  nodup : (threads.dense.take size).Nodup
  back : ∀ k, k < size → ∃ pc, threads.dense[k]? = some pc ∧ pc < re.code.length ∧ threads.sparse[pc]? = some k

theorem sparse_zero {slots : Nat} (h : Shape re slots threads) : Sparse re slots threads 0 :=
  ⟨h, Nat.zero_le _, by simp, by simp⟩

section Sparse

variable {re : Program} {slots : Nat} {threads : ThreadList} {size : Nat}

theorem Sparse.length_take (h : Sparse re slots threads size) : (threads.dense.take size).length = size := by
  rw [List.length_take, h.shape.dense]
  exact Nat.min_eq_left h.size_le

theorem mem_take_dense : pc ∈ threads.dense.take size ↔ ∃ k, k < size ∧ threads.dense[k]? = some pc := by
  rw [mem_iff_getElem?]
  constructor
  · rintro ⟨k, hk⟩
    rw [getElem?_take] at hk
    split at hk
    · exact ⟨k, ‹_›, hk⟩
    · cases hk
  · rintro ⟨k, hk, hget⟩
    exact ⟨k, by rw [getElem?_take, if_pos hk, hget]⟩

variable (h : Sparse re slots threads size)

include h

theorem Sparse.lt_of_mem (hpc : pc ∈ threads.dense.take size) : pc < re.code.length := by
  obtain ⟨k, hk, hget⟩ := mem_take_dense.mp hpc
  obtain ⟨pc', hget', hlt, _⟩ := h.back k hk
  rw [hget] at hget'
  cases hget'
  exact hlt

variable (ht : target < re.code.length)

include ht

theorem isListed_ok : isListed threads size target = .ok (decide (target ∈ threads.dense.take size)) := by
  have hlt : target < threads.sparse.length := by rw [h.shape.sparse]; exact ht
  unfold isListed
  rw [index_getElem (getElem?_eq_getElem hlt), ok_bind]
  by_cases hseen : size ≤ threads.sparse[target]
  · rw [if_pos hseen]
    have hout : target ∉ threads.dense.take size := by
      intro hin
      obtain ⟨k, hk, hget⟩ := mem_take_dense.mp hin
      obtain ⟨pc, hget', _, hback⟩ := h.back k hk
      rw [hget] at hget'
      cases hget'
      rw [getElem?_eq_getElem hlt] at hback
      have := Option.some.inj hback
      omega
    rw [decide_eq_false hout]
  · rw [if_neg hseen]
    obtain ⟨pc, hget, _, hback⟩ := h.back _ (Nat.lt_of_not_le hseen)
    rw [index_getElem hget, ok_bind]
    congr 1
    rw [decide_eq_decide]
    constructor
    · rintro rfl
      exact mem_take_dense.mpr ⟨_, Nat.lt_of_not_le hseen, hget⟩
    · intro hin
      obtain ⟨k, hk, hgetk⟩ := mem_take_dense.mp hin
      obtain ⟨pc', hget', _, hback'⟩ := h.back k hk
      rw [hgetk] at hget'
      cases hget'
      rw [getElem?_eq_getElem hlt] at hback'
      obtain rfl : threads.sparse[target] = k := Option.some.inj hback'
      rw [hget] at hgetk
      exact Option.some.inj hgetk

theorem Sparse.size_lt (hout : target ∉ threads.dense.take size) : size < re.code.length := by
  have hsub : (target :: threads.dense.take size).length ≤ (List.range re.code.length).length := by
    refine Nodup.length_le_of_subset (nodup_cons.mpr ⟨hout, h.nodup⟩) ?_
    intro pc hpc
    rw [mem_range]
    rcases mem_cons.mp hpc with rfl | hpc
    · exact ht
    · exact h.lt_of_mem hpc
  rw [length_cons, h.length_take, length_range] at hsub
  exact hsub

theorem listThread_ok (hout : target ∉ threads.dense.take size) :
    ∃ after, listThread threads size target = .ok after ∧ Sparse re slots after (size + 1) ∧
      after.dense.take (size + 1) = threads.dense.take size ++ [target] ∧ after.table = threads.table := by
  have hsize := h.size_lt ht hout
  have hdense : size < threads.dense.length := by rw [h.shape.dense]; exact hsize
  have htake : (threads.dense.set size target).take (size + 1) = threads.dense.take size ++ [target] := by
    rw [take_succ_eq_append_getElem (by simpa using hdense)]
    simp [take_set_of_le]
  refine ⟨{ threads with
    sparse := threads.sparse.set target size, dense := threads.dense.set size target }, ?_, ?_, htake, rfl⟩
  · unfold listThread
    rw [set_ok (by rw [h.shape.sparse]; exact ht), ok_bind, set_ok hdense, ok_bind]
  · refine ⟨⟨by simpa using h.shape.dense, by simpa using h.shape.sparse, h.shape.table, h.shape.rows⟩, hsize, ?_, ?_⟩
    · rw [htake]
      refine nodup_append.mpr ⟨h.nodup, nodup_singleton _, ?_⟩
      intro a ha b hb
      obtain rfl := mem_singleton.mp hb
      rintro rfl
      exact hout ha
    · intro k hk
      by_cases hks : k = size
      · subst hks
        exact ⟨target, by simp [hdense], ht, by simp [h.shape.sparse, ht]⟩
      · have hlt : k < size := by omega
        obtain ⟨pc, hget, hpc, hback⟩ := h.back k hlt
        have hne : pc ≠ target := by
          rintro rfl
          exact hout (mem_take_dense.mpr ⟨k, hlt, hget⟩)
        refine ⟨pc, ?_, hpc, ?_⟩
        · rw [getElem?_set_ne (Ne.symm hks)]
          exact hget
        · rw [getElem?_set_ne (Ne.symm hne)]
          exact hback

end Sparse

/-! ## Threads -/

def Instr.waits : Instr → Bool
  | .jump _ => false
  | .split _ _ => false
  | .save _ => false
  | .assert _ _ => false
  | _ => true

structure Lists (re : Program) (threads : ThreadList) (size : Nat) (listed : List (Nat × Slots)) :
    Prop where
  order : threads.dense.take size = listed.map Prod.fst
  slots : ∀ e ∈ listed, ∀ instr, re.code[e.1]? = some instr → instr.waits = true → threads.table[e.1]? = some e.2

theorem lists_nil (re : Program) (threads : ThreadList) : Lists re threads 0 [] :=
  ⟨by simp, by simp⟩

/-- The vertices that a stack stands for: an entry to restore changes the slots below it. -/
def denote : Slots → List Entry → List (Nat × Slots)
  | _, [] => []
  | work, .explore pc :: stack => (pc, work) :: denote work stack
  | work, .restore slot old :: stack => denote (work.set slot old) stack

def Entry.Fits (re : Program) (slots : Nat) : Entry → Prop
  | .explore pc => pc < re.code.length
  | .restore slot _ => slot < slots

theorem pushEntries_ok {entries : List Entry} (h : entries.length + stack.length ≤ 2 * re.code.length + 1) :
    pushEntries re entries stack = .ok (entries.reverse ++ stack) :=
  if_pos h

section Adding

variable {re : Program} {slots : Nat} {place : Place}

/-- What `explore` leaves at a new instruction: its successors on the stack, or a waiting thread. -/
structure Explored (re : Program) (slots : Nat) (place : Place) (target : Nat) (s after : Adding) :
    Prop where
  size : after.size = s.size
  steps : after.steps = s.steps
  dense : after.threads.dense = s.threads.dense
  sparse : after.threads.sparse = s.threads.sparse
  shape : Shape re slots after.threads
  work : after.work.length = slots
  fits : ∀ e ∈ after.stack, e.Fits re slots
  room : after.stack.length ≤ s.stack.length + 2
  todo : denote after.work after.stack = follow re place target s.work ++ denote s.work s.stack
  others : ∀ pc, pc ≠ target → after.threads.table[pc]? = s.threads.table[pc]?
  row : ∀ instr, re.code[target]? = some instr → instr.waits = true → after.threads.table[target]? = some s.work

variable {s : Adding} {work : Slots}

theorem explored_push (hget : re.code[target]? = some instr) (hmoves : instr.waits = false)
    (hshape : Shape re slots s.threads) (hwork : work.length = slots) (hfits : ∀ e ∈ stack, e.Fits re slots)
    (hroom : stack.length ≤ s.stack.length + 2)
    (htodo : denote work stack = follow re place target s.work ++ denote s.work s.stack) :
    Explored re slots place target s { s with work, stack } where
  size := rfl
  steps := rfl
  dense := rfl
  sparse := rfl
  shape := hshape
  work := hwork
  fits := hfits
  room := hroom
  todo := htodo
  others := fun _ _ => rfl
  row := by
    intro instr' hget' hwaits
    rw [hget] at hget'
    cases hget'
    rw [hmoves] at hwaits
    cases hwaits

theorem explored_row (ht : target < re.code.length) (hnone : follow re place target s.work = [])
    (hshape : Shape re slots s.threads) (hwork : s.work.length = slots)
    (hfits : ∀ e ∈ s.stack, e.Fits re slots) :
    ∃ after, (do
        let table ← FaultVec.set target s.work s.threads.table
        .ok { s with threads := { s.threads with table } } : Exec Adding) = .ok after ∧
      Explored re slots place target s after := by
  have hlen : target < s.threads.table.length := by rw [hshape.table]; exact ht
  refine ⟨{ s with threads := { s.threads with table := s.threads.table.set target s.work } }, ?_,
    { size := rfl, steps := rfl, dense := rfl, sparse := rfl, shape := ?_, work := hwork, fits := hfits,
      room := Nat.le_add_right _ _, todo := by rw [hnone]; rfl, others := ?_, row := ?_ }⟩
  · rw [set_ok hlen, ok_bind]
  · refine ⟨hshape.dense, hshape.sparse, by simpa using hshape.table, ?_⟩
    intro row hrow
    rcases mem_or_eq_of_mem_set hrow with hrow | rfl
    · exact hshape.rows row hrow
    · exact hwork
  · intro pc hpc
    exact getElem?_set_ne (Ne.symm hpc)
  · intro instr _ _
    simp [hlen]

theorem explore_ok (h : Linked re) (place : Place) (ht : target < re.code.length)
    (hshape : Shape re slots s.threads) (hwork : s.work.length = slots)
    (hfits : ∀ e ∈ s.stack, e.Fits re slots) (hroom : s.stack.length + 2 ≤ 2 * re.code.length + 1) :
    ∃ after, explore re slots place s target = .ok after ∧ Explored re slots place target s after := by
  have hget := getElem?_eq_getElem ht
  have hgoals := h.goals target _ hget
  have hnext := h.next target _ hget
  have hclass := h.fits target _ hget
  have hpush : ∀ entries : List Entry, entries.length ≤ 2 →
      pushEntries re entries s.stack = .ok (entries.reverse ++ s.stack) :=
    fun entries hlen => pushEntries_ok (by omega)
  unfold explore
  rw [index_getElem hget, ok_bind]
  cases hinstr : re.code[target] with
  | jump goal =>
    rw [hinstr] at hget hgoals
    refine ⟨{ s with stack := .explore goal :: s.stack }, ?_, explored_push hget rfl hshape hwork
      (forall_mem_cons.mpr ⟨hgoals goal (by simp [Instr.goals]), hfits⟩) (by simp)
      (by simp [denote, follow, hget])⟩
    simp only [hpush [.explore goal] (by simp)]
    rfl
  | split first second =>
    rw [hinstr] at hget hgoals
    refine ⟨{ s with stack := .explore first :: .explore second :: s.stack }, ?_,
      explored_push hget rfl hshape hwork (forall_mem_cons.mpr
        ⟨hgoals first (by simp [Instr.goals]), forall_mem_cons.mpr
          ⟨hgoals second (by simp [Instr.goals]), hfits⟩⟩) (by simp)
      (by simp [denote, follow, hget])⟩
    simp only [hpush [.explore second, .explore first] (by simp)]
    rfl
  | save slot =>
    rw [hinstr] at hget hnext
    have hlt := hnext (by simp)
    by_cases hslot : slot < slots
    · have hold : slot < s.work.length := by rw [hwork]; exact hslot
      refine ⟨{ s with
          work := s.work.set slot place.pos
          stack := .explore (target + 1) :: .restore slot s.work[slot] :: s.stack }, ?_,
        explored_push hget rfl hshape (by simpa using hwork) (forall_mem_cons.mpr
          ⟨hlt, forall_mem_cons.mpr ⟨hslot, hfits⟩⟩) (by simp) (by simp [denote, follow, hget])⟩
      simp only [if_pos hslot, index_getElem (getElem?_eq_getElem hold), ok_bind,
        set_ok hold, hpush [.restore slot s.work[slot], .explore (target + 1)] (by simp)]
      rfl
    · -- a slot outside the row is not kept
      have hset : s.work.set slot (place.pos : Int) = s.work :=
        set_eq_of_length_le (by omega)
      refine ⟨{ s with stack := .explore (target + 1) :: s.stack }, ?_,
        explored_push hget rfl hshape hwork (forall_mem_cons.mpr ⟨hlt, hfits⟩) (by simp)
          (by simp [denote, follow, hget, hset])⟩
      simp only [if_neg hslot, hpush [.explore (target + 1)] (by simp)]
      rfl
  | assert kind word =>
    rw [hinstr] at hget hnext hclass
    have hholds := holds_ok hclass place.prev place.next
    cases hassert : asserts re kind word place.prev place.next with
    | true =>
      refine ⟨{ s with stack := .explore (target + 1) :: s.stack }, ?_,
        explored_push hget rfl hshape hwork (forall_mem_cons.mpr ⟨hnext (by simp), hfits⟩) (by simp)
          (by simp [denote, follow, hget, hassert])⟩
      simp only [hholds, hassert, ok_bind, if_pos, hpush [.explore (target + 1)] (by simp)]
      rfl
    | false =>
      refine ⟨s, ?_, explored_push hget rfl hshape hwork hfits (by simp) (by simp [follow, hget, hassert])⟩
      simp only [hholds, hassert, ok_bind]
      rfl
  | match_ | char code | cls id | any | anyNoNewline =>
    rw [hinstr] at hget
    exact explored_row ht (by simp [follow, hget]) hshape hwork hfits

/-- The search that is left leads to what the search from the start leads to. -/
structure AddInv (re : Program) (slots : Nat) (place : Place) (before : List (Nat × Slots)) (length : Nat)
    (start : Nat × Slots) (s : Adding) : Prop where
  sparse : Sparse re slots s.threads s.size
  work : s.work.length = slots
  fits : ∀ e ∈ s.stack, e.Fits re slots
  steps : s.steps + length = s.size
  room : s.stack.length + length ≤ 1 + s.size
  search : ∃ listed, Lists re s.threads s.size listed ∧
    ∀ out, Explore (follow re place) listed (denote s.work s.stack) out → Explore (follow re place) before [start] out

/-- What `add_thread` leaves. -/
structure Added (re : Program) (slots : Nat) (place : Place) (before : List (Nat × Slots)) (length : Nat)
    (start : Nat × Slots) (s : Adding) : Prop where
  sparse : Sparse re slots s.threads s.size
  work : s.work.length = slots
  steps : s.steps + length = s.size
  search : ∃ listed, Lists re s.threads s.size listed ∧ Explore (follow re place) before [start] listed

variable {before : List (Nat × Slots)} {length : Nat} {start : Nat × Slots}

theorem addInv_skip (hi : AddInv re slots place before length start s)
    (hstack : s.stack = .explore target :: stack) (hin : target ∈ s.threads.dense.take s.size) :
    AddInv re slots place before length start { s with stack } := by
  have hfits := hi.fits
  have hroom := hi.room
  obtain ⟨listed, hlists, hsearch⟩ := hi.search
  rw [hstack] at hfits hroom hsearch
  rw [length_cons] at hroom
  refine ⟨hi.sparse, hi.work, (forall_mem_cons.mp hfits).2, hi.steps, ?_, listed, hlists,
    fun out hout => hsearch out (.skip ?_ hout)⟩
  · simp only
    omega
  · rw [← hlists.order]
    exact hin

theorem addInv_enter (h : Linked re) (hi : AddInv re slots place before length start s)
    (hstack : s.stack = .explore target :: stack) (hout : target ∉ s.threads.dense.take s.size) :
    ∃ threads after, listThread s.threads s.size target = .ok threads ∧ explore re slots place
        { s with stack, threads, size := s.size + 1, steps := s.steps + 1 } target = .ok after ∧
      AddInv re slots place before length start after ∧
      after.size = s.size + 1 ∧ after.stack.length ≤ s.stack.length + 1 := by
  have hfits := hi.fits
  have hroom := hi.room
  obtain ⟨listed, hlists, hsearch⟩ := hi.search
  rw [hstack] at hfits hroom hsearch
  rw [length_cons] at hroom
  obtain ⟨ht, hfits⟩ := forall_mem_cons.mp hfits
  have hlt := hi.sparse.size_lt ht hout
  obtain ⟨threads, hthreads, hsparse, htake, htable⟩ := listThread_ok hi.sparse ht hout
  obtain ⟨after, hafter, he⟩ := explore_ok h place
    (s := { s with stack, threads, size := s.size + 1, steps := s.steps + 1 }) ht hsparse.shape hi.work
    hfits (by simp only; omega)
  have hlisted : ∀ e ∈ listed, e.1 ≠ target := by
    rintro e hin rfl
    rw [hlists.order] at hout
    exact hout (mem_map.mpr ⟨e, hin, rfl⟩)
  refine ⟨threads, after, hthreads, hafter, ⟨?_, he.work, he.fits, ?_, ?_,
    listed ++ [(target, s.work)], ⟨?_, ?_⟩, ?_⟩, he.size, ?_⟩
  · rw [he.size]
    refine ⟨he.shape, hsparse.size_le, ?_, ?_⟩
    · rw [he.dense]
      exact hsparse.nodup
    · rw [he.dense, he.sparse]
      exact hsparse.back
  · have := hi.steps
    rw [he.steps, he.size]
    simp only
    omega
  · have := he.room
    rw [he.size]
    simp only at this ⊢
    omega
  · rw [he.dense, he.size, map_append, ← hlists.order]
    exact htake
  · intro e hin instr hget hwaits
    rcases mem_append.mp hin with hin | hin
    · rw [he.others e.1 (hlisted e hin)]
      simp only [htable]
      exact hlists.slots e hin instr hget hwaits
    · obtain rfl := mem_singleton.mp hin
      exact he.row instr hget hwaits
  · intro out hexplore
    rw [he.todo] at hexplore
    refine hsearch out (.enter ?_ hexplore)
    rw [← hlists.order]
    exact hout
  · have := he.room
    rw [hstack, length_cons]
    simp only at this
    omega

theorem addTurn_ok (h : Linked re) (hi : AddInv re slots place before length start s) :
    (∃ after, addTurn re slots place s = .ok (.go after) ∧ AddInv re slots place before length start after ∧
      2 * (re.code.length - after.size) + after.stack.length < 2 * (re.code.length - s.size) + s.stack.length) ∨
    (∃ after, addTurn re slots place s = .ok (.leave after) ∧ Added re slots place before length start after) := by
  cases hstack : s.stack with
  | nil =>
    right
    obtain ⟨listed, hlists, hsearch⟩ := hi.search
    refine ⟨s, by simp [addTurn, hstack], hi.sparse, hi.work, hi.steps, listed, hlists, ?_⟩
    apply hsearch
    rw [hstack]
    exact .done listed
  | cons entry stack =>
    left
    have hfits := hi.fits
    have hroom := hi.room
    obtain ⟨listed, hlists, hsearch⟩ := hi.search
    cases entry with
    | restore slot old =>
      rw [hstack] at hfits hroom hsearch
      rw [length_cons] at hroom
      obtain ⟨hslot, hfits⟩ := forall_mem_cons.mp hfits
      have hlen : slot < s.work.length := by rw [hi.work]; exact hslot
      refine ⟨{ s with work := s.work.set slot old, stack }, ?_,
        ⟨hi.sparse, by simpa using hi.work, hfits, hi.steps, by simp only; omega, listed, hlists, hsearch⟩, by simp⟩
      simp only [addTurn, hstack, set_ok hlen, ok_bind]
    | explore target =>
      have ht : target < re.code.length := by
        rw [hstack] at hfits
        exact (forall_mem_cons.mp hfits).1
      have hlisted := isListed_ok hi.sparse ht
      by_cases hin : target ∈ s.threads.dense.take s.size
      · refine ⟨{ s with stack }, ?_, addInv_skip hi hstack hin, by simp⟩
        simp only [addTurn, hstack, hlisted, hin, decide_true, ok_bind, if_pos]
      · obtain ⟨threads, after, hthreads, hafter, hinv, hsize, hlen⟩ := addInv_enter h hi hstack hin
        refine ⟨after, ?_, hinv, ?_⟩
        · simp only [addTurn, hstack, hlisted, hin, decide_false, ok_bind, hthreads, hafter]
          rfl
        · have := hi.sparse.size_lt ht hin
          rw [hstack, length_cons] at hlen
          rw [hsize, length_cons]
          omega

theorem addThread_ok (h : Linked re) (place : Place) (hpc : pc < re.code.length)
    (hsparse : Sparse re slots threads length) (hlists : Lists re threads length before) (hwork : work.length = slots) :
    ∃ after, addThread re slots threads length pc place work = .ok after ∧
      Added re slots place before length (pc, work) after := by
  have hpush : pushEntries re [.explore pc] [] = .ok [.explore pc] :=
    pushEntries_ok (by simp)
  unfold addThread
  rw [hpush, ok_bind]
  refine loop_ok (AddInv re slots place before length (pc, work)) (Added re slots place before length (pc, work))
    (fun s => 2 * (re.code.length - s.size) + s.stack.length) (fun s => addTurn_ok h) _ _ ?_ ?_
  · exact ⟨hsparse, hwork, by simpa [Entry.Fits] using hpc, by simp, by simp, before, hlists, fun out hout => hout⟩
  · simp only [length_singleton]
    omega

end Adding

end Tsuzuri.Regex
