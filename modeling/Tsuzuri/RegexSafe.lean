import Tsuzuri.RegexFirst
import Tsuzuri.RegexAgree

/-!
# Safety of compiled patterns (`std/Regex.tz`)

No jump of a compiled pattern leads out of it, and no text makes its threads leave the workspace.
-/

namespace Tsuzuri.Regex

open FaultVec (Exec ok_bind)
open List
open Json (Str)
open Unicode (Scalar encode8 encode16)

/-! ## Sizes -/

/-- The nodes that `emit` goes through. The body of a repetition of no copies is not among them. -/
inductive Emits (root : Node) : Node → Prop where
  | root : Emits root root
  | group {capture : Nat} {body : Node} (h : Emits root (.group capture body)) : Emits root body
  | concat {members : List Node} {n : Node} (h : Emits root (.concat members)) (hn : n ∈ members) : Emits root n
  | alternate {members : List Node} {n : Node} (h : Emits root (.alternate members)) (hn : n ∈ members) :
    Emits root n
  | repeat {body : Node} {minimum : Nat} {maximum : Option Nat} {greedy : Bool}
    (h : Emits root (.repeat body minimum maximum greedy)) (hcopies : minimum ≠ 0 ∨ maximum ≠ some 0) :
    Emits root body

theorem size_le_sizes {n : Node} {ns : List Node} (h : n ∈ ns) : n.size ≤ sizes ns := by
  induction ns with
  | nil => cases h
  | cons m ns ih =>
    rw [sizes]
    rcases mem_cons.mp h with rfl | h
    · exact Nat.le_add_right _ _
    · exact Nat.le_trans (ih h) (Nat.le_add_left _ _)

/-- A node that is emitted has room in the program. -/
theorem Emits.size_le {root n : Node} (h : Emits root n) (hroot : root.size ≤ maxInstructions) :
    n.size ≤ maxInstructions := by
  induction h with
  | root => exact hroot
  | group _ ih =>
    rw [Node.size] at ih
    have := (capped_le ih).2
    omega
  | concat _ hn ih =>
    rw [Node.size] at ih
    exact Nat.le_trans (size_le_sizes hn) (capped_le ih).2
  | alternate _ hn ih =>
    rw [Node.size] at ih
    have := (capped_le ih).2
    have := size_le_sizes hn
    omega
  | @«repeat» body minimum maximum _ _ hcopies ih =>
    rw [Node.size] at ih
    have hrepeat := (capped_le ih).2
    rcases size_le_repeat body.size minimum maximum with hle | ⟨rfl, rfl⟩
    · exact Nat.le_trans hle hrepeat
    · simp at hcopies

section Workspace

variable {re : Program} {slots : Nat} {ws : Workspace} {threads : ThreadList} {size : Nat}

/-- The array of `workspace`: steps, dense and sparse arrays, tables, slots and the stack of `add_thread`. -/
def Workspace.array (ws : Workspace) (stack : List Int) : List Int :=
  (ws.steps :: (ws.current.dense ++ ws.next.dense ++ ws.current.sparse ++ ws.next.sparse)).map Nat.cast ++
    (ws.current.table ++ ws.next.table).flatten ++ ws.work ++ ws.best ++ stack

theorem length_rows {table : List Slots} (h : ∀ row ∈ table, row.length = slots) :
    table.flatten.length = table.length * slots := by
  induction table with
  | nil => simp
  | cons row table ih =>
    obtain ⟨hrow, htable⟩ := forall_mem_cons.mp h
    rw [flatten_cons, length_append, hrow, ih htable, length_cons, Nat.succ_mul, Nat.add_comm]

theorem Room.length_array (h : Room re slots ws) {stack : List Int}
    (hstack : stack.length = 2 * (2 * re.code.length + 1)) :
    (ws.array stack).length = 3 + 8 * re.code.length + 2 * re.code.length * slots + 2 * slots := by
  have hrows : ∀ row ∈ ws.current.table ++ ws.next.table, row.length = slots :=
    forall_mem_append.mpr ⟨h.current.rows, h.next.rows⟩
  simp only [Workspace.array, length_append, length_map, length_cons, length_rows hrows, h.current.dense,
    h.next.dense, h.current.sparse, h.next.sparse, h.current.table, h.next.table, h.work, h.best, hstack,
    Nat.add_mul, Nat.two_mul]
  omega

theorem Sparse.exists_lists (h : Sparse re slots threads size) : ∃ listed, Lists re threads size listed := by
  refine ⟨(threads.dense.take size).map fun pc => (pc, threads.table.getD pc []), ?_, ?_⟩
  · rw [map_map]
    exact (map_id _).symm
  · intro e he instr hget _
    obtain ⟨pc, _, rfl⟩ := mem_map.mp he
    have hpc : pc < threads.table.length := by
      rw [h.shape.table]
      exact (List.getElem?_eq_some_iff.mp hget).1
    rw [getD_eq_getElem?_getD, getElem?_eq_getElem hpc, Option.getD_some]

end Workspace

/-! ## Matching -/

section Matching

variable {α : Type} {encode : Nat → List α} {text : List Nat} {input : Input} {re : Program}

theorem Holds.first (h : Holds encode text input) (hl : Linked re) :
    ∃ found ws, Regex.search re input (workspace re 0) 0 0 true = .ok (found, ws) := by
  obtain ⟨⟨found, ws⟩, hrun, _⟩ := h.decodes.search hl (nil_append _).symm (room_workspace re 0) true
  rw [width_nil] at hrun
  exact ⟨found, ws, hrun⟩

theorem Holds.all (h : Holds encode text input) (hl : Linked re) (hf : Framed re) :
    ∃ ms found, allMatches re input 2 = .ok ms ∧ spans ms = .ok found := by
  obtain ⟨ms, hchain, hrun⟩ := exists_allMatches hl hf (Nat.le_refl 2) text
  obtain ⟨found, _, hspans⟩ := exists_spans ms 0 hchain
  exact ⟨_, _, hrun h, hspans⟩

end Matching

/-- A compiled pattern is as long as its tree says, no jump or step leads out of it, the workspace is what its threads
need, and no function of the module traps. -/
theorem compile_safe {data : UnicodeData} {pattern : Str} {re : Program} (h : compile data pattern = .ok re) :
    (∃ tree, parse data pattern = .ok tree ∧ re = assemble tree ∧ re.code.length = tree.root.size + 3 ∧
      ∀ node, Emits tree.root node → ∀ pc, (emit node pc).length = node.size) ∧
    (∀ (pc : Nat) (instr : Instr), re.code[pc]? = some instr →
      (∀ goal ∈ instr.goals, goal < re.code.length) ∧ (instr ≠ .match_ → pc + 1 < re.code.length)) ∧
    (∀ (slots : Nat) (ws : Workspace) (stack : List Int), Room re slots ws →
      stack.length = 2 * (2 * re.code.length + 1) →
      (ws.array stack).length = 3 + 8 * re.code.length + 2 * re.code.length * slots + 2 * slots) ∧
    (∀ (slots length pc : Nat) (threads : ThreadList) (place : Place) (work : Slots),
      Sparse re slots threads length → work.length = slots → pc < re.code.length →
      ∃ added, addThread re slots threads length pc place work = .ok added ∧
        Sparse re slots added.threads added.size ∧ added.work.length = slots) ∧
    (∀ (text : Str) (front back : Scalars) (slots : Nat) (first : Bool) (ws : Workspace),
      scalars16 text = front ++ back → Room re slots ws →
      ∃ found after, search re (.utf16 text) ws (width front) slots first = .ok (found, after) ∧ Room re slots after) ∧
    (∀ text : Str, ∃ found span spans groups steps, isMatch re text = .ok found ∧ find re text = .ok span ∧
      findAll re text = .ok spans ∧ captures re text = .ok groups ∧ searchSteps re text = .ok steps) ∧
    ∀ text : List Nat, (∀ c ∈ text, Scalar c) → ∃ found span spans groups,
      isMatchUtf8 re (text.flatMap encode8) = .ok found ∧ findUtf8 re (text.flatMap encode8) = .ok span ∧
      findAllUtf8 re (text.flatMap encode8) = .ok spans ∧ capturesUtf8 re (text.flatMap encode8) = .ok groups := by
  have hl := compile_linked h
  have hf := compile_framed h
  refine ⟨?_, fun pc instr hget => ⟨hl.goals pc instr hget, hl.next pc instr hget⟩,
    fun _ _ _ hroom => hroom.length_array, ?_, ?_, ?_, ?_⟩
  · obtain ⟨tree, hparse, rfl, _, hsize⟩ := compile_ok h
    exact ⟨tree, hparse, rfl, length_assemble hsize, fun node hnode pc => length_emit node pc (hnode.size_le hsize)⟩
  · intro slots length pc threads place work hsparse hwork hpc
    obtain ⟨listed, hlists⟩ := hsparse.exists_lists
    obtain ⟨added, hrun, hadded⟩ := addThread_ok hl place hpc hsparse hlists hwork
    exact ⟨added, hrun, hadded.sparse, hadded.work⟩
  · intro text front back slots first ws hsplit hroom
    obtain ⟨⟨found, after⟩, hrun, hs⟩ := (decodes16 text).search hl hsplit hroom first
    exact ⟨found, after, hrun, hs.room⟩
  · intro text
    have htext := holds_string text
    obtain ⟨found, ws, hmatch⟩ := htext.first hl
    obtain ⟨ms, spans, hall, hspans⟩ := htext.all hl hf
    obtain ⟨⟨_, after⟩, hsearch, _⟩ := (decodes16 text).search hl (nil_append _).symm (room_workspace re 2) false
    rw [width_nil] at hsearch
    refine ⟨found, _, spans, _, after.steps, ?_, locate_ok htext hl hf, ?_, spansOf_ok htext hl hf, ?_⟩
    · simp only [isMatch, hmatch, ok_bind]
    · simp only [findAll, hall, ok_bind, hspans]
    · simp only [searchSteps, hsearch, ok_bind]
  · intro text hscalars
    have htext := holds_utf8 hscalars
    obtain ⟨found, ws, hmatch⟩ := htext.first hl
    obtain ⟨ms, spans, hall, hspans⟩ := htext.all hl hf
    refine ⟨found, _, spans, _, ?_, locate_ok htext hl hf, ?_, spansOf_ok htext hl hf⟩
    · simp only [isMatchUtf8, hmatch, ok_bind]
    · simp only [findAllUtf8, hall, ok_bind, hspans]

theorem compile_safe_star : ∃ (data : UnicodeData) (re : Program), compile data [97, 42] = .ok re ∧
      ∃ found, isMatch re [97, 98] = .ok found := by
  obtain ⟨data, re, h⟩ : ∃ (data : UnicodeData) (re : Program), compile data [97, 42] = .ok re :=
    ⟨⟨fun _ => none, [], by simp, by simp⟩,
      { code := [.save 0, .split 2 4, .char 97, .jump 1, .save 1, .match_], classes := [], groups := 0,
        anchored := false }, rfl⟩
  obtain ⟨found, _, _, _, _, hmatch, _⟩ := (compile_safe h).2.2.2.2.2.1 [97, 98]
  exact ⟨data, re, h, found, hmatch⟩

end Tsuzuri.Regex
