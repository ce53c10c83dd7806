import Tsuzuri.RegexProgram

/-!
# The shape of a program

The sizes in the tree are the numbers of instructions that `emit` writes, and every jump stays in its node or goes
just behind it.
-/

namespace Tsuzuri.Regex

open List

theorem Node.induct {P : Node → Prop} (empty : P .empty) (char : ∀ code, P (.char code))
    (cls : ∀ id, P (.cls id)) (any : ∀ newline, P (.any newline)) (assert : ∀ kind word, P (.assert kind word))
    (group : ∀ capture body, P body → P (.group capture body))
    (concat : ∀ members, (∀ n ∈ members, P n) → P (.concat members))
    (alternate : ∀ members, (∀ n ∈ members, P n) → P (.alternate members))
    (rep : ∀ body minimum maximum greedy, P body → P (.repeat body minimum maximum greedy)) (n : Node) : P n :=
  Node.rec (motive_1 := P) (motive_2 := fun ns => ∀ n ∈ ns, P n) empty char cls any assert group
    concat alternate rep (by simp) (by simp_all) n

inductive Node.Valid (classes : Nat) : Node → Prop
  | empty : Valid classes .empty
  | char (code) : Valid classes (.char code)
  | cls {id} : id < classes → Valid classes (.cls id)
  | any (newline) : Valid classes (.any newline)
  | assert {kind word} : (4 ≤ kind → word < classes) → Valid classes (.assert kind word)
  | group {body capture} : 0 < capture → Valid classes body → Valid classes (.group capture body)
  | concat {members} : (∀ n ∈ members, Valid classes n) → Valid classes (.concat members)
  | alternate {members} : members ≠ [] → (∀ n ∈ members, Valid classes n) → Valid classes (.alternate members)
  | rep {body minimum maximum} (greedy) : Valid classes body → (∀ bound, maximum = some bound → minimum ≤ bound) →
      Valid classes (.repeat body minimum maximum greedy)

variable {classes more size limit out count pc : Nat} {n : Node} {body : Nat → List Instr}
  {ns : List Node} {instr : Instr} {greedy : Bool} {tree : Tree}

theorem Node.Valid.mono (hle : classes ≤ more) (h : n.Valid classes) : n.Valid more := by
  induction h with
  | empty => exact .empty
  | char code => exact .char code
  | cls hid => exact .cls (by omega)
  | any newline => exact .any newline
  | assert hword => exact .assert fun hk => Nat.lt_of_lt_of_le (hword hk) hle
  | group hcapture _ ih => exact .group hcapture ih
  | concat _ ih => exact .concat ih
  | alternate hne _ ih => exact .alternate hne ih
  | rep greedy _ hbound ih => exact .rep greedy ih hbound

/-! ## Sizes -/

theorem capped_le (h : capped size ≤ maxInstructions) : capped size = size ∧ size ≤ maxInstructions := by
  unfold capped at h ⊢
  split
  · rename_i hlt
    rw [if_pos hlt] at h
    omega
  · rename_i hle
    exact ⟨rfl, Nat.not_lt.mp hle⟩

theorem length_copies (hbody : ∀ pc, (body pc).length = size) (count pc : Nat) :
    (copies body count pc).length = count * size := by
  induction count generalizing pc with
  | zero => simp [copies]
  | succ count ih =>
    rw [copies, length_append, ih, hbody, Nat.succ_mul, Nat.add_comm]

theorem length_optionals (hbody : ∀ pc, (body pc).length = size) (greedy : Bool) (out count pc : Nat) :
    (optionals body greedy out count pc).length = count * (size + 1) := by
  induction count generalizing pc with
  | zero => simp [optionals]
  | succ count ih =>
    rw [optionals, length_cons, length_append, ih, hbody, Nat.succ_mul]
    omega

theorem repeatSize_star (size : Nat) : repeatSize size 0 none = size + 2 := rfl

theorem repeatSize_plus (size minimum : Nat) : repeatSize size (minimum + 1) none = (minimum + 1) * size + 1 := rfl

theorem repeatSize_bounded (size minimum bound : Nat) :
    repeatSize size minimum (some bound) = minimum * size + (bound - minimum) * (size + 1) := rfl

theorem emitRepeat_star (body : Nat → List Instr) (size : Nat) (greedy : Bool) (out pc : Nat) :
    emitRepeat body size 0 none greedy out pc =
      branch greedy (pc + 1) (pc + size + 2) :: (body (pc + 1) ++ [.jump pc]) := rfl

theorem emitRepeat_plus (hbody : ∀ pc, (body pc).length = size) (minimum : Nat) (greedy : Bool) (out pc : Nat) :
    emitRepeat body size (minimum + 1) none greedy out pc = copies body minimum pc ++ (body (pc + minimum * size) ++
        [branch greedy (pc + minimum * size) (pc + minimum * size + size + 1)]) := by
  unfold emitRepeat
  simp only [Nat.add_one_ne_zero, if_false, Nat.add_sub_cancel, length_copies hbody, hbody]

theorem emitRepeat_bounded (hbody : ∀ pc, (body pc).length = size) (minimum bound : Nat) (greedy : Bool)
    (out pc : Nat) : emitRepeat body size minimum (some bound) greedy out pc = copies body minimum pc ++
        optionals body greedy out (bound - minimum) (pc + minimum * size) := by
  simp only [emitRepeat, length_copies hbody]

theorem size_le_repeat (size minimum : Nat) (maximum : Option Nat) :
    size ≤ repeatSize size minimum maximum ∨ minimum = 0 ∧ maximum = some 0 := by
  have hmul : ∀ count other, 0 < count → other ≤ count * other :=
    fun count other h => Nat.le_mul_of_pos_left other h
  cases maximum with
  | none =>
    left
    cases minimum with
    | zero =>
      rw [repeatSize_star]
      omega
    | succ m =>
      have := hmul (m + 1) size (by omega)
      rw [repeatSize_plus]
      omega
  | some bound =>
    rw [repeatSize_bounded]
    by_cases hm : 0 < minimum
    · have := hmul minimum size hm
      omega
    · by_cases hb : 0 < bound - minimum
      · have := hmul (bound - minimum) (size + 1) hb
        omega
      · right
        refine ⟨by omega, ?_⟩
        congr
        omega

theorem length_emitRepeat (hbody : ∀ pc, (body pc).length = size) (minimum : Nat) (maximum : Option Nat)
    (greedy : Bool) (out pc : Nat) :
    (emitRepeat body size minimum maximum greedy out pc).length = repeatSize size minimum maximum := by
  cases maximum with
  | none =>
    cases minimum with
    | zero => simp [emitRepeat_star, repeatSize_star, hbody]
    | succ m =>
      rw [emitRepeat_plus hbody, repeatSize_plus, Nat.succ_mul]
      simp [length_copies hbody, hbody, Nat.add_assoc]
  | some bound =>
    rw [emitRepeat_bounded hbody, repeatSize_bounded, length_append, length_copies hbody, length_optionals hbody]

theorem emitRepeat_none (body : Nat → List Instr) (size : Nat) (greedy : Bool) (out pc : Nat) :
    emitRepeat body size 0 (some 0) greedy out pc = [] := rfl

theorem length_emitAll (ih : ∀ n ∈ ns, ∀ pc, n.size ≤ maxInstructions → (emit n pc).length = n.size)
    (h : sizes ns ≤ maxInstructions) (pc : Nat) : (emitAll ns pc).length = sizes ns := by
  induction ns generalizing pc with
  | nil => rfl
  | cons n ns ihs =>
    rw [sizes] at h ⊢
    rw [emitAll, length_append, ih n mem_cons_self pc (by omega),
      ihs (fun m hm => ih m (mem_cons_of_mem n hm)) (by omega)]

theorem length_emitAlternatives (ih : ∀ n ∈ ns, ∀ pc, n.size ≤ maxInstructions → (emit n pc).length = n.size)
    (h : sizes ns ≤ maxInstructions) (pc out : Nat) :
    (emitAlternatives ns pc out).length = 2 * (ns.length - 1) + sizes ns := by
  induction ns generalizing pc with
  | nil => rfl
  | cons n ns ihs =>
    rw [sizes] at h ⊢
    have hn := fun pc => ih n mem_cons_self pc (by omega)
    rw [emitAlternatives]
    split
    · rename_i hnil
      obtain rfl := isEmpty_iff.mp hnil
      rw [hn]
      simp [sizes]
    · rename_i hcons
      have hpos : 0 < ns.length := length_pos_iff.mpr (by simpa using hcons)
      rw [length_cons, length_append, hn, length_cons,
        ihs (fun m hm => ih m (mem_cons_of_mem n hm)) (by omega), length_cons]
      omega

theorem length_emit (n : Node) : ∀ pc, n.size ≤ maxInstructions → (emit n pc).length = n.size := by
  induction n using Node.induct with
  | empty =>
    intro pc _
    rfl
  | char code =>
    intro pc _
    rfl
  | cls id =>
    intro pc _
    rfl
  | any newline =>
    intro pc _
    rfl
  | assert kind word =>
    intro pc _
    rfl
  | group capture body ih =>
    intro pc h
    rw [Node.size] at h ⊢
    obtain ⟨hsize, hle⟩ := capped_le h
    rw [hsize, emit, length_cons, length_append, ih _ (by omega), length_singleton]
  | concat members ih =>
    intro pc h
    rw [Node.size] at h ⊢
    obtain ⟨hsize, hle⟩ := capped_le h
    rw [hsize, emit, length_emitAll ih hle]
  | alternate members ih =>
    intro pc h
    rw [Node.size] at h ⊢
    obtain ⟨hsize, hle⟩ := capped_le h
    rw [hsize, emit, length_emitAlternatives ih (by omega)]
  | rep body minimum maximum greedy ih =>
    intro pc h
    rw [Node.size] at h ⊢
    obtain ⟨hsize, hle⟩ := capped_le h
    rw [hsize, emit]
    rcases size_le_repeat body.size minimum maximum with hbody | ⟨rfl, rfl⟩
    · exact length_emitRepeat (fun pc => ih pc (by omega)) _ _ _ _ _
    · rw [emitRepeat_none]
      simp [repeatSize]

/-! ## Operands -/

def Instr.goals : Instr → List Nat
  | .split first second => [first, second]
  | .jump target => [target]
  | _ => []

def Instr.Fits (classes : Nat) : Instr → Prop
  | .cls id => id < classes
  | .assert kind word => 4 ≤ kind → word < classes
  | _ => True

/-- In the middle of a program: its jumps go to `limit` at most and not to the start. -/
structure Instr.Inner (classes limit : Nat) (instr : Instr) : Prop where
  goals_pos : ∀ goal ∈ instr.goals, 0 < goal
  goals_le : ∀ goal ∈ instr.goals, goal ≤ limit
  fits : instr.Fits classes
  ne_match : instr ≠ .match_
  ne_save : instr ≠ .save 0

theorem Instr.Inner.mono (h : instr.Inner classes limit) (hle : limit ≤ more) : instr.Inner classes more :=
  ⟨h.goals_pos, fun goal hg => Nat.le_trans (h.goals_le goal hg) hle, h.fits, h.ne_match, h.ne_save⟩

theorem inner_jump {target : Nat} (hpos : 0 < target) (h : target ≤ limit) : (Instr.jump target).Inner classes limit :=
  ⟨by simpa [Instr.goals] using hpos, by simpa [Instr.goals] using h, trivial, by simp, by simp⟩

theorem inner_split {first second : Nat} (hpos : 0 < first ∧ 0 < second) (h1 : first ≤ limit)
    (h2 : second ≤ limit) : (Instr.split first second).Inner classes limit :=
  ⟨by simpa [Instr.goals] using hpos, by simp [Instr.goals, h1, h2], trivial, by simp, by simp⟩

theorem inner_branch {next : Nat} (hpos : 0 < next ∧ 0 < out) (h1 : next ≤ limit) (h2 : out ≤ limit)
    (greedy : Bool) : (branch greedy next out).Inner classes limit := by
  cases greedy with
  | false => exact inner_split ⟨hpos.2, hpos.1⟩ h2 h1
  | true => exact inner_split hpos h1 h2

theorem inner_save {slot : Nat} (h : 0 < slot) : (Instr.save slot).Inner classes limit :=
  ⟨by simp [Instr.goals], by simp [Instr.goals], trivial, by simp, by simp; omega⟩

theorem mem_copies (hbody : ∀ pc, (body pc).length = size) (h : instr ∈ copies body count pc) :
    ∃ p, pc ≤ p ∧ p + size ≤ pc + count * size ∧ instr ∈ body p := by
  induction count generalizing pc with
  | zero => cases h
  | succ count ih =>
    rw [copies, hbody] at h
    rw [Nat.succ_mul]
    rcases mem_append.mp h with h | h
    · exact ⟨pc, Nat.le_refl _, by omega, h⟩
    · obtain ⟨p, hge, hp, hin⟩ := ih h
      exact ⟨p, by omega, by omega, hin⟩

theorem mem_optionals (hbody : ∀ pc, (body pc).length = size) (h : instr ∈ optionals body greedy out count pc) :
    ∃ p, pc < p ∧ p + size ≤ pc + count * (size + 1) ∧ (instr = branch greedy p out ∨ instr ∈ body p) := by
  induction count generalizing pc with
  | zero => cases h
  | succ count ih =>
    rw [optionals, hbody] at h
    rw [Nat.succ_mul]
    rcases mem_cons.mp h with rfl | h
    · exact ⟨pc + 1, by omega, by omega, .inl rfl⟩
    · rcases mem_append.mp h with h | h
      · exact ⟨pc + 1, by omega, by omega, .inr h⟩
      · obtain ⟨p, hge, hp, hin⟩ := ih h
        exact ⟨p, by omega, by omega, hin⟩

theorem mem_emitRepeat (hlen : ∀ pc, (body pc).length = size)
    (hbody : ∀ pc, 0 < pc → ∀ instr ∈ body pc, instr.Inner classes (pc + size)) {minimum : Nat}
    {maximum : Option Nat} (hpc : 0 < pc)
    (h : instr ∈ emitRepeat body size minimum maximum greedy (pc + repeatSize size minimum maximum) pc) :
    instr.Inner classes (pc + repeatSize size minimum maximum) := by
  cases maximum with
  | none =>
    cases minimum with
    | zero =>
      rw [emitRepeat_star] at h
      rw [repeatSize_star]
      rcases mem_cons.mp h with rfl | h
      · exact inner_branch (by omega) (by omega) (by omega) greedy
      · rcases mem_append.mp h with h | h
        · exact (hbody _ (by omega) _ h).mono (by omega)
        · obtain rfl := mem_singleton.mp h
          exact inner_jump (by omega) (by omega)
    | succ m =>
      rw [emitRepeat_plus hlen] at h
      rw [repeatSize_plus, Nat.succ_mul]
      rcases mem_append.mp h with h | h
      · obtain ⟨p, hge, hp, hin⟩ := mem_copies hlen h
        exact (hbody _ (by omega) _ hin).mono (by omega)
      · rcases mem_append.mp h with h | h
        · exact (hbody _ (by omega) _ h).mono (by omega)
        · obtain rfl := mem_singleton.mp h
          exact inner_branch (by omega) (by omega) (by omega) greedy
  | some bound =>
    rw [emitRepeat_bounded hlen] at h
    rcases mem_append.mp h with h | h
    · obtain ⟨p, hge, hp, hin⟩ := mem_copies hlen h
      rw [repeatSize_bounded]
      exact (hbody _ (by omega) _ hin).mono (by omega)
    · obtain ⟨p, hge, hp, rfl | hin⟩ := mem_optionals hlen h
      · refine inner_branch (by omega) ?_ (Nat.le_refl _) greedy
        rw [repeatSize_bounded]
        omega
      · rw [repeatSize_bounded]
        exact (hbody _ (by omega) _ hin).mono (by omega)

theorem mem_emitAll (ih : ∀ n ∈ ns, ∀ pc, 0 < pc → n.size ≤ maxInstructions →
      ∀ instr ∈ emit n pc, instr.Inner classes (pc + n.size)) (h : sizes ns ≤ maxInstructions) (pc : Nat)
    (hpc : 0 < pc) : ∀ instr ∈ emitAll ns pc, instr.Inner classes (pc + sizes ns) := by
  induction ns generalizing pc with
  | nil =>
    intro instr hin
    cases hin
  | cons n ns ihs =>
    intro instr hin
    rw [sizes] at h ⊢
    rw [emitAll, length_emit n pc (by omega)] at hin
    rcases mem_append.mp hin with hin | hin
    · exact (ih n mem_cons_self pc (by omega) (by omega) instr hin).mono (by omega)
    · exact (ihs (fun m hm => ih m (mem_cons_of_mem n hm)) (by omega) _ (by omega) instr hin).mono (by omega)

theorem mem_emitAlternatives (ih : ∀ n ∈ ns, ∀ pc, 0 < pc → n.size ≤ maxInstructions →
      ∀ instr ∈ emit n pc, instr.Inner classes (pc + n.size)) (h : sizes ns ≤ maxInstructions)
    (pc out : Nat) (hpc : 0 < pc) (hout : pc + (2 * (ns.length - 1) + sizes ns) ≤ out) :
    ∀ instr ∈ emitAlternatives ns pc out, instr.Inner classes out := by
  induction ns generalizing pc with
  | nil =>
    intro instr hin
    cases hin
  | cons n ns ihs =>
    intro instr hin
    rw [sizes] at h hout
    rw [emitAlternatives] at hin
    split at hin
    · exact (ih n mem_cons_self pc (by omega) (by omega) instr hin).mono (by omega)
    · rename_i hcons
      have hpos : 0 < ns.length := length_pos_iff.mpr (by simpa using hcons)
      have hn : n.size ≤ maxInstructions := by omega
      rw [length_cons] at hout
      simp only [length_emit n _ hn] at hin
      rcases mem_cons.mp hin with rfl | hin
      · exact inner_split (by omega) (by omega) (by omega)
      · rcases mem_append.mp hin with hin | hin
        · exact (ih n mem_cons_self _ (by omega) (by omega) instr hin).mono (by omega)
        · rcases mem_cons.mp hin with rfl | hin
          · exact inner_jump (by omega) (Nat.le_refl _)
          · exact ihs (fun m hm => ih m (mem_cons_of_mem n hm)) (by omega) _ (by omega) (by omega) instr hin

theorem mem_emit (hv : n.Valid classes) : ∀ pc, 0 < pc → n.size ≤ maxInstructions →
      ∀ instr ∈ emit n pc, instr.Inner classes (pc + n.size) := by
  induction hv with
  | empty =>
    intro pc _ _ instr hin
    cases hin
  | char code =>
    intro pc _ _ instr hin
    obtain rfl := mem_singleton.mp hin
    exact ⟨by simp [Instr.goals], by simp [Instr.goals], trivial, by simp, by simp⟩
  | cls hid =>
    intro pc _ _ instr hin
    obtain rfl := mem_singleton.mp hin
    exact ⟨by simp [Instr.goals], by simp [Instr.goals], hid, by simp, by simp⟩
  | any newline =>
    intro pc _ _ instr hin
    obtain rfl := mem_singleton.mp hin
    cases newline <;> exact ⟨by simp [Instr.goals], by simp [Instr.goals], trivial, by simp, by simp⟩
  | assert hword =>
    intro pc _ _ instr hin
    obtain rfl := mem_singleton.mp hin
    exact ⟨by simp [Instr.goals], by simp [Instr.goals], hword, by simp, by simp⟩
  | group hcapture _ ih =>
    intro pc hpc h instr hin
    rw [Node.size] at h ⊢
    obtain ⟨hsize, hle⟩ := capped_le h
    rw [hsize]
    rw [emit] at hin
    rcases mem_cons.mp hin with rfl | hin
    · exact inner_save (by omega)
    · rcases mem_append.mp hin with hin | hin
      · exact (ih _ (by omega) (by omega) instr hin).mono (by omega)
      · obtain rfl := mem_singleton.mp hin
        exact inner_save (by omega)
  | concat _ ih =>
    intro pc hpc h instr hin
    rw [Node.size] at h ⊢
    obtain ⟨hsize, hle⟩ := capped_le h
    rw [hsize]
    rw [emit] at hin
    exact mem_emitAll ih hle pc hpc instr hin
  | alternate _ _ ih =>
    intro pc hpc h instr hin
    rw [Node.size] at h ⊢
    obtain ⟨hsize, hle⟩ := capped_le h
    rw [hsize]
    rw [emit, hsize] at hin
    exact mem_emitAlternatives ih (by omega) pc _ hpc (Nat.le_refl _) instr hin
  | @rep body minimum maximum greedy _ _ ih =>
    intro pc hpc h instr hin
    rw [Node.size] at h ⊢
    obtain ⟨hsize, hle⟩ := capped_le h
    rw [hsize]
    rw [emit, hsize] at hin
    rcases size_le_repeat body.size minimum maximum with hbody | ⟨rfl, rfl⟩
    · exact mem_emitRepeat (fun pc => length_emit body pc (by omega)) (fun pc hpos => ih pc hpos (by omega)) hpc hin
    · rw [emitRepeat_none] at hin
      cases hin

structure Linked (re : Program) : Prop where
  pos : 0 < re.code.length
  goals : ∀ (pc : Nat) (instr : Instr), re.code[pc]? = some instr → ∀ goal ∈ instr.goals, goal < re.code.length
  fits : ∀ (pc : Nat) (instr : Instr), re.code[pc]? = some instr → instr.Fits re.classes.length
  next : ∀ (pc : Nat) (instr : Instr), re.code[pc]? = some instr → instr ≠ .match_ → pc + 1 < re.code.length
  anchor : re.anchored = true → re.code[0]? = some (.save 0) ∧ ∃ word, re.code[1]? = some (.assert 0 word)

theorem anchor_assemble (h : (assemble tree).anchored = true) : (assemble tree).code[0]? = some (.save 0) ∧
      ∃ word, (assemble tree).code[1]? = some (.assert 0 word) := by
  have hstart : ∀ node : Node, startsAnchored node = true → ∃ word, node = .assert 0 word := by
    intro node hnode
    cases node with
    | assert kind word =>
      obtain rfl : kind = 0 := by simpa [startsAnchored] using hnode
      exact ⟨word, rfl⟩
    | _ => cases hnode
  refine ⟨rfl, ?_⟩
  obtain ⟨word, hlead⟩ := hstart (lead tree.root) h
  refine ⟨word, ?_⟩
  have hemit : ∃ tail, emit tree.root 1 = .assert 0 word :: tail := by
    unfold lead at hlead
    split at hlead
    · rename_i member members hroot
      rw [hroot, hlead, emit, emitAll, emit]
      exact ⟨_, rfl⟩
    · rw [hlead, emit]
      exact ⟨_, rfl⟩
  obtain ⟨tail, htail⟩ := hemit
  simp [assemble, htail]

theorem length_assemble (h : tree.root.size ≤ maxInstructions) : (assemble tree).code.length = tree.root.size + 3 := by
  simp [assemble, length_emit _ _ h]

theorem assemble_linked (hv : tree.root.Valid tree.classes.length) (h : tree.root.size ≤ maxInstructions) :
    Linked (assemble tree) := by
  have hlen := length_assemble h
  have hcode : (assemble tree).code = (.save 0 :: (emit tree.root 1 ++ [.save 1])) ++ [.match_] := by
    simp [assemble]
  have hcases : ∀ (pc : Nat) (instr : Instr), (assemble tree).code[pc]? = some instr →
      (((∀ goal ∈ instr.goals, goal ≤ 1 + tree.root.size) ∧ instr.Fits tree.classes.length) ∧
        pc + 1 < (assemble tree).code.length) ∨ instr = .match_ := by
    intro pc instr hget
    rw [hcode] at hget
    rcases Nat.lt_or_ge pc (tree.root.size + 2) with hpc | hpc
    · left
      refine ⟨?_, by omega⟩
      rw [getElem?_append_left (by simp [length_emit _ _ h]; omega)] at hget
      rcases mem_cons.mp (mem_of_getElem? hget) with rfl | hin
      · exact ⟨by simp [Instr.goals], trivial⟩
      · rcases mem_append.mp hin with hin | hin
        · have hinner := mem_emit hv 1 (by omega) h instr hin
          exact ⟨hinner.goals_le, hinner.fits⟩
        · obtain rfl := mem_singleton.mp hin
          exact ⟨by simp [Instr.goals], trivial⟩
    · right
      rw [getElem?_append_right (by simp [length_emit _ _ h]; omega)] at hget
      exact mem_singleton.mp (mem_of_getElem? hget)
  refine ⟨by omega, ?_, ?_, ?_, anchor_assemble⟩
  · intro pc instr hget goal hgoal
    rcases hcases pc instr hget with ⟨hinner, _⟩ | rfl
    · have := hinner.1 goal hgoal
      omega
    · cases hgoal
  · intro pc instr hget
    rcases hcases pc instr hget with ⟨hinner, _⟩ | rfl
    · exact hinner.2
    · trivial
  · intro pc instr hget hne
    rcases hcases pc instr hget with ⟨_, hpc⟩ | rfl
    · exact hpc
    · exact absurd rfl hne

end Tsuzuri.Regex
