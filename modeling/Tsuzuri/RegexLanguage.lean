import Tsuzuri.Fragments
import Tsuzuri.RegexText

/-!
# The language of a pattern

A node matches spans between scalars; assertions look at the whole text, and a counted repetition is bounded powers
of its body.
-/

namespace Tsuzuri.Regex

open FaultVec (Exec)
open Fragments OrderedSearch List Option
open Json (Str)

def InClass (classes : List Ranges) (id code : Nat) : Prop :=
  ∃ ranges, classes[id]? = some ranges ∧ Covers ranges code

def codeBefore (text : List Nat) (i : Nat) : Option Nat :=
  if i = 0 then none else text[i - 1]?

def HasWord (classes : List Ranges) (word : Nat) (code : Option Nat) : Prop :=
  ∃ c, code = some c ∧ InClass classes word c

def Asserted (classes : List Ranges) (text : List Nat) (kind word i : Nat) : Prop :=
  if kind = 0 then codeBefore text i = none
  else if kind = 1 then text[i]? = none
  else if kind = 2 then codeBefore text i = none ∨ codeBefore text i = some 10
  else if kind = 3 then text[i]? = none ∨ text[i]? = some 10
  else if kind = 4 then ¬(HasWord classes word (codeBefore text i) ↔ HasWord classes word text[i]?)
  else (HasWord classes word (codeBefore text i) ↔ HasWord classes word text[i]?)

section Matches

variable (classes : List Ranges) (text : List Nat)

mutual
def Node.Matches : Node → Nat → Nat → Prop
  | .empty => Eq
  | .char code => fun i j => text[i]? = some code ∧ j = i + 1
  | .cls id => fun i j => (∃ c, text[i]? = some c ∧ InClass classes id c) ∧ j = i + 1
  | .any newline => fun i j => (∃ c, text[i]? = some c ∧ (newline = false → c ≠ 10)) ∧ j = i + 1
  | .assert kind word => fun i j => Asserted classes text kind word i ∧ j = i
  | .group _ body => Node.Matches body
  | .concat members => MatchesAll members
  | .alternate members => MatchesSome members
  | .repeat body minimum maximum _ => fun i j =>
    ∃ count, minimum ≤ count ∧ (∀ bound, maximum = some bound → count ≤ bound) ∧ Power (Node.Matches body) count i j
termination_by structural n => n

def MatchesAll : List Node → Nat → Nat → Prop
  | [] => Eq
  | n :: ns => Relation.Comp (Node.Matches n) (MatchesAll ns)
termination_by structural ns => ns

def MatchesSome : List Node → Nat → Nat → Prop
  | [] => fun _ _ => False
  | n :: ns => fun i j => Node.Matches n i j ∨ MatchesSome ns i j
termination_by structural ns => ns
end

end Matches

theorem matches_le {classes : List Ranges} {text : List Nat} (n : Node) :
    ∀ i j, n.Matches classes text i j → i ≤ text.length → i ≤ j ∧ j ≤ text.length := by
  have hone : ∀ {i j c : Nat}, text[i]? = some c → j = i + 1 → i ≤ j ∧ j ≤ text.length := by
    intro i j c hget hj
    have := (List.getElem?_eq_some_iff.mp hget).1
    omega
  induction n using Node.induct with
  | empty =>
    rintro i j rfl hi
    exact ⟨Nat.le_refl _, hi⟩
  | char code =>
    rintro i j ⟨hget, hj⟩ _
    exact hone hget hj
  | cls id | any newline =>
    rintro i j ⟨⟨c, hget, _⟩, hj⟩ _
    exact hone hget hj
  | assert kind word =>
    rintro i j ⟨_, rfl⟩ hi
    exact ⟨Nat.le_refl _, hi⟩
  | group capture body ih =>
    exact ih
  | concat members ih =>
    intro i j h hi
    rw [Node.Matches] at h
    induction members generalizing i with
    | nil =>
      obtain rfl : i = j := h
      exact ⟨Nat.le_refl _, hi⟩
    | cons m ms ihm =>
      obtain ⟨k, hik, hkj⟩ := h
      obtain ⟨h1, h2⟩ := ih m mem_cons_self i k hik hi
      obtain ⟨h3, h4⟩ := ihm (fun n hn => ih n (mem_cons_of_mem m hn)) k hkj h2
      exact ⟨Nat.le_trans h1 h3, h4⟩
  | alternate members ih =>
    intro i j h hi
    rw [Node.Matches] at h
    induction members with
    | nil => exact absurd h id
    | cons m ms ihm =>
      rcases h with h | h
      · exact ih m mem_cons_self i j h hi
      · exact ihm (fun n hn => ih n (mem_cons_of_mem m hn)) h
  | rep body minimum maximum greedy ih =>
    rintro i j ⟨count, hmin, hmax, h⟩ hi
    clear hmin hmax
    induction count generalizing i with
    | zero =>
      obtain rfl : i = j := h
      exact ⟨Nat.le_refl _, hi⟩
    | succ count ihc =>
      obtain ⟨k, hik, hkj⟩ := h
      obtain ⟨h1, h2⟩ := ih i k hik hi
      obtain ⟨h3, h4⟩ := ihc k hkj h2
      exact ⟨Nat.le_trans h1 h3, h4⟩

/-! ## Steps of a program -/

variable {re : Program} {code : List Instr} {pc slots : Nat} {instr : Instr} {back : Scalars} {ws : Workspace}

section

variable (h : ∀ ranges ∈ re.classes, Normal ranges)

include h

theorem classHas_iff (id code : Nat) : classHas re id code = true ↔ InClass re.classes id code := by
  unfold classHas InClass
  cases hget : re.classes[id]? with
  | none => simp
  | some ranges =>
    rw [any_some, holdsScalar_iff (h ranges (mem_of_getElem? hget))]
    simp

theorem any_word_iff (word : Nat) (code : Option Nat) :
    code.any (classHas re word) = true ↔ HasWord re.classes word code := by
  cases code with
  | none => simp [HasWord]
  | some c => simp [HasWord, classHas_iff h]

theorem asserts_iff (text : List Nat) (kind word i : Nat) : asserts re kind word (codeBefore text i) text[i]? = true ↔
      Asserted re.classes text kind word i := by
  unfold asserts Asserted
  split
  · exact isNone_iff_eq_none
  split
  · exact isNone_iff_eq_none
  split
  · rw [Bool.or_eq_true, isNone_iff_eq_none, decide_eq_true_eq]
  split
  · rw [Bool.or_eq_true, isNone_iff_eq_none, decide_eq_true_eq]
  · rw [← any_word_iff h, ← any_word_iff h]
    split
    · rename_i hk
      cases (codeBefore text i).any (classHas re word) <;> cases text[i]?.any (classHas re word) <;>
        simp [hk]
    · rename_i hk
      cases (codeBefore text i).any (classHas re word) <;> cases text[i]?.any (classHas re word) <;>
        simp [hk]

end

def Goes (re : Program) (text : List Nat) (pc i pc' i' : Nat) : Prop :=
  match re.code[pc]? with
  | some (.jump goal) => pc' = goal ∧ i' = i
  | some (.split first second) => (pc' = first ∨ pc' = second) ∧ i' = i
  | some (.save _) => pc' = pc + 1 ∧ i' = i
  | some (.assert kind word) =>
    asserts re kind word (codeBefore text i) text[i]? = true ∧ pc' = pc + 1 ∧ i' = i
  | some instr => text[i]?.any (fun c => accepts re c instr) = true ∧ pc' = pc + 1 ∧ i' = i + 1
  | none => False

def Final (re : Program) (pc : Nat) : Prop := re.code[pc]? = some .match_

/-- A block of instructions stands in the code from `pc` on. -/
def At (code : List Instr) (pc : Nat) (block : List Instr) : Prop := block <+: code.drop pc

theorem at_append (first second : List Instr) :
    At code pc (first ++ second) → At code pc first ∧ At code (pc + first.length) second := by
  rintro ⟨tail, h⟩
  refine ⟨⟨second ++ tail, by rw [← append_assoc, h]⟩, ⟨tail, ?_⟩⟩
  rw [← drop_drop, ← h, append_assoc, drop_left]

theorem at_cons {block : List Instr} (h : At code pc (instr :: block)) :
    code[pc]? = some instr ∧ At code (pc + 1) block := by
  obtain ⟨hone, hrest⟩ := at_append [instr] block h
  obtain ⟨tail, htail⟩ := hone
  refine ⟨?_, hrest⟩
  have := congrArg (·[0]?) htail
  simpa using this.symm

theorem at_between {block rest : List Instr} {last : Instr} (h : At code pc (instr :: (block ++ last :: rest))) :
    code[pc]? = some instr ∧ At code (pc + 1) block ∧ code[pc + 1 + block.length]? = some last ∧
      At code (pc + 1 + block.length + 1) rest := by
  obtain ⟨hinstr, hrest⟩ := at_cons h
  obtain ⟨hblock, hrest⟩ := at_append _ _ hrest
  exact ⟨hinstr, hblock, at_cons hrest⟩

theorem at_plus {body : Nat → List Instr} {size m out : Nat} {greedy : Bool} (hlen : ∀ pc, (body pc).length = size)
    (h : At code pc (emitRepeat body size (m + 1) none greedy out pc)) :
    At code pc (copies body m pc) ∧ At code (pc + m * size) (body (pc + m * size)) ∧
      code[pc + m * size + size]? = some (branch greedy (pc + m * size) (pc + m * size + size + 1)) := by
  rw [emitRepeat_plus hlen] at h
  obtain ⟨hbefore, hrest⟩ := at_append _ _ h
  rw [length_copies hlen] at hrest
  obtain ⟨hlast, hsplit⟩ := at_append _ _ hrest
  rw [hlen] at hsplit
  exact ⟨hbefore, hlast, (at_cons hsplit).1⟩

theorem at_assemble {tree : Tree} (hsize : tree.root.size ≤ maxInstructions) :
    (assemble tree).code[0]? = some (.save 0) ∧ At (assemble tree).code 1 (emit tree.root 1) ∧
      (assemble tree).code[1 + tree.root.size]? = some (.save 1) ∧
      (assemble tree).code[1 + tree.root.size + 1]? = some .match_ := by
  have hwhole : At (assemble tree).code 0
      (.save 0 :: (emit tree.root 1 ++ [.save 1, .match_])) := ⟨[], by simp [assemble]⟩
  obtain ⟨hopen, hroot, hclose, hend⟩ := at_between hwhole
  rw [length_emit _ _ hsize, zero_add] at hclose hend
  exact ⟨hopen, hroot, hclose, (at_cons hend).1⟩

section Fragment

variable {re : Program} {text : List Nat}

theorem splits_of_split {first second : Nat} (h : re.code[pc]? = some (.split first second)) :
    Splits (Goes re text) (Final re) pc first second := by
  refine ⟨by simp [Final, h], fun i x j => ?_⟩
  simp [Goes, h]

variable {greedy : Bool} {out : Nat} {ns : List Node}

theorem splits_of_branch {next : Nat} (h : re.code[pc]? = some (branch greedy next out)) :
    Splits (Goes re text) (Final re) pc next out := by
  cases greedy with
  | true => exact splits_of_split h
  | false => exact (splits_of_split h).symm

theorem fragment_jump {goal : Nat} (h : re.code[pc]? = some (.jump goal)) :
    Fragment (Goes re text) (Final re) pc goal Eq := by
  refine .single (by simp [Final, h]) fun i x j => ?_
  simp [Goes, h, eq_comm]

theorem fragment_save {slot : Nat} (h : re.code[pc]? = some (.save slot)) :
    Fragment (Goes re text) (Final re) pc (pc + 1) Eq := by
  refine .single (by simp [Final, h]) fun i x j => ?_
  simp [Goes, h, eq_comm]

theorem fragment_consume (h : re.code[pc]? = some instr) (hwaits : instr.waits = true) (hne : instr ≠ .match_) :
    Fragment (Goes re text) (Final re) pc (pc + 1) fun i j =>
      text[i]?.any (fun c => accepts re c instr) = true ∧ j = i + 1 := by
  refine .single (by simpa [Final, h] using hne) fun i x j => ?_
  unfold Goes
  rw [h]
  cases instr with
  | jump goal | split first second | save slot | assert kind word => cases hwaits
  | _ =>
    constructor
    · rintro ⟨h1, h2, h3⟩
      exact ⟨h2, h1, h3⟩
    · rintro ⟨h2, h1, h3⟩
      exact ⟨h1, h2, h3⟩

section Repeat

variable {body : Nat → List Instr} {size : Nat} {R : Nat → Nat → Prop}

variable (hlen : ∀ pc, (body pc).length = size)

include hlen

variable (hbody : ∀ pc, At re.code pc (body pc) → Fragment (Goes re text) (Final re) pc (pc + size) R)

include hbody

theorem fragment_copies : ∀ count pc, At re.code pc (copies body count pc) →
      Fragment (Goes re text) (Final re) pc (pc + count * size) (Power R count) := by
  intro count
  induction count with
  | zero =>
    intro pc _
    rw [Nat.zero_mul]
    exact .refl
  | succ count ih =>
    intro pc h
    obtain ⟨hfirst, hrest⟩ := at_append _ _ h
    rw [hlen] at hrest
    rw [Nat.succ_mul, Nat.add_comm _ size, ← Nat.add_assoc]
    exact (hbody pc hfirst).comp (ih _ hrest)

theorem fragment_optionals :
    ∀ count pc, pc + count * (size + 1) = out → At re.code pc (optionals body greedy out count pc) →
      Fragment (Goes re text) (Final re) pc out fun i j => ∃ n, n ≤ count ∧ Power R n i j := by
  intro count
  induction count with
  | zero =>
    intro pc hout _
    obtain rfl : pc = out := by omega
    refine Fragment.refl.congr fun i j => ?_
    constructor
    · intro h
      exact ⟨0, Nat.le_refl _, h⟩
    · rintro ⟨n, hn, h⟩
      obtain rfl := Nat.le_zero.mp hn
      exact h
  | succ count ih =>
    intro pc hout h
    obtain ⟨hsplit, hrest⟩ := at_cons h
    obtain ⟨hfirst, hrest⟩ := at_append _ _ hrest
    simp only [hlen] at hrest
    rw [Nat.succ_mul] at hout
    have htail := ih (pc + 1 + size) (by omega) hrest
    refine (Fragment.choice (splits_of_branch hsplit) ((hbody _ hfirst).comp htail) .refl).congr fun i j => ?_
    constructor
    · rintro (⟨k, hik, n, hn, hkj⟩ | rfl)
      · exact ⟨n + 1, by omega, k, hik, hkj⟩
      · exact ⟨0, Nat.zero_le _, rfl⟩
    · rintro ⟨n, hn, h⟩
      cases n with
      | zero => exact .inr h
      | succ n =>
        obtain ⟨k, hik, hkj⟩ := h
        exact .inl ⟨k, hik, n, by omega, hkj⟩

theorem fragment_repeat {minimum : Nat} {maximum : Option Nat}
    (hbound : ∀ bound, maximum = some bound → minimum ≤ bound) (h : At re.code pc
      (emitRepeat body size minimum maximum greedy (pc + repeatSize size minimum maximum) pc)) :
    Fragment (Goes re text) (Final re) pc (pc + repeatSize size minimum maximum) fun i j =>
      ∃ count, minimum ≤ count ∧ (∀ bound, maximum = some bound → count ≤ bound) ∧ Power R count i j := by
  cases maximum with
  | none =>
    cases minimum with
    | zero =>
      rw [emitRepeat_star] at h
      obtain ⟨hsplit, hfirst, hjump, _⟩ := at_between h
      rw [hlen] at hjump
      have hturn : Fragment (Goes re text) (Final re) (pc + 1) pc R :=
        ((hbody _ hfirst).comp (fragment_jump hjump)).congr fun i j => by simp [Relation.Comp]
      refine (Fragment.star (splits_of_branch hsplit) hturn).congr fun i j => ?_
      simp
    | succ m =>
      obtain ⟨hbefore, hlast, hsplit⟩ := at_plus hlen h
      have hloop := Fragment.plus (hbody _ hlast) (splits_of_branch hsplit)
      have hall := (fragment_copies hlen hbody m pc hbefore).comp hloop
      rw [repeatSize_plus, Nat.succ_mul, show pc + (m * size + size + 1) = pc + m * size + size + 1 by omega]
      refine hall.congr fun i j => ?_
      constructor
      · rintro ⟨k, hik, n, hkj⟩
        exact ⟨m + (n + 1), by omega, by simp, power_add.mpr ⟨k, hik, hkj⟩⟩
      · rintro ⟨count, hcount, _, hij⟩
        obtain ⟨n, rfl⟩ : ∃ n, count = m + (n + 1) := ⟨count - m - 1, by omega⟩
        obtain ⟨k, hik, hkj⟩ := power_add.mp hij
        exact ⟨k, hik, n, hkj⟩
  | some bound =>
    have hle := hbound bound rfl
    rw [emitRepeat_bounded hlen] at h
    obtain ⟨hbefore, hrest⟩ := at_append _ _ h
    rw [length_copies hlen] at hrest
    have htail := fragment_optionals hlen hbody (bound - minimum) (pc + minimum * size)
      (by rw [repeatSize_bounded]; omega) hrest
    refine ((fragment_copies hlen hbody minimum pc hbefore).comp htail).congr fun i j => ?_
    constructor
    · rintro ⟨k, hik, n, hn, hkj⟩
      refine ⟨minimum + n, by omega, ?_, power_add.mpr ⟨k, hik, hkj⟩⟩
      intro bound' hbound'
      cases hbound'
      omega
    · rintro ⟨count, hcount, hmax, hij⟩
      have := hmax bound rfl
      obtain ⟨n, rfl⟩ : ∃ n, count = minimum + n := ⟨count - minimum, by omega⟩
      obtain ⟨k, hik, hkj⟩ := power_add.mp hij
      exact ⟨k, hik, n, by omega, hkj⟩

end Repeat

theorem fragment_emitAll (ih : ∀ n ∈ ns, ∀ pc, n.size ≤ maxInstructions → At re.code pc (emit n pc) →
      Fragment (Goes re text) (Final re) pc (pc + n.size) (n.Matches re.classes text))
    (hsize : sizes ns ≤ maxInstructions) : ∀ pc, At re.code pc (emitAll ns pc) →
      Fragment (Goes re text) (Final re) pc (pc + sizes ns) (MatchesAll re.classes text ns) := by
  induction ns with
  | nil =>
    intro pc _
    exact .refl
  | cons n ns ihs =>
    intro pc h
    rw [sizes] at hsize
    obtain ⟨hfirst, hrest⟩ := at_append _ _ h
    rw [length_emit n pc (by omega)] at hrest
    rw [sizes, ← Nat.add_assoc]
    exact (ih n mem_cons_self pc (by omega) hfirst).comp
      (ihs (fun m hm => ih m (mem_cons_of_mem n hm)) (by omega) _ hrest)

theorem fragment_emitAlternatives (hne : ns ≠ [])
    (ih : ∀ n ∈ ns, ∀ pc, n.size ≤ maxInstructions → At re.code pc (emit n pc) →
      Fragment (Goes re text) (Final re) pc (pc + n.size) (n.Matches re.classes text))
    (hsize : sizes ns ≤ maxInstructions) : ∀ pc out, pc + (2 * (ns.length - 1) + sizes ns) = out →
      At re.code pc (emitAlternatives ns pc out) →
      Fragment (Goes re text) (Final re) pc out (MatchesSome re.classes text ns) := by
  induction ns with
  | nil => exact absurd rfl hne
  | cons n ns ihs =>
    intro pc out hout h
    rw [sizes] at hsize hout
    have hn := ih n mem_cons_self
    have hlen := length_emit n (pc + 1) (by omega)
    rw [emitAlternatives] at h
    cases ns with
    | nil =>
      obtain rfl : pc + n.size = out := by simpa [sizes] using hout
      exact (hn pc (by omega) h).congr fun i j => by simp [MatchesSome]
    | cons m ms =>
      rw [if_neg (by simp)] at h
      obtain ⟨hsplit, hfirst, hjump, hrest⟩ := at_between h
      rw [hlen] at hjump
      simp only [hlen] at hrest
      rw [length_cons] at hout
      have hone : Fragment (Goes re text) (Final re) (pc + 1) out (n.Matches re.classes text) :=
        ((hn (pc + 1) (by omega) hfirst).comp (fragment_jump hjump)).congr fun i j => by
          simp [Relation.Comp]
      have hother := ihs (by simp) (fun k hk => ih k (mem_cons_of_mem n hk)) (by omega)
        (pc + 1 + n.size + 1) out (by simp only [length_cons] at hout ⊢; omega) hrest
      rw [show pc + 1 + n.size + 1 = pc + 2 + n.size by omega] at hother
      exact Fragment.choice (splits_of_split hsplit) hone hother

theorem fragment_emit (hnormal : ∀ ranges ∈ re.classes, Normal ranges) {n : Node} (hv : n.Valid re.classes.length) :
    ∀ pc, n.size ≤ maxInstructions → At re.code pc (emit n pc) →
      Fragment (Goes re text) (Final re) pc (pc + n.size) (n.Matches re.classes text) := by
  induction hv with
  | empty =>
    intro pc _ _
    exact .refl
  | char code =>
    intro pc _ h
    refine (fragment_consume (at_cons h).1 rfl (by simp)).congr fun i j => ?_
    cases hget : text[i]? <;> simp [Node.Matches, accepts, hget]
  | @cls id _ =>
    intro pc _ h
    refine (fragment_consume (at_cons h).1 rfl (by simp)).congr fun i j => ?_
    cases hget : text[i]? <;> simp [Node.Matches, accepts, hget, classHas_iff hnormal]
  | any newline =>
    intro pc _ h
    cases newline with
    | true | false =>
      refine (fragment_consume (at_cons h).1 rfl (by simp)).congr fun i j => ?_
      cases hget : text[i]? <;> simp [Node.Matches, accepts, hget]
  | @assert kind word hword =>
    intro pc _ h
    have hget := (at_cons h).1
    refine .single (by simp [Final, hget]) fun i x j => ?_
    simp only [Goes, hget, Node.Matches, asserts_iff hnormal]
    constructor
    · rintro ⟨h1, h2, h3⟩
      exact ⟨h2, h1, h3⟩
    · rintro ⟨h2, h1, h3⟩
      exact ⟨h1, h2, h3⟩
  | @group body capture _ _ ih =>
    intro pc hsize h
    rw [Node.size] at hsize ⊢
    obtain ⟨hcapped, hle⟩ := capped_le hsize
    rw [hcapped]
    rw [emit] at h
    obtain ⟨hopen, hbody, hclose, _⟩ := at_between h
    rw [length_emit _ _ (by omega)] at hclose
    have hall := ((fragment_save hopen).comp (ih (pc + 1) (by omega) hbody)).comp (fragment_save hclose)
    rw [show pc + 1 + body.size + 1 = pc + (body.size + 2) by omega] at hall
    exact hall.congr fun i j => by simp [Relation.Comp, Node.Matches]
  | concat _ ih =>
    intro pc hsize h
    rw [Node.size] at hsize ⊢
    obtain ⟨hcapped, hle⟩ := capped_le hsize
    rw [hcapped]
    exact fragment_emitAll ih hle pc h
  | alternate hne _ ih =>
    intro pc hsize h
    rw [Node.size] at hsize ⊢
    obtain ⟨hcapped, hle⟩ := capped_le hsize
    rw [emit, hcapped] at h
    rw [hcapped]
    exact fragment_emitAlternatives hne ih (by omega) pc _ rfl h
  | @rep body minimum maximum greedy _ hbound ih =>
    intro pc hsize h
    rw [Node.size] at hsize ⊢
    obtain ⟨hcapped, hle⟩ := capped_le hsize
    rw [emit, hcapped] at h
    rw [hcapped]
    rcases size_le_repeat body.size minimum maximum with hbody | ⟨rfl, rfl⟩
    · exact fragment_repeat (fun pc => length_emit body pc (by omega)) (fun pc => ih pc (by omega)) hbound h
    · -- no copy of the body is written
      rw [repeatSize_bounded, Nat.zero_mul, Nat.sub_self, Nat.zero_mul]
      refine Fragment.refl.congr fun i j => ?_
      constructor
      · intro hij
        exact ⟨0, Nat.le_refl _, by simp, hij⟩
      · rintro ⟨count, _, hmax, hij⟩
        obtain rfl := Nat.le_zero.mp (hmax 0 rfl)
        exact hij

end Fragment

/-! ## Backtracking and steps -/

def codes (scalars : Scalars) : List Nat := scalars.map Prod.fst

theorem codes_behind (front back : Scalars) : (codes (front ++ back))[front.length]? = back.head?.map Prod.fst := by
  rw [codes, map_append, getElem?_append_right (by simp)]
  cases back <;> simp

theorem codes_before (front back : Scalars) : codeBefore (codes (front ++ back)) front.length = lastCode front := by
  unfold codeBefore lastCode
  rcases eq_nil_or_concat front with rfl | ⟨front, c, rfl⟩
  · rfl
  · rw [if_neg (by simp), codes, map_append, getElem?_append_left (by simp)]
    simp

def Leads (re : Program) (text : List Nat) (pc i : Nat) : Prop :=
  Final re pc ∨ ∃ instr, re.code[pc]? = some instr ∧ text[i]?.any (fun c => accepts re c instr) = true ∧
      ∃ n, Runs (Goes re text) (Final re) n (pc + 1) (i + 1)

section Runs

variable {re : Program} {text : List Nat}
variable {place : Place} {pc' i : Nat}

theorem goes_of_edge (hprev : place.prev = codeBefore text i) (hnext : place.next = text[i]?)
    (h : Edge (follow re place) pc pc') : Goes re text pc i pc' i := by
  obtain ⟨s, t, hmem⟩ := h
  unfold follow at hmem
  split at hmem
  · rename_i goal hget
    obtain ⟨rfl, -⟩ := Prod.mk.inj (mem_singleton.mp hmem)
    simp [Goes, hget]
  · rename_i first second hget
    simp only [mem_cons, not_mem_nil, or_false, Prod.mk.injEq] at hmem
    rcases hmem with ⟨rfl, -⟩ | ⟨rfl, -⟩ <;> simp [Goes, hget]
  · rename_i slot hget
    obtain ⟨rfl, -⟩ := Prod.mk.inj (mem_singleton.mp hmem)
    simp [Goes, hget]
  · rename_i kind word hget
    split at hmem
    · rename_i hassert
      obtain ⟨rfl, -⟩ := Prod.mk.inj (mem_singleton.mp hmem)
      rw [hprev, hnext] at hassert
      simp [Goes, hget, hassert]
    · cases hmem
  · cases hmem

theorem goes_of_accepts (hget : re.code[pc]? = some instr)
    (haccepts : text[i]?.any (fun c => accepts re c instr) = true) : Goes re text pc i (pc + 1) (i + 1) := by
  unfold Goes
  rw [hget]
  cases instr with
  | jump goal => cases htext : text[i]? <;> simp [htext, accepts] at haccepts
  | split first second => cases htext : text[i]? <;> simp [htext, accepts] at haccepts
  | save slot => cases htext : text[i]? <;> simp [htext, accepts] at haccepts
  | assert kind word => cases htext : text[i]? <;> simp [htext, accepts] at haccepts
  | _ => exact ⟨haccepts, rfl, rfl⟩

theorem goes_cases {i' : Nat} (hprev : place.prev = codeBefore text i) (hnext : place.next = text[i]?)
    (h : Goes re text pc i pc' i') : (Edge (follow re place) pc pc' ∧ i' = i) ∨
      ∃ instr, re.code[pc]? = some instr ∧ text[i]?.any (fun c => accepts re c instr) = true ∧
        pc' = pc + 1 ∧ i' = i + 1 := by
  unfold Goes at h
  split at h
  · rename_i goal hget
    obtain ⟨rfl, rfl⟩ := h
    exact .inl ⟨⟨[], [], by simp [follow, hget]⟩, rfl⟩
  · rename_i first second hget
    obtain ⟨rfl | rfl, rfl⟩ := h
    · exact .inl ⟨⟨[], [], by simp [follow, hget]⟩, rfl⟩
    · exact .inl ⟨⟨[], [], by simp [follow, hget]⟩, rfl⟩
  · rename_i slot hget
    obtain ⟨rfl, rfl⟩ := h
    exact .inl ⟨⟨[], [], by simp [follow, hget]⟩, rfl⟩
  · rename_i kind word hget
    obtain ⟨hassert, rfl, rfl⟩ := h
    rw [← hprev, ← hnext] at hassert
    exact .inl ⟨⟨[], [], by simp [follow, hget, hassert]⟩, rfl⟩
  · rename_i instr _ _ _ _ hget
    exact .inr ⟨instr, hget, h⟩
  · cases h

theorem runs_of_reach (place : Place) {u : Nat} (hprev : place.prev = codeBefore text i)
    (hnext : place.next = text[i]?) (hreach : Relation.ReflTransGen (Edge (follow re place)) pc u)
    (hrun : ∃ n, Runs (Goes re text) (Final re) n u i) : ∃ n, Runs (Goes re text) (Final re) n pc i := by
  induction hreach using Relation.ReflTransGen.head_induction_on with
  | refl => exact hrun
  | @head a b hedge _ ih =>
    obtain ⟨n, hn⟩ := ih
    exact ⟨n + 1, b, i, goes_of_edge hprev hnext hedge, hn⟩

theorem reach_of_runs (place : Place) (hprev : place.prev = codeBefore text i)
    (hnext : place.next = text[i]?) : ∀ (n pc : Nat), Runs (Goes re text) (Final re) n pc i →
    ∃ u, Relation.ReflTransGen (Edge (follow re place)) pc u ∧ Leads re text u i := by
  intro n
  induction n with
  | zero =>
    intro pc hrun
    exact ⟨pc, .refl, .inl hrun⟩
  | succ n ih =>
    rintro pc ⟨pc', i', hgoes, hrun⟩
    rcases goes_cases hprev hnext hgoes with ⟨hedge, rfl⟩ | ⟨instr, hget, haccepts, rfl, rfl⟩
    · obtain ⟨u, hreach, hu⟩ := ih pc' hrun
      exact ⟨u, hreach.head hedge, hu⟩
    · exact ⟨pc, .refl, .inr ⟨instr, hget, haccepts, n, hrun⟩⟩

theorem branches_isSome (h : Linked re) {pos : Nat} (i : Nat) (prev : Option Nat)
    (hprev : prev = codeBefore text i) (hnext : back.head?.map Prod.fst = text[i]?)
    (hleaf : ∀ pc s, (thread re back pos pc s).isSome = true ↔ Leads re text pc i)
    (hpc : pc < re.code.length) (s : Slots) :
    (branches re back pos prev pc s).isSome = true ↔ ∃ n, Runs (Goes re text) (Final re) n pc i := by
  have hback := backtrack_isSome (uniform h back (placeAt back pos prev) pos) (mem_range.mpr hpc) s s
  rw [length_range] at hback
  rw [branches, hback]
  constructor
  · rintro ⟨u, hreach, hu⟩
    refine runs_of_reach (placeAt back pos prev) hprev hnext hreach ?_
    rcases (hleaf u s).mp hu with hfinal | ⟨instr, hget, haccepts, n, hrun⟩
    · exact ⟨0, hfinal⟩
    · exact ⟨n + 1, u + 1, i + 1, goes_of_accepts hget haccepts, hrun⟩
  · rintro ⟨n, hrun⟩
    obtain ⟨u, hreach, hu⟩ := reach_of_runs (placeAt back pos prev) hprev hnext n pc hrun
    exact ⟨u, hreach, (hleaf u s).mpr hu⟩

theorem thread_isSome (h : Linked re) : ∀ (back front : Scalars) (pos pc : Nat) (s : Slots),
    text = codes (front ++ back) → ((thread re back pos pc s).isSome = true ↔ Leads re text pc front.length) := by
  intro back
  induction back with
  | nil =>
    rintro front pos pc s rfl
    have hend : (codes (front ++ []))[front.length]? = none := codes_behind front []
    simp only [thread, Leads, hend, any_none, Bool.false_eq_true, false_and, and_false, exists_false, or_false, Final]
    split <;> simp [*]
  | cons c back ih =>
    rintro front pos pc s rfl
    obtain ⟨code, width⟩ := c
    have hhere : (codes (front ++ (code, width) :: back))[front.length]? = some code :=
      codes_behind front _
    have hwhole : codes (front ++ (code, width) :: back) = codes ((front ++ [(code, width)]) ++ back) := by
      simp
    have hbefore := codes_before (front ++ [(code, width)]) back
    have hbehind := codes_behind (front ++ [(code, width)]) back
    have hlen : (front ++ [(code, width)]).length = front.length + 1 := by simp
    rw [← hwhole, hlen] at hbefore hbehind
    simp only [thread, Leads, hhere, any_some, Final]
    by_cases hmatch : re.code[pc]? = some .match_
    · simp [hmatch]
    · rw [if_neg hmatch]
      simp only [hmatch, false_or]
      cases hget : re.code[pc]? with
      | none => simp
      | some instr =>
        rw [any_some]
        cases haccepts : accepts re code instr with
        | false => simp [haccepts]
        | true =>
          have hne : instr ≠ .match_ := by
            rintro rfl
            exact hmatch hget
          have hbranches := branches_isSome h (front.length + 1) (some code)
            (by rw [hbefore]; simp [lastCode]) hbehind.symm
            (fun pc s => by
              have := ih (front ++ [(code, width)]) (pos + width) pc s hwhole
              rw [hlen] at this
              exact this) (h.next pc instr hget hne) s
          rw [if_pos rfl]
          simp only [Option.some.injEq, exists_eq_left', haccepts, true_and]
          exact hbranches

theorem leftmost_isSome (h : Linked re) (text : List Nat) (slots : Nat) : ∀ (back front : Scalars) (pos : Nat),
    text = codes (front ++ back) → ((leftmost re slots back pos (lastCode front)).isSome = true ↔
        ∃ i n, front.length ≤ i ∧ i ≤ text.length ∧ Runs (Goes re text) (Final re) n 0 i) := by
  intro back
  induction back with
  | nil =>
    rintro front pos rfl
    have hbranches := branches_isSome h front.length (lastCode front) (codes_before front []).symm
      (codes_behind front []).symm (fun pc s => thread_isSome h [] front pos pc s rfl) h.pos
      (List.replicate slots (-1))
    rw [leftmost, hbranches]
    have hlen : (codes (front ++ [])).length = front.length := by simp [codes]
    constructor
    · rintro ⟨n, hrun⟩
      exact ⟨front.length, n, Nat.le_refl _, by omega, hrun⟩
    · rintro ⟨i, n, h1, h2, hrun⟩
      obtain rfl : i = front.length := by omega
      exact ⟨n, hrun⟩
  | cons c back ih =>
    rintro front pos rfl
    obtain ⟨code, width⟩ := c
    have hwhole : codes (front ++ (code, width) :: back) = codes ((front ++ [(code, width)]) ++ back) := by
      simp
    have hbranches := branches_isSome h front.length (lastCode front)
      (codes_before front ((code, width) :: back)).symm (codes_behind front _).symm
      (fun pc s => thread_isSome h _ front pos pc s rfl) h.pos (List.replicate slots (-1))
    have hrest := ih (front ++ [(code, width)]) (pos + width) hwhole
    rw [show lastCode (front ++ [(code, width)]) = some code by simp [lastCode],
      show (front ++ [(code, width)]).length = front.length + 1 by simp] at hrest
    rw [leftmost, isSome_or, Bool.or_eq_true, hbranches, hrest]
    constructor
    · rintro (⟨n, hrun⟩ | ⟨i, n, h1, h2, hrun⟩)
      · exact ⟨front.length, n, Nat.le_refl _, by simp [codes], hrun⟩
      · exact ⟨i, n, by omega, h2, hrun⟩
    · rintro ⟨i, n, h1, h2, hrun⟩
      rcases Nat.lt_or_eq_of_le h1 with hlt | rfl
      · exact .inr ⟨i, n, hlt, h2, hrun⟩
      · exact .inl ⟨n, hrun⟩

end Runs

theorem runs_assemble {tree : Tree} (hok : tree.Ok) (hsize : tree.root.size ≤ maxInstructions)
    (text : List Nat) (i : Nat) : (∃ n, Runs (Goes (assemble tree) text) (Final (assemble tree)) n 0 i) ↔
      ∃ j, tree.root.Matches tree.classes text i j := by
  obtain ⟨hopen, hroot, hclose, hend⟩ := at_assemble hsize
  have hfinal : Final (assemble tree) (1 + tree.root.size + 1) := hend
  have hbody : Fragment (Goes (assemble tree) text) (Final (assemble tree)) 1 (1 + tree.root.size)
      (tree.root.Matches tree.classes text) :=
    fragment_emit hok.normal hok.valid 1 hsize hroot
  have hfrag := ((fragment_save hopen).comp hbody).comp (fragment_save hclose)
  constructor
  · rintro ⟨n, hrun⟩
    obtain ⟨j, _, _, ⟨k, ⟨_, rfl, hmatch⟩, _⟩, _⟩ := hfrag.sound n i hrun
    exact ⟨k, hmatch⟩
  · rintro ⟨j, hmatch⟩
    exact hfrag.complete i j 0 ⟨j, ⟨i, rfl, hmatch⟩, rfl⟩ hfinal

def unanchored (re : Program) : Program := { re with anchored := false }

theorem linked_unanchored (h : Linked re) : Linked (unanchored re) :=
  ⟨h.pos, h.goals, h.fits, h.next, fun hanchored => by cases hanchored⟩

theorem room_unanchored (h : Room re slots ws) : Room (unanchored re) slots ws :=
  ⟨⟨h.current.dense, h.current.sparse, h.current.table, h.current.rows⟩,
    ⟨h.next.dense, h.next.sparse, h.next.table, h.next.rows⟩, h.work, h.best⟩

theorem thread_unanchored (re : Program) : ∀ (back : Scalars) (pos : Nat),
    thread (unanchored re) back pos = thread re back pos := by
  intro back
  induction back with
  | nil =>
    intro pos
    rfl
  | cons c back ih =>
    intro pos
    funext pc s
    simp only [thread, ih]
    rfl

theorem leftmost_unanchored (re : Program) (slots : Nat) : ∀ (back : Scalars) (pos : Nat)
    (prev : Option Nat), leftmost (unanchored re) slots back pos prev = leftmost re slots back pos prev := by
  intro back
  induction back with
  | nil =>
    intro pos prev
    simp only [leftmost, branches, thread_unanchored]
    rfl
  | cons c back ih =>
    intro pos prev
    simp only [leftmost, branches, thread_unanchored, ih]
    rfl

theorem search_unanchored (h : Linked re) {input : Input} {scalars front : Scalars}
    (hd : Decodes input scalars) (hsplit : scalars = front ++ back) {ws' : Workspace}
    (hroom : Room re slots ws) (hroom' : Room re slots ws') (first : Bool) :
    ∃ found after after', search re input ws (width front) slots first = .ok (found, after) ∧
      search (unanchored re) input ws' (width front) slots first = .ok (found, after') ∧
      (first = false → found = true → after.best = after'.best) := by
  obtain ⟨⟨found, after⟩, hrun, hs⟩ := hd.search h hsplit hroom first
  obtain ⟨⟨found', after'⟩, hrun', hs'⟩ :=
    hd.search (linked_unanchored h) hsplit (room_unanchored hroom') first
  have htotal := leftmost_unanchored re slots back (width front) (lastCode front)
  have hfound : found = found' := by
    have := hs.found.trans (htotal ▸ hs'.found).symm
    exact this
  subst hfound
  refine ⟨found, after, after', hrun, hrun', ?_⟩
  rintro hfirst rfl
  have hbest := hs.best hfirst
  have hbest' := hs'.best hfirst
  rw [htotal, hbest] at hbest'
  exact Option.some.inj hbest'

/-- A pattern is found exactly where a span of the text is in its language; the shortcut for anchored
patterns and the workspace change no search. -/
theorem is_match_iff {data : UnicodeData} {pattern : Str} {re : Program}
    (h : compile data pattern = .ok re) (text : Str) :
    ∃ tree found, parse data pattern = .ok tree ∧ isMatch re text = .ok found ∧
      (found = true ↔ ∃ i j, i ≤ j ∧ j ≤ (scalars16 text).length ∧
        tree.root.Matches tree.classes (codes (scalars16 text)) i j) ∧
      ∀ (front back : Scalars) (slots : Nat) (first : Bool) (ws ws' : Workspace),
        scalars16 text = front ++ back → Room re slots ws → Room re slots ws' →
        ∃ result after after', search re (.utf16 text) ws (width front) slots first = .ok (result, after) ∧
          search (unanchored re) (.utf16 text) ws' (width front) slots first = .ok (result, after') ∧
          (first = false → result = true → after.best = after'.best) := by
  have hlinked := compile_linked h
  obtain ⟨tree, hparse, rfl, hok, hsize⟩ := compile_ok h
  have hd := decodes16 text
  obtain ⟨⟨found, ws⟩, hrun, hs⟩ := hd.search hlinked (nil_append _).symm (room_workspace (assemble tree) 0) true
  refine ⟨tree, found, hparse, ?_, ?_, fun front back slots first ws ws' hsplit hroom hroom' =>
    search_unanchored hlinked hd hsplit hroom hroom' first⟩
  · unfold isMatch
    rw [width_nil] at hrun
    rw [hrun]
    rfl
  · have hfound := hs.found
    simp only at hfound
    have hmatch := leftmost_isSome hlinked (codes (scalars16 text)) 0 (scalars16 text) [] (width []) rfl
    have hlength : (codes (scalars16 text)).length = (scalars16 text).length := by simp [codes]
    rw [hfound, hmatch]
    constructor
    · rintro ⟨i, n, _, hi, hrun⟩
      obtain ⟨j, hij⟩ := (runs_assemble hok hsize _ i).mp ⟨n, hrun⟩
      obtain ⟨h1, h2⟩ := matches_le _ i j hij hi
      exact ⟨i, j, h1, by rw [← hlength]; exact h2, hij⟩
    · rintro ⟨i, j, h1, h2, hij⟩
      obtain ⟨n, hrun⟩ := (runs_assemble hok hsize _ i).mpr ⟨j, hij⟩
      exact ⟨i, n, Nat.zero_le _, by rw [hlength]; omega, hrun⟩

theorem is_match_iff_star : ∃ (data : UnicodeData) (re : Program), compile data [97, 42, 98] = .ok re ∧
      ∃ tree found, parse data [97, 42, 98] = .ok tree ∧ isMatch re [97, 97, 98] = .ok found ∧
        (found = true ↔ ∃ i j, i ≤ j ∧ j ≤ (scalars16 [97, 97, 98]).length ∧
          tree.root.Matches tree.classes (codes (scalars16 [97, 97, 98])) i j) := by
  obtain ⟨data, re, h⟩ : ∃ (data : UnicodeData) (re : Program), compile data [97, 42, 98] = .ok re :=
    ⟨⟨fun _ => none, [], by simp, by simp⟩,
      { code := [.save 0, .split 2 4, .char 97, .jump 1, .char 98, .save 1, .match_], classes := [],
        groups := 0, anchored := false }, rfl⟩
  obtain ⟨tree, found, hparse, hmatch, hiff, _⟩ := is_match_iff h [97, 97, 98]
  exact ⟨data, re, h, tree, found, hparse, hmatch, hiff⟩

end Tsuzuri.Regex
