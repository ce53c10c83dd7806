import Tsuzuri.RegexClassSound
import Tsuzuri.RegexEmit

/-!
# What the parser accepts

The nodes of a parsed pattern refer to classes that it has, which are merged, and no maximum is below its minimum.
-/

namespace Tsuzuri.Regex

open List Option

open FaultVec (Turn)
open Json (Str)

theorem parse_bind_ok {α β : Type} {x : Parse α} {f : α → Parse β} {b : β} :
    (x >>= f) = .ok b ↔ ∃ a, x = .ok a ∧ f a = .ok b := by
  cases x with
  | ok a => simp [bind, Except.bind]
  | error e => simp [bind, Except.bind]

def Folding (pairs : List (Nat × Nat)) : Prop :=
  ∀ p ∈ pairs, p.1 ≤ lastScalar ∧ p.2 ≤ lastScalar

theorem folding_ascii : Folding asciiPairs := by
  intro p hp
  obtain ⟨i, hi, rfl⟩ := mem_map.mp hp
  have := mem_range.mp hi
  simp only [lastScalar]
  omega

variable {ranges : Ranges} {pairs : List (Nat × Nat)} {text pattern : Str}
  {index code width start offset length flags finish pos id classes : Nat} {data : UnicodeData}
  {tables after : Tables} {s : Start} {set : Option Ranges} {turn : Turn State Tree} {re : Program}

theorem fold_normal (h : Normal ranges) (hpairs : Folding pairs) : Normal (fold ranges pairs) :=
  (fold_spec h hpairs).1

theorem complement_normal (h : Normal ranges) : Normal (complement ranges) :=
  (complement_spec h).1

theorem normal_folded (h : Normal ranges) (hpairs : Folding pairs) (folds negated : Prop) [Decidable folds]
    [Decidable negated] : Normal (if negated then complement (if folds then fold ranges pairs else ranges)
      else if folds then fold ranges pairs else ranges) := by
  have hfold : Normal (if folds then fold ranges pairs else ranges) := by
    split
    · exact fold_normal h hpairs
    · exact h
  split
  · exact complement_normal hfold
  · exact hfold

/-! ## Code points -/

theorem unit_lt (h : unit text index = some code) : code < 65536 := by
  obtain ⟨u, _, rfl⟩ := map_eq_some_iff.mp h
  exact u.toNat_lt

theorem scalar16_le (h : scalar16 text index = some (code, width)) : code ≤ lastScalar := by
  obtain ⟨high, hunit, hcode⟩ := map_eq_some_iff.mp h
  have hlt := unit_lt hunit
  split at hcode
  · rename_i hpair
    simp only [Bool.and_eq_true, isHigh, decide_eq_true_eq] at hpair
    obtain ⟨⟨h1, h2⟩, hlow⟩ := hpair
    cases hnext : unit text (index + 1) with
    | none => simp [hnext] at hlow
    | some low =>
      have := unit_lt hnext
      simp only [hnext, getD_some, Prod.mk.injEq] at hcode
      rw [← hcode.1, lastScalar]
      simp only [hnext, any_some, isLow, Bool.and_eq_true, decide_eq_true_eq] at hlow
      omega
  · rw [Prod.mk.injEq] at hcode
    rw [← hcode.1, lastScalar]
    omega

theorem hexValue_lt {digit : Nat} (h : hexValue code = some digit) : digit < 16 := by
  unfold hexValue at h
  split at h
  · cases h
    omega
  · split at h
    · cases h
      omega
    · split at h
      · cases h
        omega
      · cases h

theorem hexDigits_lt (pattern : Str) :
    ∀ count index value, (hexDigits pattern count index value).1 < (value + 1) * 16 ^ count := by
  intro count
  induction count with
  | zero =>
    intro index value
    simp [hexDigits]
  | succ count ih =>
    intro index value
    rw [hexDigits]
    split
    · rename_i digit hdigit
      obtain ⟨code, _, hhex⟩ := bind_eq_some_iff.mp hdigit
      have hlt := hexValue_lt hhex
      refine Nat.lt_of_lt_of_le (ih _ _) ?_
      rw [Nat.pow_succ, Nat.mul_comm (16 ^ count) 16, ← Nat.mul_assoc]
      exact Nat.mul_le_mul_right _ (by omega)
    · have hpos : 0 < 16 ^ (count + 1) := Nat.pow_pos (by omega)
      exact Nat.lt_of_lt_of_le (Nat.lt_succ_self value) (Nat.le_mul_of_pos_right (value + 1) hpos)

def Escape.Bounded : Escape → Prop
  | .literal code => code ≤ lastScalar
  | _ => True

theorem bounded_ite {c : Prop} [Decidable c] {first second : Escape × Nat}
    (hfirst : c → first.1.Bounded) (hsecond : ¬c → second.1.Bounded) : (if c then first else second).1.Bounded := by
  split
  · exact hfirst ‹_›
  · exact hsecond ‹_›

theorem escapeAt_bounded (pattern : Str) (start : Nat) (inClass : Bool) :
    (escapeAt pattern start inClass).1.Bounded := by
  have hfail : ∀ error : Error, (Escape.failed error).Bounded := fun _ => trivial
  have hlit : ∀ code, code ≤ 1114111 → (Escape.literal code).Bounded := fun _ h => h
  unfold escapeAt
  dsimp only
  cases hletter : scalar16 pattern (start + 1) with
  | none => exact hfail _
  | some found =>
    obtain ⟨letter, width⟩ := found
    dsimp only
    generalize start + 1 + width = after
    refine bounded_ite (fun _ => scalar16_le hletter) (fun _ => ?_)
    iterate 5 refine bounded_ite (fun _ => hlit _ (by omega)) (fun _ => ?_)
    refine bounded_ite (fun _ => bounded_ite (fun _ => hfail _) fun _ => hlit _ (by omega)) (fun _ => ?_)
    refine bounded_ite (fun _ => hfail _) (fun _ => ?_)
    refine bounded_ite (fun _ => ?_) (fun _ => ?_)
    · cases hhigh : (unit pattern after).bind hexValue with
      | none => exact hfail _
      | some high =>
        cases hlow : (unit pattern (after + 1)).bind hexValue with
        | none => exact hfail _
        | some low =>
          obtain ⟨_, _, hhex⟩ := bind_eq_some_iff.mp hhigh
          obtain ⟨_, _, hhex'⟩ := bind_eq_some_iff.mp hlow
          have := hexValue_lt hhex
          have := hexValue_lt hhex'
          exact hlit _ (by omega)
    refine bounded_ite (fun _ => ?_) (fun _ => ?_)
    · refine bounded_ite (fun _ => hfail _) fun hvalid => hlit _ ?_
      simp only [Bool.or_eq_true, not_or, decide_eq_true_eq] at hvalid
      exact Nat.not_lt.mp hvalid.1.2
    refine bounded_ite (fun _ => ?_) (fun _ => ?_)
    · have hhex := hexDigits_lt pattern 4 after 0
      have hvalue : (hexDigits pattern 4 after 0).1 ≤ 1114111 := by omega
      refine bounded_ite (fun _ => hfail _) fun _ => ?_
      refine bounded_ite (fun hhigh => bounded_ite (fun hlow => hlit _ ?_) fun _ => hlit _ hvalue)
        fun _ => hlit _ hvalue
      simp only [Bool.and_eq_true, isHigh, isLow, decide_eq_true_eq] at hhigh hlow
      omega
    iterate 3 refine bounded_ite (fun _ => trivial) (fun _ => ?_)
    refine bounded_ite (fun _ => ?_) (fun _ => ?_)
    · refine bounded_ite (fun _ => hfail _) fun _ => ?_
      exact bounded_ite (fun _ => hfail _) fun _ => trivial
    iterate 2 refine bounded_ite (fun _ => trivial) (fun _ => ?_)
    exact bounded_ite (fun _ => hfail _) fun _ => hfail _

theorem escapeAt_literal {inClass : Bool} {after : Nat}
    (h : escapeAt pattern start inClass = (.literal code, after)) : code ≤ lastScalar := by
  have hbounded := escapeAt_bounded pattern start inClass
  rw [h] at hbounded
  exact hbounded

/-! ## Classes -/

theorem scoped_append_property (h : Scoped ranges) (name : String) : Scoped (appendProperty data ranges name) := by
  unfold appendProperty
  split
  · rename_i found hfound
    exact scoped_append.mpr ⟨h, (data.normal _ _ hfound).1⟩
  · exact h

theorem normal_property (data : UnicodeData) (name : String) : Normal (appendProperty data [] name) := by
  unfold appendProperty
  split
  · rename_i found hfound
    exact data.normal _ _ hfound
  · exact normal_nil

theorem perlRanges_normal (data : UnicodeData) (which : Nat) (unicode : Bool) :
    Normal (perlRanges data which unicode) := by
  unfold perlRanges
  split
  · split
    · exact normal_singleton (by omega) (by decide)
    · split <;> simp [Normal, lastScalar]
  · split
    · exact normal_property data "Nd"
    · split
      · exact normal_property data "White_Space"
      · refine normalize_normal ?_
        iterate 4 refine scoped_append_property ?_ _
        exact (normal_property data "Alphabetic").1

theorem special_normal {which : Nat} {negated : Bool}
    (h : special data pattern which offset length negated flags pairs = some ranges)
    (hpairs : Folding pairs) : Normal ranges := by
  obtain ⟨base, hbase, rfl⟩ := map_eq_some_iff.mp h
  refine normal_folded ?_ hpairs _ _
  split at hbase
  · cases hbase
    exact perlRanges_normal data _ _
  · exact data.normal _ _ hbase

def Atom.Bounded : Atom → Prop
  | .single code => code ≤ lastScalar
  | .many ranges => Normal ranges
  | _ => True

theorem classAtom_bounded (data : UnicodeData) (pattern : Str) (start flags : Nat) (seen : List (Nat × Nat))
    (hpairs : Folding pairs) : (classAtom data pattern start flags pairs seen).1.Bounded := by
  unfold classAtom
  split
  · split
    · rename_i hcode
      exact scalar16_le hcode
    · exact Nat.zero_le _
  · split
    · rename_i hcode
      exact escapeAt_literal hcode
    · split
      · trivial
      · split
        · rename_i hspecial
          exact special_normal hspecial hpairs
        · exact Nat.zero_le _
    · split
      · trivial
      · split
        · rename_i hspecial
          exact special_normal hspecial hpairs
        · trivial
    · exact Nat.zero_le _
    · trivial

theorem bracketFrom_scoped (hpairs : Folding pairs) :
    ∀ (fuel : Nat) (first : Bool) (pos : Nat) (set : Ranges) (seen : List (Nat × Nat)) (result : Ranges × Nat),
      bracketFrom data pattern start flags pairs fuel first pos set seen = .ok result →
      Scoped set → Scoped result.1 := by
  intro fuel
  induction fuel with
  | zero =>
    intro first pos set seen result h _
    cases h
  | succ fuel ih =>
    intro first pos set seen result h hset
    rw [bracketFrom] at h
    split at h
    · cases h
    split at h
    · cases h
    split at h
    · cases h
      exact hset
    split at h
    · cases h
    split at h
    · cases h
    split at h
    · cases h
    have hatom := classAtom_bounded data pattern pos flags seen hpairs
    split at h
    · rename_i low after hlow
      rw [hlow] at hatom
      split at h
      · have hnext := classAtom_bounded data pattern (after + 1) flags seen hpairs
        split at h
        · rename_i high finish hhigh
          rw [hhigh] at hnext
          split at h
          · cases h
          · rename_i hle
            exact ih _ _ _ _ _ h (scoped_append.mpr ⟨hset, scoped_singleton.mpr ⟨Nat.not_lt.mp hle, hnext⟩⟩)
        · cases h
        · cases h
        · cases h
      · exact ih _ _ _ _ _ h (scoped_append.mpr ⟨hset, scoped_singleton.mpr ⟨Nat.le_refl _, hatom⟩⟩)
    · rename_i ranges after hmany
      rw [hmany] at hatom
      split at h
      · cases h
      · exact ih _ _ _ _ _ h (scoped_append.mpr ⟨hset, Normal.scoped hatom⟩)
    · split at h
      · cases h
      · exact ih _ _ _ _ _ h hset
    · cases h

theorem bracket_normal (hpairs : Folding pairs)
    (h : bracket data pattern start flags pairs = .ok (ranges, finish)) : Normal ranges := by
  obtain ⟨result, hfrom, hok⟩ := parse_bind_ok.mp h
  have hscoped := bracketFrom_scoped hpairs _ _ _ _ _ _ hfrom (by simp [Scoped])
  cases hok
  exact normal_folded (normalize_normal hscoped) hpairs _ _

/-! ## Atoms -/

/-- The set of an atom is merged, and a single character is a scalar. -/
structure Start.Ok (s : Start) : Prop where
  normal : ∀ set, s.set = some set → Normal set
  bounded : s.kind = .char → s.key ≤ lastScalar

theorem atomStart_ok (hpairs : Folding pairs) (hcode : code ≤ lastScalar) :
    (atomStart data pattern pos flags pairs code width).Ok := by
  unfold atomStart
  split
  · exact ⟨by simp, by simp⟩
  split
  · exact ⟨by simp, by simp⟩
  split
  · split
    · rename_i ranges finish hbracket
      refine ⟨?_, by simp⟩
      intro set hset
      cases hset
      exact bracket_normal hpairs hbracket
    · exact ⟨by simp, fun _ => hcode⟩
  split
  · exact ⟨by simp, fun _ => hcode⟩
  split
  · split
    · rename_i hescape
      exact ⟨by simp, fun _ => escapeAt_literal hescape⟩
    · exact ⟨by simp, by simp⟩
    · exact ⟨by simp, by simp⟩
    · exact ⟨by simp, by simp⟩
    · exact ⟨by simp, fun _ => hcode⟩
  · exact ⟨by simp, fun _ => hcode⟩

/-- The classes are merged, and every remembered class is one of them. -/
structure Tables.Ok (tables : Tables) : Prop where
  normal : ∀ ranges ∈ tables.classes, Normal ranges
  memo : ∀ m ∈ tables.memo, m.id < tables.classes.length

theorem remembered_lt (h : tables.Ok) {key : Nat}
    (hid : remembered tables.memo pattern key offset length = some id) : id < tables.classes.length := by
  obtain ⟨m, hm, rfl⟩ := map_eq_some_iff.mp hid
  exact h.memo m (mem_of_find?_eq_some hm)

structure Found.Ok (found : Found) (s : Start) (classes : Nat) : Prop where
  normal : ∀ set, found.set = some set → Normal set
  known : ∀ id, found.known = some id → id < classes
  plain : found.known = none → found.set = none → found.problem = none → specialKey s = none

theorem findSpecial_ok (hpairs : Folding pairs) (ht : tables.Ok) (hs : s.Ok) :
    (findSpecial data pattern pos flags pairs tables.memo s).Ok s tables.classes.length := by
  unfold findSpecial
  split
  · split
    · rename_i id hid
      refine ⟨hs.normal, ?_, by simp⟩
      intro id' h
      cases h
      exact remembered_lt ht hid
    · dsimp only
      split
      · rename_i ranges hspecial
        refine ⟨?_, by simp, by simp⟩
        intro set hset
        cases hset
        exact special_normal hspecial hpairs
      · exact ⟨hs.normal, by simp, by simp⟩
  · rename_i hnot
    refine ⟨hs.normal, by simp, ?_⟩
    intro _ _ hproblem
    cases hkey : specialKey s with
    | none => rfl
    | some key => exact absurd hproblem (hnot key hkey)

theorem foldChar_normal (hpairs : Folding pairs) (hs : s.Ok) (hset : ∀ r, set = some r → Normal r)
    (h : foldChar s flags pairs set = some ranges) : Normal ranges := by
  unfold foldChar at h
  split at h
  · rename_i hchar
    cases h
    exact fold_normal (normal_singleton (Nat.le_refl _) (hs.bounded hchar.1)) hpairs
  · exact hset ranges h

theorem foldChar_none (h : foldChar s flags pairs set = none) : set = none := by
  unfold foldChar at h
  split at h
  · cases h
  · exact h

theorem storeClass_ok {set : Ranges} (ht : tables.Ok) (hset : Normal set)
    (h : storeClass tables s flags set = some (after, id)) :
    after.Ok ∧ id < after.classes.length ∧ tables.classes.length ≤ after.classes.length := by
  obtain ⟨⟨classes, id'⟩, hadd, hafter⟩ := map_eq_some_iff.mp h
  unfold addClass at hadd
  split at hadd
  · cases hadd
  cases hadd
  cases hafter
  refine ⟨⟨?_, ?_⟩, by simp, by simp⟩
  · intro ranges hr
    rcases mem_append.mp hr with hr | hr
    · exact ht.normal ranges hr
    · obtain rfl := mem_singleton.mp hr
      exact hset
  · intro m hm
    dsimp only at hm
    rw [length_append, length_singleton]
    split at hm
    · rcases mem_append.mp hm with hm | hm
      · exact Nat.lt_succ_of_lt (ht.memo m hm)
      · obtain rfl := mem_singleton.mp hm
        exact Nat.lt_succ_self _
    · exact Nat.lt_succ_of_lt (ht.memo m hm)

theorem atomNode_valid {id : Option Nat} (hid : ∀ i, id = some i → i < classes)
    (hnone : id = none → specialKey s = none) : (atomNode s id).Valid classes := by
  unfold atomNode
  split
  · rename_i hkind
    refine .assert fun hkey => ?_
    cases id with
    | some i => exact hid i rfl
    | none =>
      have := hnone rfl
      rw [specialKey, if_pos ⟨hkind, hkey⟩] at this
      cases this
  · cases id with
    | some i => exact .cls (hid i rfl)
    | none =>
      dsimp only
      split
      · exact .any _
      · exact .char _

theorem atom_ok {node : Node} (hpairs : Folding pairs) (ht : tables.Ok) (hcode : code ≤ lastScalar)
    (h : atom data pattern pos flags pairs tables code width = .ok (node, finish, after)) :
    after.Ok ∧ node.Valid after.classes.length ∧ tables.classes.length ≤ after.classes.length := by
  unfold atom at h
  dsimp only at h
  have hs : (atomStart data pattern pos flags pairs code width).Ok := atomStart_ok hpairs hcode
  generalize atomStart data pattern pos flags pairs code width = s at h hs
  have hfound : (findSpecial data pattern pos flags pairs tables.memo s).Ok s tables.classes.length :=
    findSpecial_ok hpairs ht hs
  generalize findSpecial data pattern pos flags pairs tables.memo s = found at h hfound
  split at h
  · rename_i set hset
    split at h
    · rename_i tables' id hstore _
      cases h
      obtain ⟨hok, hid, hle⟩ := storeClass_ok ht (foldChar_normal hpairs hs hfound.normal hset) hstore
      refine ⟨hok, atomNode_valid ?_ (by simp), hle⟩
      intro i hi
      cases hi
      exact hid
    · cases h
    · cases h
  · rename_i hset hproblem
    cases h
    exact ⟨ht, atomNode_valid hfound.known
      (fun hknown => hfound.plain hknown (foldChar_none hset) hproblem), Nat.le_refl _⟩
  · cases h

/-! ## Patterns -/

/-- A parsed pattern refers to classes that it has, which are merged. -/
structure Tree.Ok (tree : Tree) : Prop where
  valid : tree.root.Valid tree.classes.length
  normal : ∀ ranges ∈ tree.classes, Normal ranges

structure State.Ok (s : State) : Prop where
  folding : Folding s.folds
  tables : s.tables.Ok
  items : ∀ n ∈ s.items, n.Valid s.tables.classes.length
  alternatives : ∀ n ∈ s.alternatives, n.Valid s.tables.classes.length
  captures : ∀ frame ∈ s.frames, ∀ capture, frame.capture = some capture → 0 < capture

def TurnOk : Turn State Tree → Prop
  | .go s => s.Ok
  | .leave tree => tree.Ok

theorem combine_valid {members : List Node} (start : Nat) {node : List Node → Node}
    (hmembers : ∀ n ∈ members, n.Valid classes)
    (hnode : ∀ ns : List Node, ns ≠ [] → (∀ n ∈ ns, n.Valid classes) → (node ns).Valid classes) :
    (combine members start node).Valid classes := by
  have hdrop : ∀ n ∈ members.drop start, n.Valid classes :=
    fun n hn => hmembers n (mem_of_mem_drop hn)
  unfold combine
  split
  · exact .empty
  · rename_i member hone
    rw [hone] at hdrop
    exact hdrop member mem_cons_self
  · rename_i hnil _
    exact hnode _ hnil hdrop

theorem closeItems_ok {s : State} {code : Option Nat} (hs : s.Ok) (h : closeItems s code = .ok turn) : TurnOk turn := by
  unfold closeItems at h
  dsimp only at h
  generalize (s.frames.getLast?.map Frame.itemStart).getD 0 = itemStart at h
  have hitems : ∀ n ∈ s.items.take itemStart, n.Valid s.tables.classes.length :=
    fun n hn => hs.items n (mem_of_mem_take hn)
  have halternatives : ∀ n ∈ s.alternatives ++ [combine s.items itemStart .concat], n.Valid s.tables.classes.length :=
    forall_mem_append.mpr ⟨hs.alternatives,
      forall_mem_singleton.mpr (combine_valid itemStart hs.items fun _ _ => .concat)⟩
  split at h
  · cases h
    exact ⟨hs.folding, hs.tables, hitems, halternatives, hs.captures⟩
  split at h
  · split at h
    · cases h
    · cases h
      exact ⟨combine_valid 0 halternatives fun _ => .alternate, hs.tables.normal⟩
  · rename_i frame hlast
    split at h
    · cases h
    · cases h
      refine ⟨hs.folding, hs.tables, forall_mem_append.mpr ⟨hitems,
        forall_mem_singleton.mpr ?_⟩, fun n hn => halternatives n (mem_of_mem_take hn),
        fun frame hframe => hs.captures frame (mem_of_mem_dropLast hframe)⟩
      have hnode := combine_valid frame.alternativeStart halternatives fun _ => .alternate
      split
      · rename_i capture hcapture
        exact .group (hs.captures frame (mem_of_getLast? hlast) capture hcapture) hnode
      · exact hnode

theorem openGroup_ok {s : State} (hs : s.Ok) (h : openGroup pattern s = .ok turn) : TurnOk turn := by
  unfold openGroup at h
  dsimp only at h
  split at h
  · cases h
  split at h
  · cases h
  split at h
  · split at h
    · split at h <;> cases h
    · split at h
      · cases h
      · cases h
        refine ⟨hs.folding, hs.tables, hs.items, hs.alternatives, ?_⟩
        dsimp only
        split
        · exact hs.captures
        · exact forall_mem_append.mpr ⟨hs.captures, forall_mem_singleton.mpr (by simp)⟩
  · cases h
    exact ⟨hs.folding, hs.tables, hs.items, hs.alternatives,
      forall_mem_append.mpr ⟨hs.captures, forall_mem_singleton.mpr (by simp)⟩⟩

theorem quantifier_le {bound : Nat} (hvalid : (quantifier pattern start code).status = .valid)
    (hbound : (quantifier pattern start code).maximum = some bound) :
    (quantifier pattern start code).minimum ≤ bound := by
  revert hvalid hbound
  unfold quantifier
  dsimp only
  split
  · simp
  split
  · simp
  split
  · simp
  split
  · simp
  · rename_i low after _
    split
    · rintro _ hbound
      cases hbound
      exact Nat.le_refl _
    split
    · simp
    split
    · simp
    split
    · simp
    · rename_i high finish _
      split
      · simp
      · dsimp only
        intro hvalid hbound
        obtain rfl := Option.some.inj hbound
        by_contra hlt
        rw [if_pos (show high < low by omega)] at hvalid
        split at hvalid
        · cases hvalid
        · split at hvalid <;> cases hvalid

theorem repetition_ok {s : State} (hs : s.Ok) (h : repetition pattern s code = .ok turn) : TurnOk turn := by
  unfold repetition at h
  dsimp only at h
  have hle : (quantifier pattern s.pos code).status = .valid → ∀ bound,
      (quantifier pattern s.pos code).maximum = some bound → (quantifier pattern s.pos code).minimum ≤ bound :=
    fun hvalid bound => quantifier_le hvalid
  generalize quantifier pattern s.pos code = q at h hle
  generalize (if unit pattern q.finish = some 63 then q.finish + 1 else q.finish) = finish at h
  split at h
  · split at h <;> cases h
  split at h
  · cases h
  rename_i hmalformed
  split at h
  · cases h
  rename_i hlarge
  split at h
  · cases h
  split at h
  · cases h
  · rename_i child hchild
    cases h
    have hvalid : q.status = .valid := by
      cases hq : q.status with
      | valid => rfl
      | malformed => exact absurd hq hmalformed
      | tooLarge => exact absurd hq hlarge
    refine ⟨hs.folding, hs.tables, forall_mem_append.mpr
      ⟨fun n hn => hs.items n (mem_of_mem_dropLast hn), forall_mem_singleton.mpr ?_⟩,
      hs.alternatives, hs.captures⟩
    exact .rep _ (hs.items child (mem_of_getLast? hchild)) (hle hvalid)

theorem parseStep_ok {s : State} (hs : s.Ok) (h : parseStep data pattern s = .ok turn) : TurnOk turn := by
  unfold parseStep at h
  split at h
  · exact closeItems_ok hs h
  rename_i code width hcode
  split at h
  · exact closeItems_ok hs h
  split at h
  · exact openGroup_ok hs h
  split at h
  · exact repetition_ok hs h
  · dsimp only at h
    generalize hfolds : (if s.flags &&& flagI ≠ 0 ∧ s.flags &&& flagU ≠ 0 ∧ s.folds = [] then
      data.simpleCaseFolding else s.folds) = folds at h
    have hfolding : Folding folds := by
      rw [← hfolds]
      split
      · exact data.folding_le
      · exact hs.folding
    have hpairs : Folding (if s.flags &&& flagU ≠ 0 then folds else asciiPairs) := by
      split
      · exact hfolding
      · exact folding_ascii
    obtain ⟨⟨node, finish, tables⟩, hatom, hok⟩ := parse_bind_ok.mp h
    cases hok
    obtain ⟨htables, hnode, hle⟩ := atom_ok hpairs hs.tables (scalar16_le hcode) hatom
    exact ⟨hfolding, htables, forall_mem_append.mpr
      ⟨fun n hn => (hs.items n hn).mono hle, forall_mem_singleton.mpr hnode⟩,
      fun n hn => (hs.alternatives n hn).mono hle, hs.captures⟩

theorem parseLoop_ok : ∀ (fuel : Nat) (s : State) (tree : Tree), s.Ok → parseLoop data pattern fuel s = .ok tree →
      tree.Ok := by
  intro fuel
  induction fuel with
  | zero =>
    intro s tree _ h
    cases h
  | succ fuel ih =>
    intro s tree hs h
    obtain ⟨turn, hstep, hturn⟩ := parse_bind_ok.mp h
    have hok := parseStep_ok hs hstep
    cases turn with
    | go s' => exact ih s' tree hok hturn
    | leave result =>
      cases hturn
      exact hok

theorem parse_ok {tree : Tree} (h : parse data pattern = .ok tree) : tree.Ok :=
  parseLoop_ok _ _ tree ⟨by simp [Folding], ⟨by simp, by simp⟩, by simp, by simp, by simp⟩ h

theorem compile_ok (h : compile data pattern = .ok re) :
    ∃ tree, parse data pattern = .ok tree ∧ re = assemble tree ∧ tree.Ok ∧ tree.root.size ≤ maxInstructions := by
  unfold compile at h
  split at h
  · cases h
  obtain ⟨tree, hparse, hok⟩ := parse_bind_ok.mp h
  dsimp only at hok
  split at hok
  · cases hok
  rename_i hsize
  split at hok
  · cases hok
  · cases hok
    exact ⟨tree, hparse, rfl, parse_ok hparse, by omega⟩

theorem compile_linked (h : compile data pattern = .ok re) : Linked re := by
  obtain ⟨tree, _, rfl, hok, hsize⟩ := compile_ok h
  exact assemble_linked hok.valid hsize

end Tsuzuri.Regex
