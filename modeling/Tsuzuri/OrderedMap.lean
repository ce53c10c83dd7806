import Tsuzuri.ChunkedSound

/-!
# The ordered map (`std/Map.tz`)

`Map` keeps entries in the chunks of `Tsuzuri.Chunked`. What it adds is the replacement of a value
in place.
-/

namespace Tsuzuri.OrderedMap

open FaultVec Chunked List

variable {κ ν : Type}

structure Entry (κ ν : Type) where
  key : κ
  value : ν

def empty : Chunked (Entry κ ν) := Chunked.empty

def singleton (key : κ) (value : ν) : Chunked (Entry κ ν) :=
  Chunked.singleton { key, value }

/-- It keeps the old key, and takes the chunk out only when the entry is not in `head`. -/
def replaceValue (map : Chunked (Entry κ ν)) (chunk offset : Int) (value : ν) : Exec (Chunked (Entry κ ν)) := do
  let count := map.length
  if chunk = 0 then do
    let (remaining, old) ← ChunkVec.take map.head offset
    let head ← ChunkVec.put remaining offset { key := old.key, value }
    .ok { head, rest := map.rest, length := count }
  else do
    let (others, entries) ← ChunkVec.take map.rest (chunk - 1)
    let (remaining, old) ← ChunkVec.take entries offset
    let entries ← ChunkVec.put remaining offset { key := old.key, value }
    let rest ← ChunkVec.put others (chunk - 1) entries
    .ok { head := map.head, rest, length := count }

section Operations

variable (ord : KeyOrder κ)

def insert (key : κ) (value : ν) (map : Chunked (Entry κ ν)) : Exec (Chunked (Entry κ ν)) :=
  insertWith ord Entry.key (fun chunk offset => replaceValue map chunk offset value) { key, value } map

def remove (key : κ) (map : Chunked (Entry κ ν)) : Exec (Chunked (Entry κ ν)) :=
  Chunked.remove ord Entry.key key map

def containsKey (key : κ) (map : Chunked (Entry κ ν)) : Exec Bool :=
  Chunked.contains ord Entry.key key map

def get (key : κ) (map : Chunked (Entry κ ν)) : Exec (Option ν) := do
  let entry ← Chunked.get ord Entry.key key map
  .ok (entry.map Entry.value)

def toArray (map : Chunked (Entry κ ν)) : Exec (List (κ × ν)) := do
  let output ← withCapacity map.length
  .ok (output ++ (Chunked.toArray map).map fun entry => (entry.key, entry.value))

def fold {σ : Type} (folder : σ → κ → ν → σ) (initial : σ) (map : Chunked (Entry κ ν)) : Exec σ :=
  Chunked.fold (fun state entry => folder state entry.key entry.value) initial map

def invariantsHold (map : Chunked (Entry κ ν)) : Exec Bool :=
  Chunked.invariantsHold ord Entry.key map

inductive Start (κ ν : Type) where
  | empty
  | singleton (key : κ) (value : ν)

def Start.make : Start κ ν → Chunked (Entry κ ν)
  | .empty => OrderedMap.empty
  | .singleton key value => OrderedMap.singleton key value

inductive Op (κ ν : Type) where
  | insert (key : κ) (value : ν)
  | remove (key : κ)

def step (map : Chunked (Entry κ ν)) : Op κ ν → Exec (Chunked (Entry κ ν))
  | .insert key value => insert ord key value map
  | .remove key => remove ord key map

def run (map : Chunked (Entry κ ν)) : List (Op κ ν) → Exec (Chunked (Entry κ ν))
  | [] => .ok map
  | op :: program => do
    let map ← step ord map op
    run map program

end Operations

/-! ## The abstract map -/

namespace Replay

variable (ord : KeyOrder κ)

def insert (key : κ) (value : ν) : List (κ × ν) → List (κ × ν)
  | [] => [(key, value)]
  | (k, v) :: entries =>
    if ord.lt k key then (k, v) :: insert key value entries
    else if ord.lt key k then (key, value) :: (k, v) :: entries
    else (k, value) :: entries

def remove (key : κ) (entries : List (κ × ν)) : List (κ × ν) :=
  entries.filter fun (k, _) => !same ord k key

def start : Start κ ν → List (κ × ν)
  | .empty => []
  | .singleton key value => [(key, value)]

def step (entries : List (κ × ν)) : Op κ ν → List (κ × ν)
  | .insert key value => insert ord key value entries
  | .remove key => remove ord key entries

def run (entries : List (κ × ν)) (program : List (Op κ ν)) : List (κ × ν) :=
  program.foldl (step ord) entries

end Replay

namespace Lookup

variable (ord : KeyOrder κ)

def start : Start κ ν → κ → Option ν
  | .empty, _ => none
  | .singleton key value, other => if same ord key other then some value else none

def step (values : κ → Option ν) : Op κ ν → κ → Option ν
  | .insert key value, other => if same ord key other then some value else values other
  | .remove key, other => if same ord key other then none else values other

def run (values : κ → Option ν) (program : List (Op κ ν)) : κ → Option ν :=
  program.foldl (step ord) values

end Lookup

/-! ## Insertion -/

variable {ord : KeyOrder κ}

theorem replaceValue_ok (pre post : List (List (Entry κ ν))) (l r : List (Entry κ ν)) (old : Entry κ ν) (value : ν) :
    replaceValue (ofChunks (pre ++ (l ++ old :: r) :: post)) pre.length l.length value
      = .ok (ofChunks (pre ++ (l ++ { key := old.key, value } :: r) :: post)) := by
  have hcount : (pre ++ (l ++ old :: r) :: post).flatten.length
      = (pre ++ (l ++ { key := old.key, value } :: r) :: post).flatten.length := by simp
  have hentry : (l ++ old :: r)[l.length]? = some old := getElem?_middle l old r
  have hlen : l.length < (l ++ old :: r).length := by simp
  have hset : (l ++ old :: r).set l.length { key := old.key, value } = l ++ { key := old.key, value } :: r := by simp
  unfold replaceValue ofChunks
  rw [hcount]
  cases pre with
  | nil =>
    simp only [length_nil, Nat.cast_zero, if_true, withLength, nil_append, headD_cons, tail_cons]
    rw [ChunkVec.take_ok hentry, ok_bind]
    simp only
    rw [ChunkVec.put_ok hlen, ok_bind, hset]
  | cons p pre =>
    have hcast : (((p :: pre).length : Nat) : Int) - 1 = (pre.length : Int) := by simp
    have hchunk : (pre ++ (l ++ old :: r) :: post)[pre.length]? = some (l ++ old :: r) :=
      getElem?_middle pre _ post
    have hplen : pre.length < (pre ++ (l ++ old :: r) :: post).length := by simp
    rw [if_neg (by simp; omega), hcast]
    simp only [withLength, cons_append, headD_cons, tail_cons]
    rw [ChunkVec.take_ok hchunk, ok_bind]
    simp only
    rw [ChunkVec.take_ok hentry, ok_bind]
    simp only
    rw [ChunkVec.put_ok hlen, ok_bind, hset, ChunkVec.put_ok hplen, ok_bind]
    simp

def pairs (entries : List (Entry κ ν)) : List (κ × ν) :=
  entries.map fun entry => (entry.key, entry.value)

theorem replay_insert_cut (hl : ord.Lawful) {key : κ} {before after : List (Entry κ ν)}
    {found : Option (Entry κ ν)} (hc : Cut ord Entry.key key before found after) (value : ν) :
    Replay.insert ord key value (pairs (before ++ found.toList ++ after))
      = pairs (before ++ { key := (found.map Entry.key).getD key, value } :: after) := by
  induction before with
  | cons a before ih =>
    have ha := hc.below a mem_cons_self
    have ih' := ih ⟨fun b hb => hc.below b (mem_cons_of_mem _ hb), hc.found, hc.above⟩
    simp only [pairs, cons_append, map_cons, Replay.insert, ha, if_true] at ih' ⊢
    rw [ih']
  | nil =>
    cases found with
    | some x =>
      have hx := hc.found x rfl
      simp only [same, Bool.and_eq_true, Bool.not_eq_true'] at hx
      simp [pairs, Replay.insert, hx.1, hx.2]
    | none =>
      cases after with
      | nil => rfl
      | cons b after =>
        have hb := hc.above b mem_cons_self
        have hb' : ord.lt b.key key = false := by
          by_contra h
          have := hl.trans _ _ _ hb (by simpa using h)
          rw [hl.irrefl] at this
          cases this
        simp [pairs, Replay.insert, hb, hb']

theorem replay_remove (key : κ) (entries : List (Entry κ ν)) :
    Replay.remove ord key (pairs entries) = pairs (erase ord Entry.key key entries) := by
  unfold Replay.remove pairs erase
  rw [filter_map]
  rfl

def valueOf (ord : KeyOrder κ) (entries : List (Entry κ ν)) (key : κ) : Option ν :=
  (find ord Entry.key key entries).map Entry.value

variable {cs : List (List (Entry κ ν))}

theorem insert_ok (hl : ord.Lawful) (h : Good ord Entry.key cs) (key : κ) (value : ν) :
    ∃ cs', insert ord key value (ofChunks cs) = .ok (ofChunks cs') ∧ Good ord Entry.key cs' ∧
      pairs cs'.flatten = Replay.insert ord key value (pairs cs.flatten) ∧
      valueOf ord cs'.flatten = Lookup.step ord (valueOf ord cs.flatten) (.insert key value) := by
  obtain ⟨before, found, after, hflat, hcut, hrun⟩ := insertWith_ok hl h
    (fun chunk offset => replaceValue (ofChunks cs) chunk offset value) { key, value }
  have hirrefl : ∀ k, same ord k k = true := fun k => by simp [same, hl.irrefl]
  -- in both cases the new entry stands in the place of the key
  have hvalues : ∀ item : Entry κ ν, same ord item.key key = true → item.value = value →
      valueOf ord (before ++ item :: after) = Lookup.step ord (valueOf ord cs.flatten) (.insert key value) := by
    intro item hitem hvalue
    funext other
    rw [valueOf, hcut.find_put hl hitem other, Lookup.step, valueOf, hflat]
    split
    · exact congrArg some hvalue
    · rfl
  have hreplay := replay_insert_cut hl hcut value
  rw [← hflat] at hreplay
  rcases hrun with ⟨rfl, cs', hrun, hgood, hflat'⟩ | ⟨pre, post, l, x, r, rfl, rfl, rfl, rfl, hrun⟩
  · refine ⟨cs', hrun, hgood, ?_, ?_⟩
    · rw [hreplay, hflat']
      rfl
    · rw [hflat']
      exact hvalues _ (hirrefl key) rfl
  · have hx := hcut.found x rfl
    have hflat' : (pre ++ (l ++ { key := x.key, value } :: r) :: post).flatten
        = (pre.flatten ++ l) ++ { key := x.key, value } :: (r ++ post.flatten) := by simp
    refine ⟨pre ++ (l ++ { key := x.key, value } :: r) :: post, ?_, ⟨?_, ?_, ?_⟩, ?_, ?_⟩
    · rw [insert, hrun, replaceValue_ok]
    · obtain ⟨h1, h2, h3⟩ := sizes_middle.mp (show Sizes _ from h.sizes)
      exact sizes_middle.mpr ⟨h1, h2, by simpa using h3⟩
    · obtain ⟨h1, h2, h3⟩ := apart_middle.mp (show Apart _ from h.apart)
      exact apart_middle.mpr ⟨h1, h2, by simpa using h3⟩
    · rw [hflat']
      exact (hcut.congr hl (Cut.same_symm hx)).sorted_insert hl (hflat ▸ h.sorted) rfl
    · rw [hreplay, hflat']
      rfl
    · rw [hflat']
      exact hvalues _ hx rfl

theorem step_ok (hl : ord.Lawful) (h : Good ord Entry.key cs) (op : Op κ ν) :
    ∃ cs', step ord (ofChunks cs) op = .ok (ofChunks cs') ∧ Good ord Entry.key cs' ∧
      pairs cs'.flatten = Replay.step ord (pairs cs.flatten) op ∧
      valueOf ord cs'.flatten = Lookup.step ord (valueOf ord cs.flatten) op := by
  cases op with
  | insert key value => exact insert_ok hl h key value
  | remove key =>
    obtain ⟨cs', hrun, hgood, hflat⟩ := Chunked.remove_ok hl h key
    obtain ⟨before, found, after, place, hloc, hcut, -⟩ := locate_cut hl h key
    refine ⟨cs', hrun, hgood, ?_, ?_⟩
    · rw [hflat, Replay.step, replay_remove]
    · funext other
      rw [hflat, hloc.flatten_eq, hcut.erase_eq, valueOf, hcut.find_drop hl other, Lookup.step, valueOf]
      split
      · rfl
      · rfl

theorem run_ok (hl : ord.Lawful) (program : List (Op κ ν)) (h : Good ord Entry.key cs) :
    ∃ cs', run ord (ofChunks cs) program = .ok (ofChunks cs') ∧ Good ord Entry.key cs' ∧
      pairs cs'.flatten = Replay.run ord (pairs cs.flatten) program ∧
      valueOf ord cs'.flatten = Lookup.run ord (valueOf ord cs.flatten) program := by
  induction program generalizing cs with
  | nil => exact ⟨cs, rfl, h, rfl, rfl⟩
  | cons op program ih =>
    obtain ⟨cs₁, hstep, hgood₁, hpairs₁, hvalues₁⟩ := step_ok hl h op
    obtain ⟨cs₂, hrun, hgood₂, hpairs₂, hvalues₂⟩ := ih hgood₁
    refine ⟨cs₂, ?_, hgood₂, ?_, ?_⟩
    · rw [run, hstep, ok_bind, hrun]
    · rw [hpairs₂, hpairs₁]
      rfl
    · rw [hvalues₂, hvalues₁]
      rfl

theorem start_ok (ord : KeyOrder κ) (start : Start κ ν) : ∃ cs, start.make = ofChunks cs ∧ Good ord Entry.key cs ∧
      pairs cs.flatten = Replay.start start ∧ valueOf ord cs.flatten = Lookup.start ord start := by
  cases start with
  | empty => exact ⟨[], rfl, good_nil, rfl, rfl⟩
  | singleton key value =>
    refine ⟨[[{ key, value }]], rfl, ⟨?_, .singleton _, by simp⟩, rfl, ?_⟩
    · intro c hc
      obtain rfl := mem_singleton.mp hc
      simp
    · funext other
      by_cases hs : same ord key other = true <;> simp [valueOf, find, Lookup.start, hs]

/-- Every run of insertions and removals from `empty` or `singleton` returns, without a trap. Its
last state keeps the chunk rules, `invariants_hold` accepts it, and what is read from it is what
the replayed ordered map holds. -/
theorem run_replay (hl : ord.Lawful) (start : Start κ ν) (program : List (Op κ ν)) :
    ∃ map, run ord start.make program = .ok map ∧
      (∃ cs, map = ofChunks cs ∧ Good ord Entry.key cs) ∧ invariantsHold ord map = .ok true ∧
      toArray map = .ok (Replay.run ord (Replay.start start) program) ∧
      (∀ key, get ord key map = .ok (Lookup.run ord (Lookup.start ord start) program key)) ∧
      (∀ key, containsKey ord key map = .ok (Lookup.run ord (Lookup.start ord start) program key).isSome) ∧
      ∀ (σ : Type) (folder : σ → κ → ν → σ) (initial : σ), fold folder initial map
        = .ok ((Replay.run ord (Replay.start start) program).foldl
            (fun state entry => folder state entry.1 entry.2) initial) := by
  obtain ⟨cs₀, hmake, hgood₀, hpairs₀, hvalues₀⟩ := start_ok ord start
  obtain ⟨cs, hrun, hgood, hpairs, hvalues⟩ := run_ok hl program hgood₀
  rw [hpairs₀] at hpairs
  rw [hvalues₀] at hvalues
  refine ⟨ofChunks cs, by rw [hmake, hrun], ⟨cs, rfl, hgood⟩, invariantsHold_ok hgood, ?_,
    fun key => ?_, fun key => ?_, fun σ folder initial => ?_⟩
  · have hcapacity : withCapacity (ofChunks cs).length = .ok ([] : List (κ × ν)) :=
      withCapacity_ok (by rw [length_ofChunks]; omega)
    rw [toArray, hcapacity, ok_bind, toArray_ok, nil_append, ← hpairs]
    rfl
  · rw [get, get_ok hl hgood, ok_bind, ← hvalues]
    rfl
  · rw [containsKey, contains_ok hl hgood, ← hvalues, valueOf, Option.isSome_map]
  · rw [fold, fold_ok hgood, ← hpairs, pairs, foldl_map]

def sample : List (Op Nat Nat) := [.insert 3 30, .insert 1 10, .insert 3 31, .remove 2]

theorem run_replay_nat : ∃ map, run natOrder OrderedMap.empty sample = .ok map ∧
      invariantsHold natOrder map = .ok true ∧ toArray map = .ok [(1, 10), (3, 31)] ∧
      get natOrder 3 map = .ok (some 31) ∧ containsKey natOrder 2 map = .ok false := by
  obtain ⟨map, hrun, -, hinv, harray, hget, hcontains, -⟩ :=
    run_replay natOrder_lawful (.empty : Start Nat Nat) sample
  exact ⟨map, hrun, hinv, harray, hget 3, hcontains 2⟩

end Tsuzuri.OrderedMap
