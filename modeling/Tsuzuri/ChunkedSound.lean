import Mathlib.Data.List.Chain
import Mathlib.Data.List.Perm.Subperm
import Mathlib.Tactic.Ring
import Tsuzuri.Chunked

/-!
# The chunks of an ordered collection

A collection is looked at as its list of chunks: `ofChunks cs`. How the chunks are cut does not show
in the elements.
-/

namespace Tsuzuri.Chunked

open FaultVec List Option

variable {α κ : Type} {ord : KeyOrder κ} {key : α → κ}

def withLength (cs : List (List α)) (count : Int) : Chunked α :=
  { head := cs.headD [], rest := cs.tail, length := count }

def ofChunks (cs : List (List α)) : Chunked α :=
  withLength cs cs.flatten.length

structure Good (ord : KeyOrder κ) (key : α → κ) (cs : List (List α)) : Prop where
  sizes : ∀ c ∈ cs, 1 ≤ c.length ∧ c.length ≤ 512
  apart : cs.IsChain fun a b => 256 < a.length + b.length
  sorted : cs.flatten.Pairwise fun a b => ord.lt (key a) (key b) = true

theorem good_nil : Good ord key [] :=
  ⟨by simp, .nil, .nil⟩

variable {cs pre post : List (List α)} {count : Int} {i j : Nat} {c l r : List α} {a b : α}

theorem length_pos_of_sizes (h : ∀ c ∈ cs, 1 ≤ c.length ∧ c.length ≤ 512) (hne : cs ≠ []) : 0 < cs.flatten.length := by
  cases cs with
  | nil => exact absurd rfl hne
  | cons c cs =>
    have := (h c mem_cons_self).1
    simp
    omega

theorem chunkTotal_withLength (hcount : count = 0 ↔ cs = []) : chunkTotal (withLength cs count) = cs.length := by
  unfold chunkTotal withLength
  cases cs with
  | nil => simp [hcount]
  | cons c cs =>
    have : count ≠ 0 := fun h => by simpa using hcount.mp h
    simp [this]
    omega

theorem chunkTotal_ofChunks (h : Good ord key cs) : chunkTotal (ofChunks cs) = cs.length := by
  refine chunkTotal_withLength ?_
  constructor
  · intro h0
    by_contra hne
    have := length_pos_of_sizes h.sizes hne
    omega
  · rintro rfl
    rfl

theorem chunkOf_ok (h : cs[i]? = some c) (count : Int) : chunkOf (withLength cs count) i = .ok c := by
  unfold chunkOf withLength
  cases cs with
  | nil => simp at h
  | cons d cs =>
    cases i with
    | zero =>
      rw [Nat.cast_zero, if_pos rfl]
      simpa using h
    | succ i =>
      have hcast : ((i + 1 : Nat) : Int) - 1 = (i : Int) := by omega
      rw [if_neg (by omega), hcast]
      exact index_ok (by simpa using h)

theorem getElem?_middle {β : Type} (xs : List β) (y : β) (zs : List β) : (xs ++ y :: zs)[xs.length]? = some y := by
  simp

section

variable (pre post : List (List α))

theorem chunkOf_middle (c : List α) (count : Int) : chunkOf (withLength (pre ++ c :: post) count) pre.length = .ok c :=
  chunkOf_ok (getElem?_middle pre c post) count

theorem takeChunk_ok (c : List α) (count : Int) :
    ∃ hole, takeChunk (withLength (pre ++ c :: post) count) pre.length = .ok (hole, c) ∧
      ∀ c' count', putChunk hole pre.length c' count' = .ok (withLength (pre ++ c' :: post) count') := by
  unfold takeChunk putChunk withLength
  cases pre with
  | nil => exact ⟨_, rfl, fun c' count' => rfl⟩
  | cons p pre =>
    have hcast : (((p :: pre).length : Nat) : Int) - 1 = (pre.length : Int) := by simp
    have hlen : pre.length < (pre ++ c :: post).length := by simp
    refine ⟨{ head := p, rest := swapRemove (pre ++ c :: post) pre.length, length := count }, ?_, fun c' count' => ?_⟩
    · rw [if_neg (by simp; omega), hcast]
      simp only [cons_append, tail_cons]
      rw [ChunkVec.take_ok (getElem?_middle pre c post), ok_bind]
      rfl
    · rw [if_neg (by simp; omega), hcast]
      simp only
      rw [ChunkVec.put_ok hlen, ok_bind]
      simp

theorem insertRest_ok (left right : List α) : ChunkVec.insertAt (pre ++ left :: post).tail pre.length right
      = .ok (pre ++ left :: right :: post).tail := by
  cases pre with
  | nil => exact ChunkVec.insertAt_ok [] post right
  | cons p pre =>
    have := ChunkVec.insertAt_ok (pre ++ [left]) post right
    simpa using this

theorem removeRest_ok (left right : List α) : ChunkVec.removeAt (pre ++ left :: right :: post).tail pre.length
      = .ok ((pre ++ left :: post).tail, right) := by
  cases pre with
  | nil => exact ChunkVec.removeAt_ok [] post right
  | cons p pre =>
    have := ChunkVec.removeAt_ok (pre ++ [left]) post right
    simpa using this

/-! ## Locating a key -/

end

/-- The key of `a` is below the target. -/
def Below (ord : KeyOrder κ) (key : α → κ) (target : κ) (a : α) : Prop :=
  ord.lt (key a) target = true

theorem Below.of_lt (hl : ord.Lawful) {target : κ} (h : ord.lt (key a) (key b) = true)
    (hb : Below ord key target b) : Below ord key target a :=
  hl.trans _ _ _ h hb

theorem eq_or_lt_getLast (hs : c.Pairwise fun a b => ord.lt (key a) (key b) = true) {last : α} (ha : a ∈ c)
    (hlast : c.getLast? = some last) : a = last ∨ ord.lt (key a) (key last) = true := by
  obtain ⟨ys, rfl⟩ := getLast?_eq_some_iff.mp hlast
  rcases mem_append.mp ha with h | h
  · exact .inr ((pairwise_append.mp hs).2.2 a h last (by simp))
  · exact .inl (mem_singleton.mp h)

theorem Good.lt_of_chunks (h : Good ord key cs) (hij : i < j) {d : List α} (hc : cs[i]? = some c)
    (hd : cs[j]? = some d) (ha : a ∈ c) (hb : b ∈ d) : ord.lt (key a) (key b) = true := by
  obtain ⟨hi, rfl⟩ := List.getElem?_eq_some_iff.mp hc
  obtain ⟨hj, rfl⟩ := List.getElem?_eq_some_iff.mp hd
  exact pairwise_iff_getElem.mp (pairwise_flatten.mp h.sorted).2 i j hi hj hij a ha b hb

theorem Good.chunk_sorted (h : Good ord key cs) (hc : c ∈ cs) : c.Pairwise fun a b => ord.lt (key a) (key b) = true :=
  (pairwise_flatten.mp h.sorted).1 c hc

def lastBelow (ord : KeyOrder κ) (key : α → κ) (cs : List (List α)) (target : κ) (i : Nat) : Bool :=
  match cs[i]?.bind List.getLast? with
  | some last => ord.lt (key last) target
  | none => false

theorem Good.exists_last (h : Good ord key cs) (hi : i < cs.length) :
    ∃ c last, cs[i]? = some c ∧ c.getLast? = some last := by
  have hc : cs[i]? = some cs[i] := getElem?_eq_getElem hi
  have hne : cs[i] ≠ [] := by
    intro h0
    have := (h.sizes cs[i] (getElem_mem hi)).1
    rw [h0] at this
    simp at this
  exact ⟨cs[i], (cs[i]).getLast hne, hc, getLast?_eq_some_getLast hne⟩

theorem chunkBelow_ok (hl : ord.Lawful) (h : Good ord key cs) (target : κ) (hi : i < cs.length) :
    chunkBelow ord key (ofChunks cs) target i = .ok (lastBelow ord key cs target i) := by
  obtain ⟨c, last, hc, hlast⟩ := h.exists_last hi
  have hpos : 0 < c.length := by
    cases c with
    | nil => simp at hlast
    | cons => simp
  have hcast : (c.length : Int) - 1 = ((c.length - 1 : Nat) : Int) := by omega
  unfold chunkBelow lastBelow
  rw [ofChunks, chunkOf_ok hc, ok_bind, hcast,
    index_ok (by rw [get_natCast, ← getLast?_eq_getElem?, hlast]), ok_bind, hl.eq_refl,
    assert_true, ok_bind, hc]
  simp [hlast]

theorem lastBelow_mono (hl : ord.Lawful) (h : Good ord key cs) (target : κ) (hij : i ≤ j)
    (hj : j < cs.length) (hb : lastBelow ord key cs target j = true) : lastBelow ord key cs target i = true := by
  obtain ⟨c, a, hc, ha⟩ := h.exists_last (Nat.lt_of_le_of_lt hij hj)
  obtain ⟨d, b, hd, hb'⟩ := h.exists_last hj
  unfold lastBelow at hb ⊢
  rw [hd, bind_some, hb'] at hb
  rw [hc, bind_some, ha]
  rcases Nat.eq_or_lt_of_le hij with rfl | hlt
  · obtain rfl : c = d := Option.some.inj (hc.symm.trans hd)
    obtain rfl : a = b := Option.some.inj (ha.symm.trans hb')
    exact hb
  · exact hl.trans _ _ _ (h.lt_of_chunks hlt hc hd (mem_of_getLast? ha) (mem_of_getLast? hb')) hb

theorem entryBelow_ok (hl : ord.Lawful) (entries : List α) (target : κ) (hi : i < entries.length) :
    entryBelow ord key entries target i = .ok (ord.lt (key entries[i]) target) := by
  unfold entryBelow
  rw [index_ok (by rw [get_natCast, getElem?_eq_getElem hi]), ok_bind, hl.eq_refl, assert_true, ok_bind]

theorem bisect_entries (hl : ord.Lawful) {entries : List α}
    (hs : entries.Pairwise fun a b => ord.lt (key a) (key b) = true) (target : κ) : ∃ l r, entries = l ++ r ∧
      bisect (entries.length + 1) (entryBelow ord key entries target) 0 entries.length = .ok (l.length : Int) ∧
      (∀ a ∈ l, Below ord key target a) ∧ ∀ b ∈ r, ¬ Below ord key target b := by
  have hsearch := @bisect_ok (entryBelow ord key entries target)
    (fun i => match entries[i]? with | some a => ord.lt (key a) target | none => false)
    entries.length (entries.length + 1) ?_ ?_ (by omega)
  · obtain ⟨m, hrun, hm, hlow, hhigh⟩ := hsearch
    refine ⟨entries.take m, entries.drop m, (take_append_drop m entries).symm, ?_, fun a ha => ?_, fun b hb => ?_⟩
    · rw [hrun, length_take, Nat.min_eq_left hm]
    · obtain ⟨i, hi, rfl⟩ := mem_take_iff_getElem.mp ha
      have := hlow i (by omega)
      rwa [getElem?_eq_getElem (by omega)] at this
    · obtain ⟨i, hi, rfl⟩ := mem_drop_iff_getElem.mp hb
      have := hhigh (m + i) (by omega) (by omega)
      rw [getElem?_eq_getElem (by omega)] at this
      simpa [Below] using this
  · intro i hi
    rw [entryBelow_ok hl entries target hi, getElem?_eq_getElem hi]
  · intro i j hij hj hb
    simp only [getElem?_eq_getElem hj, getElem?_eq_getElem (Nat.lt_of_le_of_lt hij hj)] at hb ⊢
    rcases Nat.eq_or_lt_of_le hij with rfl | hlt
    · exact hb
    · exact hl.trans _ _ _ (pairwise_iff_getElem.mp hs i j (by omega) hj hlt) hb

/-- The place of a key: the chunk `c` behind `pre`, and in it the elements `r` behind `l`. -/
structure Place (ord : KeyOrder κ) (key : α → κ) (cs : List (List α)) (target : κ)
    (pre post : List (List α)) (l r : List α) : Prop where
  chunks : cs = pre ++ (l ++ r) :: post
  below : ∀ a ∈ pre.flatten ++ l, Below ord key target a
  above : ∀ b ∈ r ++ post.flatten, ¬ Below ord key target b
  last : r = [] → post = []

theorem place_exists (hl : ord.Lawful) (h : Good ord key cs) (hne : cs ≠ []) (target : κ) :
    ∃ pre post l r, Place ord key cs target pre post l r ∧
      bisect (cs.length + 1) (chunkBelow ord key (ofChunks cs) target) 0 ((cs.length : Int) - 1)
        = .ok (pre.length : Int) ∧
      bisect ((l ++ r).length + 1) (entryBelow ord key (l ++ r) target) 0 (l ++ r).length = .ok (l.length : Int) := by
  have hpos : 0 < cs.length := length_pos_iff.mpr hne
  obtain ⟨m, hrun, hm, hlow, hhigh⟩ := @bisect_ok (chunkBelow ord key (ofChunks cs) target)
    (lastBelow ord key cs target) (cs.length - 1) (cs.length + 1)
    (fun i hi => chunkBelow_ok hl h target (by omega))
    (fun i j hij hj hb => lastBelow_mono hl h target hij (by omega) hb) (by omega)
  have hmlt : m < cs.length := by omega
  have hsplit : cs = cs.take m ++ cs[m] :: cs.drop (m + 1) := by
    rw [← drop_eq_getElem_cons hmlt, take_append_drop]
  have hsorted := h.chunk_sorted (getElem_mem hmlt)
  obtain ⟨l, r, hc, hrun', hbelow, habove⟩ := bisect_entries hl hsorted target
  obtain ⟨c, last, hcm, hlast⟩ := h.exists_last hmlt
  obtain rfl : cs[m] = c := Option.some.inj ((getElem?_eq_getElem hmlt).symm.trans hcm)
  refine ⟨cs.take m, cs.drop (m + 1), l, r, ⟨by rw [← hc]; exact hsplit, fun a ha => ?_,
    fun b hb => ?_, fun hr => ?_⟩, ?_, by rw [← hc]; exact hrun'⟩
  · rcases mem_append.mp ha with ha | ha
    · -- an earlier chunk: its last element is below the target
      obtain ⟨d, hd, had⟩ := mem_flatten.mp ha
      obtain ⟨i, hi, rfl⟩ := mem_take_iff_getElem.mp hd
      obtain ⟨d', last', hd', hlast'⟩ := h.exists_last (i := i) (by omega)
      obtain rfl : cs[i] = d' :=
        Option.some.inj ((getElem?_eq_getElem (by omega)).symm.trans hd')
      have hb := hlow i (by omega)
      rw [lastBelow, hd', bind_some, hlast'] at hb
      rcases eq_or_lt_getLast (h.chunk_sorted (getElem_mem (by omega))) had hlast' with
        rfl | hlt
      · exact hb
      · exact Below.of_lt hl hlt hb
    · exact hbelow a ha
  · rcases mem_append.mp hb with hb | hb
    · exact habove b hb
    · -- a later chunk: the last element of the chunk is not below the target
      intro hbt
      obtain ⟨d, hd, hbd⟩ := mem_flatten.mp hb
      obtain ⟨i, hi, rfl⟩ := mem_drop_iff_getElem.mp hd
      have hn : ord.lt (key last) target = false := by
        have := hhigh m (le_refl m) (by omega)
        rwa [lastBelow, hcm, bind_some, hlast] at this
      have hlt := h.lt_of_chunks (i := m) (j := m + 1 + i) (by omega) hcm
        (getElem?_eq_getElem (by omega)) (mem_of_getLast? hlast) hbd
      rw [hl.trans _ _ _ hlt hbt] at hn
      cases hn
  · -- every element of the chunk is below the target, so it is the last chunk
    subst hr
    rw [append_nil] at hc
    by_contra hpost
    have hmn : m < cs.length - 1 := by
      by_contra hge
      exact hpost (drop_eq_nil_iff.mpr (by omega))
    have hn : ord.lt (key last) target = false := by
      have := hhigh m (le_refl m) hmn
      rwa [lastBelow, hcm, bind_some, hlast] at this
    rw [show ord.lt (key last) target = true from
      hbelow last (hc ▸ mem_of_getLast? hlast)] at hn
    cases hn
  · rw [length_take, Nat.min_eq_left (by omega)]
    rwa [Nat.cast_sub hpos, Nat.cast_one] at hrun

theorem locate_empty (hl : ord.Lawful) (target : κ) : locate ord key (ofChunks []) target = .ok (0, -1) := by
  unfold locate
  rw [hl.eq_refl, assert_true, ok_bind]
  rfl

theorem locate_ok (hl : ord.Lawful) (h : Good ord key cs) (hne : cs ≠ []) (target : κ) :
    ∃ pre post l r, Place ord key cs target pre post l r ∧ ((∃ x r', r = x :: r' ∧ ord.lt target (key x) = false ∧
        locate ord key (ofChunks cs) target = .ok ((pre.length : Int), (l.length : Int))) ∨
      ((∀ b ∈ r ++ post.flatten, ord.lt target (key b) = true) ∧
        locate ord key (ofChunks cs) target = .ok ((pre.length : Int), -1 - (l.length : Int)))) := by
  obtain ⟨pre, post, l, r, hp, hchunk, hentry⟩ := place_exists hl h hne target
  refine ⟨pre, post, l, r, hp, ?_⟩
  have hpos : 0 < cs.length := length_pos_iff.mpr hne
  have htotal := chunkTotal_ofChunks h
  have hlocate : locate ord key (ofChunks cs) target = (hasKeyAt ord key (l ++ r) target l.length >>= fun present =>
        .ok ((pre.length : Int), if present then (l.length : Int) else -1 - (l.length : Int))) := by
    unfold locate
    simp only [hl.eq_refl, assert_true, ok_bind, htotal]
    rw [if_neg (by omega), Int.toNat_natCast, hchunk, ok_bind, ofChunks, hp.chunks, chunkOf_middle,
      ok_bind, hentry, ok_bind]
  have hkey : hasKeyAt ord key (l ++ r) target l.length
      = .ok (match r with | x :: _ => !ord.lt target (key x) | [] => false) := by
    unfold hasKeyAt
    cases r with
    | nil => simp
    | cons x r' =>
      rw [if_pos (by simp), index_ok (by rw [get_natCast]; exact getElem?_middle l x r')]
      rfl
  rw [hkey, ok_bind] at hlocate
  cases r with
  | nil =>
    right
    refine ⟨fun b hb => ?_, hlocate⟩
    rw [hp.last rfl] at hb
    simp at hb
  | cons x r' =>
    cases hx : ord.lt target (key x) with
    | false =>
      left
      simp only [hx, Bool.not_false, if_true] at hlocate
      exact ⟨x, r', rfl, hx, hlocate⟩
    | true =>
      right
      simp only [hx, Bool.not_true, Bool.false_eq_true, if_false] at hlocate
      refine ⟨fun b hb => ?_, hlocate⟩
      -- the other elements are above the first one behind the place
      rw [cons_append, mem_cons] at hb
      rcases hb with rfl | hb
      · exact hx
      · have hs : (x :: (r' ++ post.flatten)).Pairwise fun a b => ord.lt (key a) (key b) = true := by
          have := h.sorted
          rw [hp.chunks] at this
          simp only [flatten_append, flatten_cons, append_assoc, cons_append] at this
          exact (pairwise_append.mp (pairwise_append.mp this).2.1).2.1
        exact hl.trans _ _ _ hx (rel_of_pairwise_cons hs hb)

theorem beyondLast_ok (hl : ord.Lawful) (h : Good ord key cs) (target : κ) :
    (∃ pre c, cs = pre ++ [c] ∧ Place ord key cs target pre [] c [] ∧
      beyondLast ord key (ofChunks cs) target = .ok true) ∨ beyondLast ord key (ofChunks cs) target = .ok false := by
  by_cases hne : cs = []
  · subst hne
    right
    unfold beyondLast
    rw [hl.eq_refl, assert_true, ok_bind]
    rfl
  · have hpos : 0 < cs.length := length_pos_iff.mpr hne
    obtain ⟨c, last, hc, hlast⟩ := h.exists_last (i := cs.length - 1) (by omega)
    have hsplit : cs = cs.dropLast ++ [c] := by
      refine (dropLast_append_getLast? c ?_).symm
      rw [mem_def, getLast?_eq_getElem?, hc]
    have hlen : 0 < cs.flatten.length := length_pos_of_sizes h.sizes hne
    have hbelow := chunkBelow_ok hl h target (i := cs.length - 1) (by omega)
    have hrun : beyondLast ord key (ofChunks cs) target = .ok (ord.lt (key last) target) := by
      have hcast : chunkTotal (ofChunks cs) - 1 = ((cs.length - 1 : Nat) : Int) := by
        rw [chunkTotal_ofChunks h]
        omega
      have hbl : lastBelow ord key cs target (cs.length - 1) = ord.lt (key last) target := by
        rw [lastBelow, hc, bind_some, hlast]
      rw [← hbl, ← hbelow]
      unfold beyondLast chunkBelow
      rw [hl.eq_refl, assert_true, ok_bind, if_neg (by unfold ofChunks withLength; simp only; omega), hcast]
    cases hb : ord.lt (key last) target with
    | false =>
      right
      rw [hrun, hb]
    | true =>
      left
      refine ⟨cs.dropLast, c, hsplit, ⟨by simpa using hsplit, fun a ha => ?_, by simp, by simp⟩, by rw [hrun, hb]⟩
      have ha' : a ∈ cs.flatten := by
        rw [hsplit]
        simpa using ha
      obtain ⟨d, hd, had⟩ := mem_flatten.mp ha'
      obtain ⟨i, hi⟩ := mem_iff_getElem?.mp hd
      have hilt := (List.getElem?_eq_some_iff.mp hi).1
      rcases Nat.eq_or_lt_of_le (show i ≤ cs.length - 1 by omega) with rfl | hlt
      · obtain rfl : d = c := Option.some.inj (hi.symm.trans hc)
        rcases eq_or_lt_getLast (h.chunk_sorted hd) had hlast with rfl | hlt
        · exact hb
        · exact hl.trans _ _ _ hlt hb
      · exact hl.trans _ _ _ (h.lt_of_chunks hlt hi hc had (mem_of_getLast? hlast)) hb

def Apart (cs : List (List α)) : Prop :=
  cs.IsChain fun a b => 256 < a.length + b.length

/-- What a chunk of `size` elements needs of the chunk before it and the chunk after it. -/
def Fits (pre post : List (List α)) (size : Nat) : Prop :=
  (∀ a ∈ pre.getLast?, 256 < a.length + size) ∧ ∀ b ∈ post.head?, 256 < size + b.length

theorem apart_middle : Apart (pre ++ c :: post) ↔ Apart pre ∧ Apart post ∧ Fits pre post c.length := by
  unfold Apart Fits
  rw [isChain_append, isChain_cons]
  simp only [head?_cons, mem_def, Option.some.injEq, forall_eq']
  tauto

theorem Fits.mono {m n : Nat} (h : Fits pre post m) (hmn : m ≤ n) : Fits pre post n :=
  ⟨fun a ha => lt_of_lt_of_le (h.1 a ha) (by omega), fun b hb => lt_of_lt_of_le (h.2 b hb) (by omega)⟩

def Sizes (cs : List (List α)) : Prop :=
  ∀ c ∈ cs, 1 ≤ c.length ∧ c.length ≤ 512

theorem sizes_middle : Sizes (pre ++ c :: post) ↔ Sizes pre ∧ Sizes post ∧ 1 ≤ c.length ∧ c.length ≤ 512 := by
  unfold Sizes
  simp only [mem_append, mem_cons]
  constructor
  · intro h
    exact ⟨fun d hd => h d (.inl hd), fun d hd => h d (.inr (.inr hd)), h c (.inr (.inl rfl))⟩
  · rintro ⟨h1, h2, h3⟩ d (hd | rfl | hd)
    · exact h1 d hd
    · exact h3
    · exact h2 d hd

theorem fits_of_large {size : Nat} (hpre : Sizes pre) (hpost : Sizes post) (hsize : 256 ≤ size) :
    Fits pre post size := by
  refine ⟨fun a ha => ?_, fun b hb => ?_⟩
  · have := (hpre a (mem_of_getLast? ha)).1
    omega
  · have := (hpost b (mem_of_head? hb)).1
    omega

/-! ## Adding an element -/

theorem splitChunk_ok (hlen : (l ++ r).length = 512) (item : α) :
    ∃ a b, splitChunk (l ++ r) l.length item = .ok (a, b) ∧ a ++ b = l ++ item :: r ∧
      256 ≤ a.length ∧ 256 ≤ b.length := by
  have hlen' : l.length + r.length = 512 := by rw [← hlen, length_append]
  have hmiddle : ((l ++ r).length : Int) / 2 = 256 := by
    rw [hlen]
    rfl
  unfold splitChunk
  simp only [hmiddle]
  by_cases hle : l.length ≤ 256
  · -- the element goes into the left half
    have hleft : (l ++ r.take (256 - l.length)).length = 256 := by
      rw [length_append, length_take]
      omega
    have hsplit : l ++ r = (l ++ r.take (256 - l.length)) ++ r.drop (256 - l.length) := by
      rw [append_assoc, take_append_drop]
    have hoff := ChunkVec.splitOff_ok (l ++ r.take (256 - l.length)) (r.drop (256 - l.length))
    rw [hleft, ← hsplit] at hoff
    refine ⟨l ++ item :: r.take (256 - l.length), r.drop (256 - l.length), ?_, by simp, ?_, ?_⟩
    · rw [show ((256 : Nat) : Int) = 256 from rfl] at hoff
      rw [hoff, ok_bind]
      simp only
      rw [if_pos (by omega), ChunkVec.insertAt_ok, ok_bind]
    · simp
      omega
    · simp
      omega
  · -- the element goes into the right half
    have hleft : (l.take 256).length = 256 := by
      rw [length_take]
      omega
    have hsplit : l ++ r = l.take 256 ++ (l.drop 256 ++ r) := by
      rw [← append_assoc, take_append_drop]
    have hoff := ChunkVec.splitOff_ok (l.take 256) (l.drop 256 ++ r)
    rw [hleft, ← hsplit] at hoff
    refine ⟨l.take 256, l.drop 256 ++ item :: r, ?_, ?_, ?_, ?_⟩
    · have hcast : (l.length : Int) - 256 = ((l.drop 256).length : Int) := by
        rw [length_drop]
        omega
      rw [show ((256 : Nat) : Int) = 256 from rfl] at hoff
      rw [hoff, ok_bind]
      simp only
      rw [if_neg (by omega), hcast, ChunkVec.insertAt_ok, ok_bind]
    · rw [← append_assoc, take_append_drop]
    · omega
    · simp
      omega

theorem length_ofChunks (cs : List (List α)) : (ofChunks cs).length = cs.flatten.length := rfl

theorem withLength_eq (h : count = cs.flatten.length) : withLength cs count = ofChunks cs := by
  rw [h, ofChunks]

theorem addEntry_ok (hs : Sizes cs) (ha : Apart cs) (hcs : cs = pre ++ (l ++ r) :: post) (item : α) :
    ∃ cs', addEntry (ofChunks cs) pre.length l.length item = .ok (ofChunks cs') ∧ Sizes cs' ∧ Apart cs' ∧
      cs'.flatten = (pre.flatten ++ l) ++ item :: (r ++ post.flatten) := by
  have hne : cs ≠ [] := by
    rw [hcs]
    simp
  have hpos := length_pos_of_sizes hs hne
  have htotal : chunkTotal (ofChunks cs) = cs.length := by
    refine chunkTotal_withLength ⟨fun h0 => ?_, fun h0 => absurd h0 hne⟩
    omega
  have hchunk : chunkOf (ofChunks cs) pre.length = .ok (l ++ r) := by
    rw [ofChunks, hcs, chunkOf_middle]
  obtain ⟨hspre, hspost, hsize⟩ := sizes_middle.mp (hcs ▸ hs)
  obtain ⟨hapre, hapost, hfits⟩ := apart_middle.mp (hcs ▸ ha)
  obtain ⟨hole, htake, hput⟩ := takeChunk_ok pre post (l ++ r) (cs.flatten.length : Int)
  rw [← hcs] at htake
  have hflat : cs.flatten.length = (pre.flatten ++ l).length + (r ++ post.flatten).length := by
    rw [hcs]
    simp
    omega
  have hcount : ∀ cs' : List (List α), cs'.flatten = (pre.flatten ++ l) ++ item :: (r ++ post.flatten) →
      (cs.flatten.length : Int) + 1 = cs'.flatten.length := by
    intro cs' h'
    rw [h', length_append, length_cons, hflat]
    omega
  unfold addEntry
  simp only [length_ofChunks, htotal, hchunk, ok_bind]
  rw [if_neg (by omega)]
  by_cases hsmall : (((l ++ r).length : Nat) : Int) < maxChunk
  · -- the chunk has room
    have hflat' : (pre ++ (l ++ item :: r) :: post).flatten
        = (pre.flatten ++ l) ++ item :: (r ++ post.flatten) := by simp
    refine ⟨pre ++ (l ++ item :: r) :: post, ?_, sizes_middle.mpr ⟨hspre, hspost, ?_, ?_⟩,
      apart_middle.mpr ⟨hapre, hapost, hfits.mono (by simp)⟩, hflat'⟩
    · rw [if_pos hsmall, ofChunks, htake, ok_bind]
      simp only
      rw [ChunkVec.insertAt_ok, ok_bind, hput, withLength_eq (hcount _ hflat')]
    · simp
      omega
    · have : ((l ++ r).length : Int) < 512 := hsmall
      simp at this ⊢
      omega
  · have hfull : (l ++ r).length = 512 := by
      have : ¬ ((l ++ r).length : Int) < 512 := hsmall
      omega
    rw [if_neg hsmall]
    by_cases hend : (pre.length : Int) = cs.length - 1 ∧ (l.length : Int) = (l ++ r).length
    · -- behind a full last chunk: a new chunk
      obtain rfl : post = [] := by
        have := hend.1
        rw [hcs, length_append, length_cons] at this
        exact length_eq_zero_iff.mp (by omega)
      obtain rfl : r = [] := by
        have := hend.2
        rw [length_append] at this
        exact length_eq_zero_iff.mp (by omega)
      have hlast : (pre ++ [l ++ [], [item]]) = (pre ++ [l ++ []]) ++ [item] :: [] := by simp
      have hflat' : (pre ++ [l ++ [], [item]]).flatten = (pre.flatten ++ l) ++ item :: ([] ++ [].flatten) := by simp
      refine ⟨pre ++ [l ++ [], [item]], ?_, ?_, ?_, hflat'⟩
      · rw [if_pos hend, ← withLength_eq (hcount _ hflat'), hcs]
        unfold ofChunks withLength
        cases pre with
        | nil => rfl
        | cons p pre => simp
      · rw [hlast]
        refine sizes_middle.mpr ⟨hcs ▸ hs, fun c hc => absurd hc not_mem_nil, by simp⟩
      · rw [hlast]
        refine apart_middle.mpr ⟨hcs ▸ ha, .nil, fun a hb => ?_, by simp⟩
        obtain rfl : l ++ [] = a := by simpa using hb
        omega
    · -- a full chunk is cut in two
      obtain ⟨a, b, hsplit, hab, hla, hlb⟩ := splitChunk_ok hfull item
      have hlen : a.length + b.length = 513 := by
        have := congrArg List.length hab
        simp at this hfull
        omega
      have hflat' : (pre ++ a :: b :: post).flatten = (pre.flatten ++ l) ++ item :: (r ++ post.flatten) := by
        rw [flatten_append, flatten_cons, flatten_cons, ← append_assoc a b, hab]
        simp
      have hmid : pre ++ a :: b :: post = (pre ++ [a]) ++ b :: post := by simp
      have hsa : Sizes (pre ++ [a]) :=
        sizes_middle.mpr ⟨hspre, fun c hc => absurd hc not_mem_nil, by omega⟩
      refine ⟨pre ++ a :: b :: post, ?_, ?_, ?_, hflat'⟩
      · rw [if_neg hend, ofChunks, htake, ok_bind]
        simp only
        rw [hsplit, ok_bind]
        simp only
        rw [hput, ok_bind]
        have hrest := insertRest_ok pre post a b
        rw [← withLength_eq (hcount _ hflat')]
        unfold withLength
        simp only
        rw [hrest, ok_bind]
        cases pre with
        | nil => rfl
        | cons p pre => rfl
      · rw [hmid]
        exact sizes_middle.mpr ⟨hsa, hspost, by omega⟩
      · rw [hmid]
        refine apart_middle.mpr ⟨?_, hapost, fits_of_large hsa hspost hlb⟩
        exact apart_middle.mpr ⟨hapre, .nil, fits_of_large hspre (fun c hc => absurd hc not_mem_nil) hla⟩

/-! ## Removing an element -/

theorem mergeNext_ok (pre post : List (List α)) (a b : List α) (count : Int) :
    mergeNext (withLength (pre ++ a :: b :: post) count) pre.length
      = .ok (withLength (pre ++ (a ++ b) :: post) count) := by
  obtain ⟨hole, htake, hput⟩ := takeChunk_ok pre post a count
  have hothers : ({ withLength (pre ++ a :: b :: post) count with
      rest := (pre ++ a :: post).tail } : Chunked α) = withLength (pre ++ a :: post) count := by
    cases pre with
    | nil => rfl
    | cons p pre => rfl
  have hrest : (withLength (pre ++ a :: b :: post) count).rest = (pre ++ a :: b :: post).tail := rfl
  unfold mergeNext
  rw [hrest, removeRest_ok, ok_bind]
  simp only
  rw [hothers, htake, ok_bind]
  simp only
  rw [ChunkVec.join_ok, ok_bind, hput]
  rfl

theorem decide_mergeLimit (m n : Nat) : decide ((m : Int) + n ≤ mergeLimit) = decide (m + n ≤ 256) := by
  have : ((m : Int) + n ≤ 256) ↔ m + n ≤ 256 := by omega
  exact decide_eq_decide.mpr this

theorem shrink_ok (hs : Sizes (pre ++ c :: post)) (hpre : Apart pre) (hpost : Apart post)
    (hfits : Fits pre post (c.length + 1)) :
    ∃ cs', shrink (ofChunks (pre ++ c :: post)) pre.length = .ok (ofChunks cs') ∧
      Sizes cs' ∧ Apart cs' ∧ cs'.flatten = (pre ++ c :: post).flatten := by
  have hpos := length_pos_of_sizes hs (by simp)
  have htotal : chunkTotal (ofChunks (pre ++ c :: post)) = (pre ++ c :: post).length := by
    refine chunkTotal_withLength ⟨fun h0 => ?_, fun h0 => by simp at h0⟩
    omega
  obtain ⟨hspre, hspost, hsize⟩ := sizes_middle.mp hs
  have hchunk : chunkOf (ofChunks (pre ++ c :: post)) pre.length = .ok c := by
    rw [ofChunks, chunkOf_middle]
  unfold shrink
  rw [hchunk, ok_bind]
  simp only
  by_cases hbefore : ∃ p pre', pre = pre' ++ [p] ∧ p.length + c.length ≤ 256
  · obtain ⟨p, pre, rfl, hle⟩ := hbefore
    obtain ⟨hspre', -, hsp⟩ := sizes_middle.mp hspre
    have hsum : 256 ≤ p.length + c.length := by
      have := hfits.1 p (by simp)
      omega
    have hlist : pre ++ [p] ++ c :: post = pre ++ p :: c :: post := by simp
    have hcast : ((pre ++ [p]).length : Int) - 1 = (pre.length : Int) := by simp
    have hmerges : mergesBefore (ofChunks (pre ++ [p] ++ c :: post)) (pre ++ [p]).length c.length = .ok true := by
      unfold mergesBefore
      rw [if_pos (by simp), hcast, hlist, ofChunks, chunkOf_middle, ok_bind, decide_mergeLimit, decide_eq_true hle]
    have hflat' : (pre ++ (p ++ c) :: post).flatten = (pre ++ [p] ++ c :: post).flatten := by simp
    refine ⟨pre ++ (p ++ c) :: post, ?_, sizes_middle.mpr ⟨hspre', hspost, ?_⟩,
      apart_middle.mpr ⟨(apart_middle.mp hpre).1, hpost, fits_of_large hspre' hspost ?_⟩, hflat'⟩
    · rw [hmerges, ok_bind, if_pos rfl, hcast, ofChunks, hlist, mergeNext_ok, withLength_eq]
      simp
    · simp
      omega
    · simp
      omega
  · have hmerges : mergesBefore (ofChunks (pre ++ c :: post)) pre.length c.length = .ok false := by
      unfold mergesBefore
      rcases eq_nil_or_concat pre with rfl | ⟨pre, p, rfl⟩
      · rfl
      · rw [concat_eq_append] at hbefore ⊢
        have hlist : pre ++ [p] ++ c :: post = pre ++ p :: c :: post := by simp
        have hcast : ((pre ++ [p]).length : Int) - 1 = (pre.length : Int) := by simp
        have hgt : ¬ p.length + c.length ≤ 256 := fun hle => hbefore ⟨p, pre, rfl, hle⟩
        rw [if_pos (by simp), hcast, hlist, ofChunks, chunkOf_middle, ok_bind, decide_mergeLimit, decide_eq_false hgt]
    have hfitspre : ∀ a ∈ pre.getLast?, 256 < a.length + c.length := by
      intro a ha
      obtain ⟨pre', rfl⟩ := getLast?_eq_some_iff.mp ha
      have hgt : ¬ a.length + c.length ≤ 256 := fun hle => hbefore ⟨a, pre', rfl, hle⟩
      omega
    rw [hmerges, ok_bind, if_neg Bool.false_ne_true]
    cases post with
    | nil =>
      refine ⟨pre ++ [c], ?_, hs, apart_middle.mpr ⟨hpre, hpost, hfitspre, by simp⟩, rfl⟩
      unfold mergesAfter
      rw [if_neg (by rw [htotal]; simp), ok_bind, if_neg Bool.false_ne_true]
    | cons q post =>
      have hafter : mergesAfter (ofChunks (pre ++ c :: q :: post)) pre.length c.length
          = .ok (decide (c.length + q.length ≤ 256)) := by
        have hlist : pre ++ c :: q :: post = (pre ++ [c]) ++ q :: post := by simp
        have hcast : (pre.length : Int) + 1 = ((pre ++ [c]).length : Int) := by simp
        unfold mergesAfter
        rw [if_pos (by rw [htotal]; simp), hcast, hlist, ofChunks, chunkOf_middle, ok_bind, decide_mergeLimit]
      obtain ⟨-, hspost', hsq⟩ := sizes_middle.mp (show Sizes ([] ++ q :: post) from hspost)
      rw [hafter, ok_bind]
      by_cases hle : c.length + q.length ≤ 256
      · have hsum : 256 ≤ c.length + q.length := by
          have := hfits.2 q (by simp)
          omega
        refine ⟨pre ++ (c ++ q) :: post, ?_, sizes_middle.mpr ⟨hspre, hspost', ?_⟩,
          apart_middle.mpr ⟨hpre, hpost.tail, fits_of_large hspre hspost' ?_⟩, by simp⟩
        · rw [if_pos (decide_eq_true hle), ofChunks, mergeNext_ok, withLength_eq]
          simp
        · simp
          omega
        · simp
          omega
      · refine ⟨pre ++ c :: q :: post, ?_, hs, apart_middle.mpr ⟨hpre, hpost, hfitspre, ?_⟩, rfl⟩
        · rw [decide_eq_false hle, if_neg Bool.false_ne_true]
        · intro b hb
          obtain rfl : q = b := by simpa using hb
          omega

theorem deleteChunk_ok (hc : c.length = 1) (hs : Sizes (pre ++ c :: post)) :
    deleteChunk (ofChunks (pre ++ c :: post)) pre.length = .ok (ofChunks (pre ++ post)) := by
  have hcount : ((pre ++ c :: post).flatten.length : Int) - 1 = (pre ++ post).flatten.length := by
    simp [hc]
    omega
  unfold deleteChunk
  simp only [length_ofChunks, hcount]
  cases pre with
  | nil =>
    cases post with
    | nil => rfl
    | cons q post =>
      rw [length_nil, Nat.cast_zero, if_pos rfl, if_neg (by simp [ofChunks, withLength])]
      have hremove := ChunkVec.removeAt_ok [] post q
      simp only [nil_append, length_nil, Nat.cast_zero] at hremove
      simp only [ofChunks, withLength, nil_append, tail_cons, hremove, ok_bind]
      rfl
  | cons p pre =>
    have hcast : (((p :: pre).length : Nat) : Int) - 1 = (pre.length : Int) := by simp
    have hremove := ChunkVec.removeAt_ok pre post c
    rw [if_neg (by simp; omega), hcast]
    simp only [ofChunks, withLength, cons_append, tail_cons, hremove, ok_bind]
    rfl

/-! ## The elements around a key -/

def same (ord : KeyOrder κ) (a b : κ) : Bool :=
  !ord.lt a b && !ord.lt b a

def find (ord : KeyOrder κ) (key : α → κ) (target : κ) (items : List α) : Option α :=
  items.find? fun a => same ord (key a) target

def erase (ord : KeyOrder κ) (key : α → κ) (target : κ) (items : List α) : List α :=
  items.filter fun a => !same ord (key a) target

/-- The elements are those below a key, the one that has it, and those above it. -/
structure Cut (ord : KeyOrder κ) (key : α → κ) (target : κ) (before : List α) (found : Option α)
    (after : List α) : Prop where
  below : ∀ a ∈ before, ord.lt (key a) target = true
  found : ∀ x ∈ found, same ord (key x) target = true
  above : ∀ b ∈ after, ord.lt target (key b) = true

namespace Cut

variable {target : κ} {before after : List α} {found : Option α}

theorem find_eq (hc : Cut ord key target before found after) :
    find ord key target (before ++ found.toList ++ after) = found := by
  have hbefore : before.find? (fun a => same ord (key a) target) = none :=
    find?_eq_none.mpr fun a ha => by simp [same, hc.below a ha]
  have hafter : after.find? (fun a => same ord (key a) target) = none :=
    find?_eq_none.mpr fun b hb => by simp [same, hc.above b hb]
  unfold find
  rw [find?_append, find?_append, hbefore, hafter]
  cases found with
  | none => rfl
  | some x => simp [hc.found x rfl]

theorem erase_eq (hc : Cut ord key target before found after) :
    erase ord key target (before ++ found.toList ++ after) = before ++ after := by
  have hbefore : before.filter (fun a => !same ord (key a) target) = before :=
    filter_eq_self.mpr fun a ha => by simp [same, hc.below a ha]
  have hafter : after.filter (fun a => !same ord (key a) target) = after :=
    filter_eq_self.mpr fun b hb => by simp [same, hc.above b hb]
  unfold erase
  rw [filter_append, filter_append, hbefore, hafter]
  cases found with
  | none => simp
  | some x => simp [hc.found x rfl]

variable {item : α}

theorem sorted_insert (hl : ord.Lawful) (hc : Cut ord key target before found after)
    (hs : (before ++ found.toList ++ after).Pairwise fun a b => ord.lt (key a) (key b) = true)
    (hitem : key item = target) : (before ++ item :: after).Pairwise fun a b => ord.lt (key a) (key b) = true := by
  obtain ⟨hleft, hafter, -⟩ := pairwise_append.mp hs
  obtain ⟨hbefore, -, -⟩ := pairwise_append.mp hleft
  subst hitem
  refine pairwise_append.mpr ⟨hbefore, pairwise_cons.mpr ⟨hc.above, hafter⟩, ?_⟩
  intro a ha b hb
  rcases mem_cons.mp hb with rfl | hb
  · exact hc.below a ha
  · exact hl.trans _ _ _ (hc.below a ha) (hc.above b hb)

theorem same_trans (hl : ord.Lawful) {a b c : κ} (hab : same ord a b = true)
    (hbc : same ord b c = true) : same ord a c = true := by
  simp only [same, Bool.and_eq_true, Bool.not_eq_true'] at *
  constructor
  · by_contra h
    rcases hl.cotrans a c b (by simpa using h) with h' | h'
    · simp [h'] at hab
    · simp [h'] at hbc
  · by_contra h
    rcases hl.cotrans c a b (by simpa using h) with h' | h'
    · simp [h'] at hbc
    · simp [h'] at hab

theorem same_symm {a b : κ} (h : same ord a b = true) : same ord b a = true := by
  simp only [same, Bool.and_eq_true] at *
  exact ⟨h.2, h.1⟩

theorem congr (hl : ord.Lawful) (hc : Cut ord key target before found after) {other : κ}
    (h : same ord target other = true) : Cut ord key other before found after := by
  have hs : ord.lt target other = false ∧ ord.lt other target = false := by
    simpa [same] using h
  refine ⟨fun a ha => ?_, fun x hx => same_trans hl (hc.found x hx) h, fun b hb => ?_⟩
  · rcases hl.cotrans _ _ other (hc.below a ha) with h' | h'
    · exact h'
    · simp [h'] at hs
  · rcases hl.cotrans _ _ other (hc.above b hb) with h' | h'
    · simp [h'] at hs
    · exact h'

theorem find_put (hl : ord.Lawful) (hc : Cut ord key target before found after)
    (hitem : same ord (key item) target = true) (other : κ) :
    find ord key other (before ++ item :: after) = if same ord target other then some item
        else find ord key other (before ++ found.toList ++ after) := by
  split
  · rename_i hsame
    have hput : Cut ord key target before (some item) after :=
      ⟨hc.below, fun x hx => by obtain rfl : item = x := by simpa using hx
                                exact hitem, hc.above⟩
    have := (hput.congr hl hsame).find_eq
    simpa using this
  · rename_i hother
    have hdrop : ∀ x, same ord (key x) target = true → same ord (key x) other = false := by
      intro x hx
      by_contra h
      exact hother (same_trans hl (same_symm hx) (by simpa using h))
    unfold find
    cases found with
    | none => simp [find?_append, hdrop item hitem]
    | some y =>
      simp [find?_append, hdrop item hitem, hdrop y (hc.found y rfl)]

theorem find_drop (hl : ord.Lawful) (hc : Cut ord key target before found after) (other : κ) :
    find ord key other (before ++ after) = if same ord target other then none
        else find ord key other (before ++ found.toList ++ after) := by
  split
  · rename_i hsame
    have hdrop : Cut ord key target before none after := ⟨hc.below, by simp, hc.above⟩
    have := (hdrop.congr hl hsame).find_eq
    simpa using this
  · rename_i hother
    unfold find
    cases found with
    | none => simp
    | some y =>
      have : same ord (key y) other = false := by
        by_contra h
        exact hother (same_trans hl (same_symm (hc.found y rfl)) (by simpa using h))
      simp [find?_append, this]

end Cut

/-- The elements around a key and the answer of `locate`, for a list of chunks. -/
inductive Located : List (List α) → List α → Option α → List α → Int × Int → Prop
  | here (pre post : List (List α)) (l : List α) (x : α) (r : List α) :
      Located (pre ++ (l ++ x :: r) :: post) (pre.flatten ++ l) (some x) (r ++ post.flatten) (pre.length, l.length)
  | gap (pre post : List (List α)) (l r : List α) :
      Located (pre ++ (l ++ r) :: post) (pre.flatten ++ l) none (r ++ post.flatten) (pre.length, -1 - l.length)
  | empty : Located [] [] none [] (0, -1)

theorem Located.flatten_eq {before after : List α} {found : Option α} {place : Int × Int}
    (h : Located cs before found after place) : cs.flatten = before ++ found.toList ++ after := by
  cases h <;> simp

section

variable (hl : ord.Lawful)

include hl

variable (h : Good ord key cs)

include h

theorem locate_cut (target : κ) : ∃ before found after place, Located cs before found after place ∧
      Cut ord key target before found after ∧ locate ord key (ofChunks cs) target = .ok place := by
  by_cases hne : cs = []
  · subst hne
    exact ⟨[], none, [], _, .empty, ⟨by simp, by simp, by simp⟩, locate_empty hl target⟩
  obtain ⟨pre, post, l, r, hp, ⟨x, r', rfl, hx, hloc⟩ | ⟨habove, hloc⟩⟩ := locate_ok hl h hne target
  · have hnot : ord.lt (key x) target = false := by
      simpa [Below] using hp.above x (by simp)
    have hplace := Located.here pre post l x r'
    rw [← hp.chunks] at hplace
    refine ⟨_, _, _, _, hplace, ⟨hp.below, ?_, ?_⟩, hloc⟩
    · intro y hy
      obtain rfl : x = y := by simpa using hy
      simp [same, hx, hnot]
    · intro b hb
      have hs := h.sorted
      rw [hplace.flatten_eq] at hs
      have hlt := (pairwise_append.mp hs).2.2 x (by simp) b hb
      rcases hl.cotrans _ _ target hlt with h' | h'
      · rw [h'] at hnot
        cases hnot
      · exact h'
  · have hplace := Located.gap pre post l r
    rw [← hp.chunks] at hplace
    exact ⟨_, _, _, _, hplace, ⟨hp.below, by simp, habove⟩, hloc⟩

/-! ## The operations on a good collection -/

theorem contains_ok (target : κ) :
    contains ord key target (ofChunks cs) = .ok (find ord key target cs.flatten).isSome := by
  obtain ⟨before, found, after, place, hloc, hcut, hrun⟩ := locate_cut hl h target
  unfold contains
  rw [hrun, ok_bind, hloc.flatten_eq, hcut.find_eq]
  cases hloc with
  | here pre post l x r => simp
  | gap pre post l r =>
    simp
    omega
  | empty => rfl

theorem get_ok (target : κ) : get ord key target (ofChunks cs) = .ok (find ord key target cs.flatten) := by
  obtain ⟨before, found, after, place, hloc, hcut, hrun⟩ := locate_cut hl h target
  unfold get
  rw [hrun, ok_bind, hloc.flatten_eq, hcut.find_eq]
  cases hloc with
  | here pre post l x r =>
    simp only
    rw [if_pos (by omega), ofChunks, chunkOf_middle, ok_bind,
      index_ok (by rw [get_natCast]; exact getElem?_middle l x r), ok_bind]
  | gap pre post l r =>
    simp only
    rw [if_neg (by omega)]
  | empty => rfl

theorem remove_ok (target : κ) : ∃ cs', remove ord key target (ofChunks cs) = .ok (ofChunks cs') ∧ Good ord key cs' ∧
      cs'.flatten = erase ord key target cs.flatten := by
  obtain ⟨before, found, after, place, hloc, hcut, hrun⟩ := locate_cut hl h target
  have herase : erase ord key target cs.flatten = before ++ after := by
    rw [hloc.flatten_eq, hcut.erase_eq]
  have hsorted : (before ++ after).Pairwise fun a b => ord.lt (key a) (key b) = true :=
    herase ▸ h.sorted.filter _
  have hgood : ∀ cs' : List (List α), Sizes cs' → Apart cs' → cs'.flatten = before ++ after →
      Good ord key cs' := fun cs' h1 h2 h3 => ⟨h1, h2, h3 ▸ hsorted⟩
  unfold remove
  rw [hrun, ok_bind, herase]
  cases hloc with
  | gap pre post l r =>
    have hsame : (pre ++ (l ++ r) :: post).flatten = (pre.flatten ++ l) ++ (r ++ post.flatten) := by
      simp
    refine ⟨_, ?_, h, hsame⟩
    simp only
    rw [if_neg (by omega)]
  | empty => exact ⟨[], rfl, h, rfl⟩
  | here pre post l x r =>
    obtain ⟨hspre, hspost, hsize⟩ := sizes_middle.mp (show Sizes _ from h.sizes)
    obtain ⟨hapre, hapost, hfits⟩ := apart_middle.mp (show Apart _ from h.apart)
    simp only
    rw [if_pos (by omega), ofChunks, chunkOf_middle, ok_bind]
    by_cases hone : (l ++ x :: r).length = 1
    · -- the only element of its chunk: both neighbours hold at least 256
      have hnil : l = [] ∧ r = [] := by
        simp at hone
        exact ⟨length_eq_zero_iff.mp (by omega), length_eq_zero_iff.mp (by omega)⟩
      have hflat : (pre ++ post).flatten = (pre.flatten ++ l) ++ (r ++ post.flatten) := by
        simp [hnil.1, hnil.2]
      refine ⟨pre ++ post, ?_, hgood _ ?_ ?_ hflat, hflat⟩
      · rw [if_pos hone]
        exact deleteChunk_ok hone h.sizes
      · intro c hc
        rcases mem_append.mp hc with hc | hc
        · exact hspre c hc
        · exact hspost c hc
      · refine isChain_append.mpr ⟨hapre, hapost, fun a ha b hb => ?_⟩
        have h1 := hfits.1 a ha
        have h2 := hfits.2 b hb
        omega
    · have hlen : (l ++ r).length + 1 = (l ++ x :: r).length := by
        simp
        omega
      obtain ⟨hole, htake, hput⟩ :=
        takeChunk_ok pre post (l ++ x :: r) ((pre ++ (l ++ x :: r) :: post).flatten.length : Int)
      have hsmaller : Sizes (pre ++ (l ++ r) :: post) :=
        sizes_middle.mpr ⟨hspre, hspost, by omega⟩
      obtain ⟨cs', hshrink, hs', ha', hflat⟩ :=
        shrink_ok hsmaller hapre hapost (by rw [hlen]; exact hfits)
      have hflat' : cs'.flatten = (pre.flatten ++ l) ++ (r ++ post.flatten) := by
        rw [hflat]
        simp
      refine ⟨cs', ?_, hgood _ hs' ha' hflat', hflat'⟩
      have hcount : ((pre ++ (l ++ x :: r) :: post).flatten.length : Int) - 1
          = (pre ++ (l ++ r) :: post).flatten.length := by
        simp
        omega
      rw [if_neg hone, htake, ok_bind]
      simp only
      rw [ChunkVec.removeAt_ok, ok_bind]
      simp only
      rw [hput, ok_bind]
      simp only [withLength]
      rw [hcount]
      exact hshrink

theorem insertWith_ok (present : Int → Int → Exec (Chunked α)) (item : α) :
    ∃ before found after, cs.flatten = before ++ found.toList ++ after ∧ Cut ord key (key item) before found after ∧
      ((found = none ∧ ∃ cs', insertWith ord key present item (ofChunks cs) = .ok (ofChunks cs') ∧
        Good ord key cs' ∧ cs'.flatten = before ++ item :: after) ∨
      ∃ pre post l x r, cs = pre ++ (l ++ x :: r) :: post ∧ before = pre.flatten ++ l ∧
        found = some x ∧ after = r ++ post.flatten ∧
        insertWith ord key present item (ofChunks cs) = present pre.length l.length) := by
  have hgood : ∀ {before after : List α} {cs' : List (List α)},
      cs.flatten = before ++ (none : Option α).toList ++ after →
      Cut ord key (key item) before none after → Sizes cs' → Apart cs' →
      cs'.flatten = before ++ item :: after → Good ord key cs' := by
    intro before after cs' hflat hcut h1 h2 h3
    exact ⟨h1, h2, h3 ▸ hcut.sorted_insert hl (hflat ▸ h.sorted) rfl⟩
  unfold insertWith
  rcases beyondLast_ok hl h (key item) with ⟨pre, c, hcs, hp, hbeyond⟩ | hbeyond
  · -- above every key: the element is appended
    have hflat : cs.flatten = (pre.flatten ++ c) ++ (none : Option α).toList ++ [] := by
      rw [hcs]
      simp
    have hcut : Cut ord key (key item) (pre.flatten ++ c) none [] := ⟨hp.below, by simp, by simp⟩
    obtain ⟨cs', hrun, hs', ha', hflat'⟩ := addEntry_ok h.sizes h.apart hp.chunks item
    have hflat'' : cs'.flatten = (pre.flatten ++ c) ++ [item] := by simpa using hflat'
    refine ⟨_, none, [], hflat, hcut, .inl ⟨rfl, cs', ?_, hgood hflat hcut hs' ha' hflat'', hflat''⟩⟩
    have hcast : chunkTotal (ofChunks cs) - 1 = (pre.length : Int) := by
      rw [chunkTotal_ofChunks h, hcs]
      simp
    have hchunk : chunkOf (ofChunks cs) pre.length = .ok c := by
      rw [ofChunks, hcs, chunkOf_middle]
    rw [hbeyond, ok_bind, if_pos rfl]
    simp only [hcast, hchunk, ok_bind, hrun]
  · obtain ⟨before, found, after, place, hloc, hcut, hrun⟩ := locate_cut hl h (key item)
    refine ⟨before, found, after, hloc.flatten_eq, hcut, ?_⟩
    rw [hbeyond, ok_bind, if_neg Bool.false_ne_true, hrun, ok_bind]
    cases hloc with
    | here pre post l x r =>
      right
      refine ⟨pre, post, l, x, r, rfl, rfl, rfl, rfl, ?_⟩
      simp only
      rw [if_pos (by omega)]
    | gap pre post l r =>
      left
      obtain ⟨cs', hadd, hs', ha', hflat'⟩ := addEntry_ok h.sizes h.apart rfl item
      refine ⟨rfl, cs', ?_, hgood (by simp) hcut hs' ha' hflat', hflat'⟩
      have hoffset : -1 - (-1 - (l.length : Int)) = l.length := by omega
      simp only
      rw [if_neg (by omega), hoffset, hadd]
    | empty =>
      left
      have hsizes : Sizes [[item]] := by
        intro c hc
        obtain rfl := mem_singleton.mp hc
        simp
      exact ⟨rfl, [[item]], rfl, hgood rfl hcut hsizes (.singleton _) rfl, rfl⟩

/-! ## Reading all elements -/

end

theorem appendItems_eq (output entries : List α) : appendItems output entries = output ++ entries := by
  unfold appendItems
  induction entries generalizing output with
  | nil => simp
  | cons item entries ih =>
    rw [foldl_cons, ih]
    simp

theorem toArray_ok (cs : List (List α)) : toArray (ofChunks cs) = cs.flatten := by
  have hrest : ∀ (chunks : List (List α)) (output : List α),
      chunks.foldl appendItems output = output ++ chunks.flatten := by
    intro chunks
    induction chunks with
    | nil => simp
    | cons c chunks ih =>
      intro output
      rw [foldl_cons, ih, appendItems_eq]
      simp
  unfold toArray
  rw [hrest, appendItems_eq]
  cases cs with
  | nil => rfl
  | cons c cs => rfl

theorem foldFrom_ok {σ : Type} (folder : σ → α → σ) (pre post : List (List α)) (count : Int) (state : σ) :
    foldFrom folder (withLength (pre ++ post) count) post.length pre.length state
      = .ok (post.flatten.foldl folder state) := by
  induction post generalizing pre state with
  | nil => rfl
  | cons c post ih =>
    have hcast : (pre.length : Int) + 1 = ((pre ++ [c]).length : Int) := by simp
    have hlist : pre ++ c :: post = (pre ++ [c]) ++ post := by simp
    rw [length_cons, foldFrom, chunkOf_middle, ok_bind, hcast, hlist, ih]
    simp

theorem fold_ok {σ : Type} (h : Good ord key cs) (folder : σ → α → σ) (initial : σ) :
    fold folder initial (ofChunks cs) = .ok (cs.flatten.foldl folder initial) := by
  unfold fold
  rw [chunkTotal_ofChunks h, Int.toNat_natCast]
  exact foldFrom_ok folder [] cs _ initial

theorem ascending_of_sorted (hs : c.Pairwise fun a b => ord.lt (key a) (key b) = true) :
    ascending ord key c = true := by
  induction c with
  | nil => rfl
  | cons a c ih =>
    cases c with
    | nil => rfl
    | cons b c =>
      rw [ascending, rel_of_pairwise_cons hs mem_cons_self, Bool.true_and]
      exact ih hs.tail

theorem boundary_ok (h : Good ord key (pre ++ c :: post)) :
    boundary ord key (ofChunks (pre ++ c :: post)) pre.length c = .ok true := by
  unfold boundary
  rcases eq_nil_or_concat pre with rfl | ⟨pre, p, rfl⟩
  · rfl
  rw [concat_eq_append] at h ⊢
  have hlist : pre ++ [p] ++ c :: post = pre ++ p :: (c :: post) := by simp
  have hcast : ((pre ++ [p]).length : Int) - 1 = (pre.length : Int) := by simp
  obtain ⟨-, -, hfits⟩ := apart_middle.mp (show Apart _ from h.apart)
  obtain ⟨hsp, -, hsc⟩ := sizes_middle.mp (show Sizes _ from h.sizes)
  have hpsize := hsp p (by simp)
  have hsum := hfits.1 p (by simp)
  have hp : (pre ++ [p] ++ c :: post)[pre.length]? = some p := by simp
  have hc : (pre ++ [p] ++ c :: post)[pre.length + 1]? = some c := by simp
  have hplt : p.length - 1 < p.length := by omega
  have hclt : 0 < c.length := by omega
  have hlast : FaultVec.index p ((p.length - 1 : Nat) : Int) = .ok p[p.length - 1] :=
    index_ok (getElem?_eq_getElem hplt)
  have hfirst : FaultVec.index c ((0 : Nat) : Int) = .ok (c.get ⟨0, hclt⟩) :=
    index_ok (by rw [get_natCast]; exact getElem?_eq_getElem hclt)
  rw [Nat.cast_zero] at hfirst
  have hlt := h.lt_of_chunks (Nat.lt_succ_self _) hp hc (getElem_mem hplt) (get_mem c ⟨0, hclt⟩)
  have hpcast : (p.length : Int) - 1 = ((p.length - 1 : Nat) : Int) := by omega
  rw [if_pos (by simp), hcast, hlist, ofChunks, chunkOf_middle, ok_bind]
  simp only
  rw [if_pos (by omega), hpcast, hlast, ok_bind, hfirst, ok_bind, hlt, Bool.and_true]
  have : mergeLimit < (p.length : Int) + c.length := by
    unfold mergeLimit
    omega
  rw [decide_eq_true this]

theorem invariantsFrom_ok (h : Good ord key cs) (pre : List (List α)) (hcs : cs = pre ++ post) (sum : Int) :
    invariantsFrom ord key (ofChunks cs) post.length pre.length (true, sum)
      = .ok (true, sum + post.flatten.length) := by
  induction post generalizing pre sum with
  | nil => simp [invariantsFrom]
  | cons c post ih =>
    subst hcs
    have hcast : (pre.length : Int) + 1 = ((pre ++ [c]).length : Int) := by simp
    have hsize := h.sizes c (by simp)
    have hlarge : (c.length : Int) ≤ maxChunk := by
      unfold maxChunk
      omega
    have hchunk : chunkOf (ofChunks (pre ++ c :: post)) pre.length = .ok c := by
      rw [ofChunks, chunkOf_middle]
    rw [length_cons, invariantsFrom, hchunk, ok_bind]
    simp only
    rw [boundary_ok h, ok_bind, decide_eq_true hsize.1, decide_eq_true hlarge,
      ascending_of_sorted (h.chunk_sorted (by simp)), hcast]
    have := ih (pre ++ [c]) (by simp) (sum + c.length)
    simp only [Bool.and_true]
    rw [this]
    simp
    omega

theorem invariantsHold_ok (h : Good ord key cs) : invariantsHold ord key (ofChunks cs) = .ok true := by
  unfold invariantsHold
  have hstart : (decide (0 < (ofChunks cs).length) || (decide ((ofChunks cs).head.length = 0) &&
      decide ((ofChunks cs).rest.length = 0))) = true := by
    cases cs with
    | nil => rfl
    | cons c cs =>
      have := length_pos_of_sizes h.sizes (by simp)
      rw [length_ofChunks, decide_eq_true (by omega), Bool.true_or]
  simp only [hstart]
  rw [chunkTotal_ofChunks h, Int.toNat_natCast]
  have hfrom := invariantsFrom_ok h [] rfl 0
  rw [length_nil, Nat.cast_zero] at hfrom
  rw [hfrom, ok_bind]
  simp [length_ofChunks]

def natOrder : KeyOrder Nat where
  eq := fun a b => a == b
  lt := fun a b => decide (a < b)

theorem natOrder_lawful : natOrder.Lawful where
  eq_refl a := beq_self_eq_true a
  irrefl a := decide_eq_false (Nat.lt_irrefl a)
  trans a b c hab hbc :=
    decide_eq_true (Nat.lt_trans (of_decide_eq_true hab) (of_decide_eq_true hbc))
  cotrans a b c hab := by
    have := of_decide_eq_true hab
    rcases Nat.lt_or_ge a c with h | h
    · exact .inl (decide_eq_true h)
    · exact .inr (decide_eq_true (by omega))

end Tsuzuri.Chunked
