import Tsuzuri.ChunkedSound
import Tsuzuri.OrderedSet

/-!
# The bulk operations of the ordered set

`union` and `select` are loops over two sorted lists.
-/

namespace Tsuzuri.OrderedSet

open FaultVec Chunked List

variable {κ : Type} {ord : KeyOrder κ}

def Sorted (ord : KeyOrder κ) (keys : List κ) : Prop :=
  keys.Pairwise fun a b => ord.lt a b = true

variable {a b key : κ} {cs ds : List (List κ)} {c xs ys ls rs todo : List κ} {cursor : Cursor}
  {includeEqual : Bool} {s : Walk κ} {order : Int}

theorem same_of_lt (h : ord.lt a b = true) : same ord a b = false ∧ same ord b a = false := by
  simp [same, h]

theorem compareKeys_ok (hl : ord.Lawful) (a b : κ) : (ord.lt a b = true ∧ compareKeys ord a b = .ok (-1)) ∨
    (ord.lt b a = true ∧ compareKeys ord a b = .ok 1) ∨ (same ord a b = true ∧ compareKeys ord a b = .ok 0) := by
  unfold compareKeys
  rw [hl.eq_refl, hl.eq_refl, Bool.and_true, assert_true, ok_bind]
  cases hab : ord.lt a b with
  | true => exact .inl ⟨rfl, rfl⟩
  | false =>
    cases hba : ord.lt b a with
    | true => exact .inr (.inl ⟨rfl, rfl⟩)
    | false => exact .inr (.inr ⟨by simp [same, hab, hba], rfl⟩)

theorem apart_of_bulk (hc : ∀ d ∈ cs, d.length = 384) (hd : ∀ d ∈ ds, d.length = 384) (hpos : 1 ≤ c.length) :
    Apart (cs ++ c :: ds) := by
  refine List.Pairwise.isChain (pairwise_append.mpr ⟨?_, ?_, ?_⟩)
  · exact pairwise_of_forall_mem_list fun a ha b hb => by
      rw [hc a ha, hc b hb]
      omega
  · refine pairwise_cons.mpr ⟨fun b hb => ?_, ?_⟩
    · rw [hd b hb]
      omega
    · exact pairwise_of_forall_mem_list fun a ha b hb => by
        rw [hd a ha, hd b hb]
        omega
  · intro a ha b hb
    rw [hc a ha]
    omega

theorem good_of_bulk (cs : List (List κ)) (hc : ∀ d ∈ cs, d.length = 384) (hd : ∀ d ∈ ds, d.length = 384)
    (hpos : 1 ≤ c.length) (hle : c.length ≤ 384) (hs : Sorted ord (cs ++ c :: ds).flatten) :
    Good ord id (cs ++ c :: ds) := by
  refine ⟨sizes_middle.mpr ⟨fun d h => ?_, fun d h => ?_, hpos, by omega⟩, apart_of_bulk hc hd hpos, hs⟩
  · rw [hc d h]
    omega
  · rw [hd d h]
    omega

theorem good_of_full (hc : ∀ d ∈ cs, d.length = 384) (hs : Sorted ord cs.flatten) : Good ord id cs := by
  refine ⟨fun d h => ?_, List.Pairwise.isChain (pairwise_of_forall_mem_list ?_), hs⟩
  · rw [hc d h]
    omega
  · intro a ha b hb
    rw [hc a ha, hc b hb]
    omega

theorem fromChunks_ok (h : Good ord id cs) : fromChunks cs cs.flatten.length = .ok (ofChunks cs) := by
  unfold fromChunks
  cases cs with
  | nil => rfl
  | cons c cs =>
    have hpos := length_pos_of_sizes h.sizes (by simp)
    have hremove := ChunkVec.removeAt_ok [] cs c
    simp only [nil_append, length_nil, Nat.cast_zero] at hremove
    rw [if_neg (by omega), hremove, ok_bind]
    rfl

theorem chunkList_ok (h : Good ord id cs) : chunkList (ofChunks cs) = .ok cs := by
  unfold chunkList
  cases cs with
  | nil => rfl
  | cons c cs =>
    have hpos := length_pos_of_sizes h.sizes (by simp)
    have hinsert := ChunkVec.insertAt_ok [] cs c
    simp only [nil_append, length_nil, Nat.cast_zero] at hinsert
    rw [if_neg (by rw [length_ofChunks]; omega)]
    exact hinsert

/-! ## Union -/

def Joined (ord : KeyOrder κ) (left right : List κ) (x : κ) : Prop :=
  x ∈ left ∨ (x ∈ right ∧ ∀ y ∈ left, same ord y x = false)

theorem joined_left {left right : List κ} (hr : ∀ y ∈ right, ord.lt y a = true) (x : κ) :
    Joined ord (left ++ [a]) right x ↔ Joined ord left right x ∨ x = a := by
  unfold Joined
  simp only [mem_append, mem_singleton]
  constructor
  · rintro ((h | h) | ⟨h, hn⟩)
    · exact .inl (.inl h)
    · exact .inr h
    · exact .inl (.inr ⟨h, fun y hy => hn y (.inl hy)⟩)
  · rintro ((h | ⟨h, hn⟩) | h)
    · exact .inl (.inl h)
    · refine .inr ⟨h, fun y hy => ?_⟩
      rcases hy with hy | rfl
      · exact hn y hy
      · exact (same_of_lt (hr x h)).2
    · exact .inl (.inr h)

theorem joined_right {left right : List κ} (hle : ∀ y ∈ left, ord.lt y b = true) (x : κ) :
    Joined ord left (right ++ [b]) x ↔ Joined ord left right x ∨ x = b := by
  unfold Joined
  simp only [mem_append, mem_singleton]
  constructor
  · rintro (h | ⟨h | h, hn⟩)
    · exact .inl (.inl h)
    · exact .inl (.inr ⟨h, hn⟩)
    · exact .inr h
  · rintro ((h | ⟨h, hn⟩) | rfl)
    · exact .inl h
    · exact .inr ⟨.inl h, hn⟩
    · exact .inr ⟨.inr rfl, fun y hy => (same_of_lt (hle y hy)).1⟩

theorem joined_drop {left right : List κ} (ha : a ∈ left) (hab : same ord a b = true) (x : κ) :
    Joined ord left (right ++ [b]) x ↔ Joined ord left right x := by
  unfold Joined
  simp only [mem_append, mem_singleton]
  constructor
  · rintro (h | ⟨h | rfl, hn⟩)
    · exact .inl h
    · exact .inr ⟨h, hn⟩
    · rw [hn a ha] at hab
      cases hab
  · rintro (h | ⟨h, hn⟩)
    · exact .inl h
    · exact .inr ⟨.inl h, hn⟩

namespace Merge

def left (s : Merge κ) : List κ := s.leftChunks.flatten ++ s.leftKeys

def right (s : Merge κ) : List κ := s.rightChunks.flatten ++ s.rightKeys

def output (s : Merge κ) : List κ := s.current.reverse ++ s.finished.reverse.flatten

end Merge

/-- The invariant of the loop of `union`. -/
structure Merging (ord : KeyOrder κ) (ls rs : List κ) (s : Merge κ) : Prop where
  leftFull : ∀ c ∈ s.leftChunks, c ≠ []
  rightFull : ∀ c ∈ s.rightChunks, c ≠ []
  finished : ∀ c ∈ s.finished, c.length = 384
  current : s.current.length < 384
  total : s.total = s.output.length
  leftSorted : Sorted ord (s.left ++ s.output)
  rightSorted : Sorted ord (s.right ++ s.output)
  members : ∀ x, Joined ord ls rs x ↔ Joined ord s.left s.right x ∨ x ∈ s.output

theorem refill_ok {chunks : List (List κ)} (keys : List κ) (hfull : ∀ c ∈ chunks, c ≠ []) :
    ∃ chunks' keys', refill chunks keys = (chunks', keys') ∧
      chunks'.flatten ++ keys' = chunks.flatten ++ keys ∧ (∀ c ∈ chunks', c ≠ []) ∧ (keys' = [] → chunks' = []) := by
  unfold refill
  by_cases hk : 0 < keys.length
  · refine ⟨chunks, keys, if_pos hk, rfl, hfull, fun h0 => ?_⟩
    rw [h0] at hk
    simp at hk
  · obtain rfl : keys = [] := length_eq_zero_iff.mp (by omega)
    rw [if_neg hk]
    rcases eq_nil_or_concat chunks with rfl | ⟨chunks, c, rfl⟩
    · exact ⟨[], [], rfl, rfl, by simp, fun _ => rfl⟩
    · rw [concat_eq_append] at hfull ⊢
      refine ⟨chunks, c, by simp [pop], by simp, fun d hd => hfull d (by simp [hd]), fun h0 => ?_⟩
      exact absurd h0 (hfull c (by simp))

theorem flushReversed_ok {finished : List (List κ)} {current : List κ}
    (hf : ∀ c ∈ finished, c.length = 384) (hc : current.length ≤ 384) :
    ∃ finished' current', flushReversed finished current = .ok (finished', current') ∧
      (∀ c ∈ finished', c.length = 384) ∧ current'.length < 384 ∧
      current'.reverse ++ finished'.reverse.flatten = current.reverse ++ finished.reverse.flatten := by
  unfold flushReversed
  by_cases hfull : current.length = 384
  · refine ⟨finished ++ [current.reverse], [], ?_, ?_, by simp, by simp⟩
    · rw [if_pos (by rw [hfull]; rfl), ChunkVec.reverse_ok, ok_bind]
      rfl
    · intro c hc
      rcases mem_append.mp hc with hc | hc
      · exact hf c hc
      · rw [mem_singleton.mp hc, length_reverse, hfull]
  · refine ⟨finished, current, if_neg ?_, hf, by omega, rfl⟩
    unfold bulkFill
    omega

theorem takeLast_ok (hl : ord.Lawful) (keys current : List κ) (key : κ) :
    takeLast ord (keys ++ [key]) current = .ok (keys, current ++ [key]) := by
  unfold takeLast pop
  simp only [dropLast_concat, getLast?_concat]
  rw [force_some, ok_bind, hl.eq_refl, assert_true, ok_bind]

theorem Sorted.last_above (h : Sorted ord (xs ++ [a] ++ ys)) :
    (∀ y ∈ xs, ord.lt y a = true) ∧ ∀ y ∈ ys, ord.lt a y = true := by
  obtain ⟨hxs, -, hys⟩ := pairwise_append.mp h
  exact ⟨fun y hy => (pairwise_append.mp hxs).2.2 y hy a (by simp), fun y hy => hys a (by simp) y hy⟩

theorem Sorted.insert (hl : ord.Lawful) (h : Sorted ord (xs ++ ys)) (hxs : ∀ y ∈ xs, ord.lt y a = true)
    (hys : ∀ y ∈ ys, ord.lt a y = true) : Sorted ord (xs ++ a :: ys) := by
  obtain ⟨h1, h2, -⟩ := pairwise_append.mp h
  refine pairwise_append.mpr ⟨h1, pairwise_cons.mpr ⟨hys, h2⟩, fun x hx y hy => ?_⟩
  rcases mem_cons.mp hy with rfl | hy
  · exact hxs x hx
  · exact hl.trans _ _ _ (hxs x hx) (hys y hy)

theorem below_of_last (hl : ord.Lawful) (hxs : ∀ y ∈ xs, ord.lt y a = true) (hab : ord.lt a b = true) :
    ∀ y ∈ xs ++ [a], ord.lt y b = true := by
  intro y hy
  rcases mem_append.mp hy with hy | hy
  · exact hl.trans _ _ _ (hxs y hy) hab
  · rw [mem_singleton.mp hy]
    exact hab

theorem takeGreater_ok (hl : ord.Lawful) {ls rs output leftKeys rightKeys current : List κ}
    (hls : Sorted ord (ls ++ leftKeys ++ output)) (hrs : Sorted ord (rs ++ rightKeys ++ output))
    (hl0 : leftKeys = [] → ls = []) (hr0 : rightKeys = [] → rs = [])
    (hne : ¬ (leftKeys.length = 0 ∧ rightKeys.length = 0)) :
    ∃ order leftKeys' rightKeys₁ rightKeys' key, lastOrder ord leftKeys rightKeys = .ok order ∧
      takeGreater ord order leftKeys rightKeys current = .ok (leftKeys', rightKeys₁, current ++ [key]) ∧
      (if order = 0 then (pop rightKeys₁).1 else rightKeys₁) = rightKeys' ∧
      Sorted ord (ls ++ leftKeys' ++ key :: output) ∧ Sorted ord (rs ++ rightKeys' ++ key :: output) ∧
      leftKeys'.length + rightKeys'.length < leftKeys.length + rightKeys.length ∧
      ∀ x, Joined ord (ls ++ leftKeys) (rs ++ rightKeys) x ↔
        Joined ord (ls ++ leftKeys') (rs ++ rightKeys') x ∨ x = key := by
  unfold lastOrder takeGreater
  rcases eq_nil_or_concat leftKeys with rfl | ⟨lks, a, rfl⟩
  · -- only the right list has keys
    rcases eq_nil_or_concat rightKeys with rfl | ⟨rks, b, rfl⟩
    · exact absurd ⟨rfl, rfl⟩ hne
    rw [concat_eq_append] at hrs ⊢
    rw [← append_assoc] at hrs
    obtain ⟨hbelow, habove⟩ := hrs.last_above
    obtain rfl := hl0 rfl
    refine ⟨-1, [], rks, rks, b, rfl, ?_, rfl, ?_, ?_, by simp, fun x => ?_⟩
    · rw [if_neg (by omega), takeLast_ok hl, ok_bind]
    · exact Sorted.insert hl hls (by simp) habove
    · simpa using hrs
    · rw [← append_assoc, joined_right (by simp)]
  rw [concat_eq_append] at hls ⊢
  rw [← append_assoc] at hls
  obtain ⟨habelow, haabove⟩ := hls.last_above
  rw [if_neg (by simp)]
  rcases eq_nil_or_concat rightKeys with rfl | ⟨rks, b, rfl⟩
  · -- only the left list has keys
    obtain rfl := hr0 rfl
    refine ⟨1, lks, [], [], a, rfl, ?_, rfl, ?_, ?_, by simp, fun x => ?_⟩
    · rw [if_pos (by omega), takeLast_ok hl, ok_bind]
    · simpa using hls
    · exact Sorted.insert hl hrs (by simp) haabove
    · rw [← append_assoc, joined_left (by simp)]
  rw [concat_eq_append] at hrs ⊢
  rw [← append_assoc] at hrs
  obtain ⟨hbbelow, hbabove⟩ := hrs.last_above
  have hlast : ∀ (keys : List κ) (k : κ), FaultVec.index (keys ++ [k]) (((keys ++ [k]).length : Int) - 1) = .ok k := by
    intro keys k
    have hcast : ((keys ++ [k]).length : Int) - 1 = (keys.length : Int) := by simp
    rw [hcast]
    exact index_ok (by rw [get_natCast]; exact getElem?_middle keys k [])
  rw [if_neg (by simp), hlast, ok_bind, hlast, ok_bind]
  have hlsplit : ls ++ (lks ++ [a]) = ls ++ lks ++ [a] := by simp
  have hrsplit : rs ++ (rks ++ [b]) = rs ++ rks ++ [b] := by simp
  rcases compareKeys_ok hl a b with ⟨hab, hcmp⟩ | ⟨hba, hcmp⟩ | ⟨hsame, hcmp⟩
  · have hle := below_of_last hl habelow hab
    refine ⟨-1, lks ++ [a], rks, rks, b, hcmp, ?_, rfl, ?_, ?_, by simp, fun x => ?_⟩
    · rw [if_neg (by omega), takeLast_ok hl, ok_bind]
    · rw [hlsplit]
      exact Sorted.insert hl hls hle hbabove
    · simpa using hrs
    · rw [hrsplit, hlsplit, joined_right hle]
  · have hle := below_of_last hl hbbelow hba
    refine ⟨1, lks, rks ++ [b], rks ++ [b], a, hcmp, ?_, rfl, ?_, ?_, by simp, fun x => ?_⟩
    · rw [if_pos (by omega), takeLast_ok hl, ok_bind]
    · simpa using hls
    · rw [hrsplit]
      exact Sorted.insert hl hrs hle haabove
    · rw [hlsplit, hrsplit, joined_left hle]
  · -- the same key on both sides: the right one is dropped
    have hbelow : ∀ y ∈ rs ++ rks, ord.lt y a = true := by
      intro y hy
      rcases hl.cotrans _ _ a (hbbelow y hy) with h | h
      · exact h
      · simp [same, h] at hsame
    refine ⟨0, lks, rks ++ [b], rks, a, hcmp, ?_, by simp [pop], ?_, ?_, by simp; omega, fun x => ?_⟩
    · rw [if_pos (by omega), takeLast_ok hl, ok_bind]
    · simpa using hls
    · refine Sorted.insert hl ?_ hbelow haabove
      exact hrs.sublist (by simp)
    · rw [hrsplit, joined_drop (a := a) (by simp) hsame, hlsplit, joined_left hbelow]

theorem unionStep_ok (hl : ord.Lawful) {s : Merge κ} (h : Merging ord ls rs s) :
    (∃ s', unionStep ord s = .ok (.go s') ∧ Merging ord ls rs s' ∧
      s'.left.length + s'.right.length < s.left.length + s.right.length) ∨
    (∃ s', unionStep ord s = .ok (.leave s') ∧ Merging ord ls rs s' ∧ s'.left = [] ∧ s'.right = []) := by
  obtain ⟨lcs, lks, hlrefill, hlflat, hlfull, hl0⟩ := refill_ok s.leftKeys h.leftFull
  obtain ⟨rcs, rks, hrrefill, hrflat, hrfull, hr0⟩ := refill_ok s.rightKeys h.rightFull
  have hlsorted := h.leftSorted
  have hrsorted := h.rightSorted
  have hmembers := h.members
  unfold Merge.left at hlsorted hmembers
  unfold Merge.right at hrsorted hmembers
  rw [← hlflat] at hlsorted hmembers
  rw [← hrflat] at hrsorted hmembers
  unfold unionStep
  rw [hlrefill, hrrefill]
  simp only
  by_cases hend : lks.length = 0 ∧ rks.length = 0
  · right
    obtain rfl := length_eq_zero_iff.mp hend.1
    obtain rfl := length_eq_zero_iff.mp hend.2
    obtain rfl := hl0 rfl
    obtain rfl := hr0 rfl
    rw [if_pos hend]
    exact ⟨_, rfl, ⟨by simp, by simp, h.finished, h.current, h.total, hlsorted, hrsorted, hmembers⟩, rfl, rfl⟩
  · left
    rw [if_neg hend]
    obtain ⟨order, lks', rks₁, rks', key, horder, htake, hdrop, hls', hrs', hsize, hmem⟩ :=
      @takeGreater_ok _ _ hl lcs.flatten rcs.flatten s.output lks rks s.current hlsorted hrsorted
        (fun h0 => by rw [hl0 h0]; rfl) (fun h0 => by rw [hr0 h0]; rfl) hend
    have hcurrent := h.current
    obtain ⟨finished, current, hflush, hfinished, hcur, hout⟩ :=
      @flushReversed_ok _ s.finished (s.current ++ [key]) h.finished (by simp; omega)
    have hout' : current.reverse ++ finished.reverse.flatten = key :: s.output := by
      rw [hout]
      simp [Merge.output]
    rw [horder, ok_bind, htake, ok_bind]
    simp only
    rw [hdrop, hflush, ok_bind]
    refine ⟨_, rfl, ⟨hlfull, hrfull, hfinished, hcur, ?_, ?_, ?_, fun x => ?_⟩, ?_⟩
    · simp only [Merge.output]
      rw [hout', h.total]
      simp
    · simp only [Merge.output, Merge.left]
      rw [hout']
      exact hls'
    · simp only [Merge.output, Merge.right]
      rw [hout']
      exact hrs'
    · simp only [Merge.output, Merge.left, Merge.right]
      rw [hmembers x, hmem x, hout', mem_cons, or_assoc]
    · have h1 := congrArg List.length hlflat
      have h2 := congrArg List.length hrflat
      simp only [length_append] at h1 h2
      simp only [Merge.left, Merge.right, length_append]
      omega

theorem finishReversed_ok {finished : List (List κ)} {current : List κ}
    (hf : ∀ c ∈ finished, c.length = 384) (hc : current.length < 384)
    (hs : Sorted ord (current.reverse ++ finished.reverse.flatten)) :
    ∃ chunks, finishReversed finished current = .ok chunks ∧ Good ord id chunks.reverse ∧
      chunks.reverse.flatten = current.reverse ++ finished.reverse.flatten := by
  have hrev : ∀ c ∈ finished.reverse, c.length = 384 := fun c h => hf c (mem_reverse.mp h)
  unfold finishReversed
  by_cases hpos : 0 < current.length
  · refine ⟨finished ++ [current.reverse], ?_, ?_, by simp⟩
    · rw [if_pos hpos, ChunkVec.reverse_ok, ok_bind]
    · rw [reverse_append, reverse_singleton, singleton_append]
      refine good_of_bulk [] (by simp) hrev ?_ ?_ (by simpa using hs)
      · rw [length_reverse]
        omega
      · rw [length_reverse]
        omega
  · obtain rfl : current = [] := length_eq_zero_iff.mp (by omega)
    exact ⟨finished, if_neg hpos, good_of_full hrev hs, rfl⟩

theorem union_ok (hl : ord.Lawful) (hc : Good ord id cs) (hd : Good ord id ds)
    (hfits : ((cs.flatten.length + ds.flatten.length : Nat) : Int) ≤ i64Max) :
    ∃ es, union ord (ofChunks cs) (ofChunks ds) = .ok (ofChunks es) ∧ Good ord id es ∧
      ∀ x, x ∈ es.flatten ↔ Joined ord cs.flatten ds.flatten x := by
  have hfull : ∀ {es : List (List κ)}, Good ord id es → ∀ c ∈ es, c ≠ [] := by
    intro es he c hce h0
    have := (he.sizes c hce).1
    rw [h0] at this
    simp at this
  have hloop := @loop_ok _ _ (unionStep ord) (Merging ord cs.flatten ds.flatten)
    (fun s => Merging ord cs.flatten ds.flatten s ∧ s.left = [] ∧ s.right = [])
    (fun s => s.left.length + s.right.length) (fun s hs => unionStep_ok hl hs)
    (((cs.flatten.length + ds.flatten.length : Int)).toNat + 1)
    { leftChunks := cs, rightChunks := ds, leftKeys := [], rightKeys := [], finished := [],
      current := [], total := 0 }
    ⟨hfull hc, hfull hd, by simp, by simp, rfl, by simpa [Sorted, Merge.left, Merge.output] using hc.sorted,
      by simpa [Sorted, Merge.right, Merge.output] using hd.sorted,
      fun x => by simp [Merge.left, Merge.right, Merge.output]⟩
    (by simp only [Merge.left, Merge.right, append_nil]; omega)
  obtain ⟨s, hrun, hs, hleft, hright⟩ := hloop
  have hsorted : Sorted ord s.output := (pairwise_append.mp hs.leftSorted).2.1
  obtain ⟨chunks, hfinish, hgood, hflat⟩ := finishReversed_ok hs.finished hs.current hsorted
  refine ⟨chunks.reverse, ?_, hgood, fun x => ?_⟩
  · have hassert : assert (decide ((ofChunks cs).length ≤ i64Max - (ofChunks ds).length)) = .ok () := by
      rw [decide_eq_true (by rw [length_ofChunks, length_ofChunks]; omega), assert_true]
    unfold union
    simp only
    rw [hassert, ok_bind, chunkList_ok hc, ok_bind, chunkList_ok hd, ok_bind, length_ofChunks,
      length_ofChunks, withCapacity_ok (by unfold bulkFill; split <;> omega), ok_bind, hrun, ok_bind,
      hfinish, ok_bind, ChunkVec.reverse_ok, ok_bind, hs.total]
    rw [show s.output = chunks.reverse.flatten from hflat.symm]
    exact fromChunks_ok hgood
  · rw [hflat, hs.members x, hleft, hright]
    simp [Joined, Merge.output]

/-- The cursor stands before the keys `todo`, at the first of them when there is one. -/
structure CursorAt (cs : List (List κ)) (cursor : Cursor) (todo : List κ) : Prop where
  index : cursor.index + todo.length = cs.flatten.length
  place : todo ≠ [] → ∃ pre post l r, cs = pre ++ (l ++ r) :: post ∧
    cursor.chunk = pre.length ∧ cursor.offset = l.length ∧ r ≠ [] ∧ todo = r ++ post.flatten

theorem cursorAt_start (h : Good ord id cs) : CursorAt cs ⟨0, 0, 0⟩ cs.flatten := by
  refine ⟨by simp, fun hne => ?_⟩
  cases cs with
  | nil => exact absurd rfl hne
  | cons c cs =>
    refine ⟨[], cs, [], c, rfl, rfl, rfl, fun h0 => ?_, rfl⟩
    have := (h.sizes c mem_cons_self).1
    rw [h0] at this
    simp at this

theorem CursorAt.read (h : CursorAt cs cursor (key :: todo)) : ∃ keys, chunkOf (ofChunks cs) cursor.chunk = .ok keys ∧
      FaultVec.index keys cursor.offset = .ok key := by
  obtain ⟨pre, post, l, r, rfl, hchunk, hoffset, hr, htodo⟩ := h.place (by simp)
  cases r with
  | nil => exact absurd rfl hr
  | cons y r =>
    obtain ⟨rfl, -⟩ := List.cons.inj htodo
    refine ⟨l ++ key :: r, ?_, ?_⟩
    · rw [hchunk, ofChunks, chunkOf_middle]
    · rw [hoffset]
      exact index_ok (by rw [get_natCast]; exact getElem?_middle l key r)

theorem chunkSize_eq (set : Chunked κ) (chunk : Int) :
    chunkSize set chunk = (chunkOf set chunk >>= fun keys => .ok (keys.length : Int)) := by
  unfold chunkSize chunkOf
  split
  · rfl
  · rfl

theorem keyAt_eq (set : Chunked κ) (chunk offset : Int) :
    keyAt set chunk offset = (chunkOf set chunk >>= fun keys => FaultVec.index keys offset) := by
  unfold keyAt chunkOf
  split
  · rfl
  · rfl

theorem CursorAt.keyAt (h : CursorAt cs cursor (key :: todo)) :
    keyAt (ofChunks cs) cursor.chunk cursor.offset = .ok key := by
  obtain ⟨keys, hchunk, hindex⟩ := h.read
  rw [keyAt_eq, hchunk, ok_bind, hindex]

theorem CursorAt.advance (hgood : Good ord id cs) (h : CursorAt cs cursor (key :: todo)) :
    ∃ cursor', advance (ofChunks cs) cursor = .ok cursor' ∧ CursorAt cs cursor' todo ∧
      cursor'.index = cursor.index + 1 := by
  have hindex := h.index
  rw [length_cons] at hindex
  obtain ⟨pre, post, l, r, hcs, hchunk, hoffset, hr, htodo⟩ := h.place (by simp)
  cases r with
  | nil => exact absurd rfl hr
  | cons y r =>
    obtain ⟨rfl, htail⟩ := List.cons.inj htodo
    have hsize : chunkSize (ofChunks cs) cursor.chunk = .ok ((l ++ key :: r).length : Int) := by
      rw [chunkSize_eq, hchunk, hcs, ofChunks, chunkOf_middle, ok_bind]
    unfold OrderedSet.advance
    rw [hsize, ok_bind]
    by_cases hmore : r = []
    · -- behind the last key of the chunk
      subst hmore
      rw [if_neg (by rw [hoffset]; simp)]
      refine ⟨_, rfl, ⟨by simp only; omega, fun hne => ?_⟩, rfl⟩
      cases post with
      | nil => exact absurd htail hne
      | cons q post =>
        refine ⟨pre ++ [l ++ [key]], post, [], q, by simp [hcs], by simp [hchunk], rfl, fun h0 => ?_, htail⟩
        have := (hgood.sizes q (by simp [hcs])).1
        rw [h0] at this
        simp at this
    · have hpos := length_pos_iff.mpr hmore
      rw [if_pos (by rw [hoffset]; simp; omega)]
      refine ⟨_, rfl, ⟨by simp only; omega, fun _ => ?_⟩, rfl⟩
      exact ⟨pre, post, l ++ [key], r, by simp [hcs], hchunk, by simp [hoffset], hmore, htail⟩

theorem CursorAt.advanceWithin (hgood : Good ord id cs) (h : CursorAt cs cursor (key :: todo)) :
    ∃ cursor', advanceWithin (ofChunks cs) cursor = .ok cursor' ∧ CursorAt cs cursor' todo ∧
      cursor'.index = cursor.index + 1 := by
  have hindex := h.index
  rw [length_cons] at hindex
  unfold OrderedSet.advanceWithin
  by_cases hmore : cursor.index + 1 < (ofChunks cs).length
  · rw [if_pos hmore]
    exact h.advance hgood
  · rw [if_neg hmore]
    rw [length_ofChunks] at hmore
    obtain rfl : todo = [] := length_eq_zero_iff.mp (by omega)
    exact ⟨_, rfl, ⟨by simp only [length_nil]; omega, fun hne => absurd rfl hne⟩, rfl⟩

/-! ## Intersection and difference -/

/-- The members of an intersection or, with `includeEqual` false, of a difference. -/
def Picked (ord : KeyOrder κ) (includeEqual : Bool) (left right : List κ) (x : κ) : Prop :=
  x ∈ left ∧ ((∃ y ∈ right, same ord x y = true) ↔ includeEqual = true)

theorem picked_left {left right : List κ} (x : κ) : Picked ord includeEqual (a :: left) right x ↔
      (x = a ∧ Picked ord includeEqual [a] right a) ∨ Picked ord includeEqual left right x := by
  unfold Picked
  simp only [mem_cons, not_mem_nil, or_false, true_and]
  constructor
  · rintro ⟨rfl | h, hp⟩
    · exact .inl ⟨rfl, hp⟩
    · exact .inr ⟨h, hp⟩
  · rintro (⟨rfl, hp⟩ | ⟨h, hp⟩)
    · exact ⟨.inl rfl, hp⟩
    · exact ⟨.inr h, hp⟩

theorem picked_drop {left right : List κ} (hb : ∀ y ∈ left, ord.lt b y = true) (x : κ) :
    Picked ord includeEqual left (b :: right) x ↔ Picked ord includeEqual left right x := by
  unfold Picked
  refine and_congr_right fun hx => iff_congr ?_ Iff.rfl
  constructor
  · rintro ⟨y, hy, hs⟩
    rcases mem_cons.mp hy with rfl | hy
    · rw [(same_of_lt (hb x hx)).2] at hs
      cases hs
    · exact ⟨y, hy, hs⟩
  · rintro ⟨y, hy, hs⟩
    exact ⟨y, mem_cons_of_mem _ hy, hs⟩

def Walk.output (s : Walk κ) : List κ := s.finished.flatten ++ s.current

/-- The invariant of the loop of `select`. -/
structure Walking (ord : KeyOrder κ) (includeEqual : Bool) (cs ds : List (List κ)) (s : Walk κ)
    (ls rs : List κ) : Prop where
  left : CursorAt cs s.left ls
  right : CursorAt ds s.right rs
  finished : ∀ c ∈ s.finished, c.length = 384
  current : s.current.length < 384
  total : s.total = s.output.length
  leftSorted : Sorted ord (s.output ++ ls)
  rightSorted : Sorted ord rs
  members : ∀ x, Picked ord includeEqual cs.flatten ds.flatten x ↔ x ∈ s.output ∨ Picked ord includeEqual ls rs x

theorem flush_ok {finished : List (List κ)} {current : List κ}
    (hf : ∀ c ∈ finished, c.length = 384) (hc : current.length ≤ 384) :
    ∃ finished' current', flush finished current = .ok (finished', current') ∧
      (∀ c ∈ finished', c.length = 384) ∧ current'.length < 384 ∧
      finished'.flatten ++ current' = finished.flatten ++ current := by
  unfold flush
  by_cases hfull : current.length = 384
  · refine ⟨finished ++ [current], [], ?_, ?_, by simp, by simp⟩
    · rw [if_pos (by rw [hfull]; rfl)]
      rfl
    · intro c hc
      rcases mem_append.mp hc with hc | hc
      · exact hf c hc
      · rw [mem_singleton.mp hc, hfull]
  · refine ⟨finished, current, if_neg ?_, hf, by omega, rfl⟩
    unfold bulkFill
    omega

theorem passLeft_ok (hc : Good ord id cs) (h : Walking ord includeEqual cs ds s (a :: ls) rs) (order : Int)
    (horder : order ≤ 0) (hpick : Picked ord includeEqual [a] rs a ↔ decide (order = 0) = includeEqual) :
    ∃ s', passLeft (ofChunks cs) includeEqual order s = .ok s' ∧
      Walking ord includeEqual cs ds s' ls rs ∧ s'.left.index = s.left.index + 1 ∧ s'.right = s.right := by
  obtain ⟨cursor, hadvance, hcursor, hindex⟩ := h.left.advance hc
  unfold passLeft
  rw [if_pos horder]
  by_cases hkeep : decide (order = 0) = includeEqual
  · have hcurrent := h.current
    obtain ⟨finished, current, hflush, hfinished, hcur, hout⟩ :=
      @flush_ok _ s.finished (s.current ++ [a]) h.finished (by simp; omega)
    have hout' : finished.flatten ++ current = s.output ++ [a] := by
      rw [hout, Walk.output, append_assoc]
    have hrun : keep (ofChunks cs) s = .ok { s with finished, current, total := s.total + 1 } := by
      unfold keep
      rw [h.left.keyAt, ok_bind, hflush, ok_bind]
    rw [if_pos hkeep, hrun, ok_bind]
    simp only
    rw [hadvance, ok_bind]
    refine ⟨_, rfl, ⟨hcursor, h.right, hfinished, hcur, ?_, ?_, h.rightSorted, fun x => ?_⟩, hindex, rfl⟩
    · simp only [Walk.output]
      rw [hout', h.total]
      simp
    · simp only [Walk.output]
      rw [hout']
      simpa using h.leftSorted
    · simp only [Walk.output]
      rw [h.members x, picked_left, hout', mem_append, mem_singleton]
      have := hpick.mpr hkeep
      tauto
  · rw [if_neg hkeep, ok_bind]
    simp only
    rw [hadvance, ok_bind]
    refine ⟨_, rfl, ⟨hcursor, h.right, h.finished, h.current, h.total, ?_, h.rightSorted, fun x => ?_⟩, hindex, rfl⟩
    · exact h.leftSorted.sublist (List.Sublist.append_left (sublist_cons_self a ls) _)
    · rw [h.members x, picked_left]
      have : ¬ Picked ord includeEqual [a] rs a := fun hp => hkeep (hpick.mp hp)
      simp only [this, and_false, false_or]
      rfl

theorem passRight_ok (hd : Good ord id ds) (h : Walking ord includeEqual cs ds s ls (b :: rs)) (order : Int)
    (horder : 0 ≤ order) (hb : ∀ y ∈ ls, ord.lt b y = true) :
    ∃ s', passRight (ofChunks ds) order s = .ok s' ∧ Walking ord includeEqual cs ds s' ls rs ∧ s'.left = s.left ∧
      s'.right.index = s.right.index + 1 := by
  obtain ⟨cursor, hadvance, hcursor, hindex⟩ := h.right.advanceWithin hd
  unfold passRight
  rw [if_pos horder, hadvance, ok_bind]
  refine ⟨_, rfl, ⟨h.left, hcursor, h.finished, h.current, h.total, h.leftSorted,
    h.rightSorted.tail, fun x => ?_⟩, rfl, hindex⟩
  rw [h.members x, picked_drop hb]
  rfl

theorem picked_below (rs : List κ) (hrs : ∀ y ∈ rs, ord.lt a y = true) :
    Picked ord includeEqual [a] rs a ↔ decide ((-1 : Int) = 0) = includeEqual := by
  have hnone : ¬ ∃ y ∈ rs, same ord a y = true := by
    rintro ⟨y, hy, hs⟩
    rw [(same_of_lt (hrs y hy)).1] at hs
    cases hs
  unfold Picked
  cases includeEqual with
  | true => simpa using hnone
  | false => simpa using hnone

theorem picked_same (hb : b ∈ rs) (hab : same ord a b = true) :
    Picked ord includeEqual [a] rs a ↔ decide ((0 : Int) = 0) = includeEqual := by
  have hsome : ∃ y ∈ rs, same ord a y = true := ⟨b, hb, hab⟩
  unfold Picked
  cases includeEqual with
  | true => simpa using hsome
  | false => simpa using hsome

theorem passRight_below (horder : order < 0) (right : Chunked κ) (s : Walk κ) : passRight right order s = .ok s :=
  if_neg (by omega)

theorem passLeft_above (horder : 0 < order) (left : Chunked κ) (includeEqual : Bool) (s : Walk κ) :
    passLeft left includeEqual order s = .ok s :=
  if_neg (by omega)

theorem selectStep_ok (hl : ord.Lawful) (hc : Good ord id cs) (hd : Good ord id ds)
    (h : Walking ord includeEqual cs ds s ls rs) :
    (∃ s' ls' rs', selectStep ord (ofChunks cs) (ofChunks ds) includeEqual s = .ok (.go s') ∧
      Walking ord includeEqual cs ds s' ls' rs' ∧ s.left.index + s.right.index < s'.left.index + s'.right.index) ∨
    (selectStep ord (ofChunks cs) (ofChunks ds) includeEqual s = .ok (.leave s) ∧ ls = []) := by
  have hindex := h.left.index
  unfold selectStep
  rw [length_ofChunks]
  cases ls with
  | nil =>
    right
    rw [length_nil] at hindex
    exact ⟨if_neg (by omega), rfl⟩
  | cons a ls =>
    left
    rw [length_cons] at hindex
    rw [if_pos (by omega)]
    obtain ⟨keys, hchunk, hkey⟩ := h.left.read
    have hrindex := h.right.index
    have habove : ∀ y ∈ ls, ord.lt a y = true :=
      fun y hy => rel_of_pairwise_cons (pairwise_append.mp h.leftSorted).2.1 hy
    have hread : selectOrder ord (ofChunks cs) (ofChunks ds) s
        = (if (ofChunks ds).length ≤ s.right.index then .ok (-1) else do
            let other ← chunkOf (ofChunks ds) s.right.chunk
            let otherKey ← FaultVec.index other s.right.offset
            compareKeys ord a otherKey) := by
      unfold selectOrder
      rw [hchunk, ok_bind, hkey, ok_bind, hl.eq_refl, assert_true, ok_bind]
    rw [length_ofChunks] at hread
    cases rs with
    | nil =>
      -- the right set has run out
      rw [length_nil] at hrindex
      rw [if_pos (by omega)] at hread
      obtain ⟨s', hpass, hwalk, hleft, hright⟩ :=
        passLeft_ok hc h (-1) (by omega) (picked_below [] (by simp))
      refine ⟨s', ls, [], ?_, hwalk, by rw [hleft, hright]; omega⟩
      rw [hread, ok_bind, hpass, ok_bind, passRight_below (by omega), ok_bind]
    | cons b rs =>
      rw [length_cons] at hrindex
      obtain ⟨others, hochunk, hokey⟩ := h.right.read
      rw [if_neg (by omega), hochunk, ok_bind, hokey, ok_bind] at hread
      rcases compareKeys_ok hl a b with ⟨hab, hcmp⟩ | ⟨hba, hcmp⟩ | ⟨hsame, hcmp⟩
      · -- the left key is not in the right set
        have hbelow : ∀ y ∈ b :: rs, ord.lt a y = true := by
          intro y hy
          rcases mem_cons.mp hy with rfl | hy
          · exact hab
          · exact hl.trans _ _ _ hab (rel_of_pairwise_cons h.rightSorted hy)
        obtain ⟨s', hpass, hwalk, hleft, hright⟩ :=
          passLeft_ok hc h (-1) (by omega) (picked_below _ hbelow)
        refine ⟨s', ls, b :: rs, ?_, hwalk, by rw [hleft, hright]; omega⟩
        rw [hread, hcmp, ok_bind, hpass, ok_bind, passRight_below (by omega), ok_bind]
      · -- the right key is not in the left set
        have hbelow : ∀ y ∈ a :: ls, ord.lt b y = true := by
          intro y hy
          rcases mem_cons.mp hy with rfl | hy
          · exact hba
          · exact hl.trans _ _ _ hba (habove y hy)
        obtain ⟨s', hpass, hwalk, hleft, hright⟩ := passRight_ok hd h 1 (by omega) hbelow
        refine ⟨s', a :: ls, rs, ?_, hwalk, by rw [hleft, hright]; omega⟩
        rw [hread, hcmp, ok_bind, passLeft_above (by omega), ok_bind, hpass, ok_bind]
      · -- a key of both sets
        obtain ⟨s₁, hpass₁, hwalk₁, hleft₁, hright₁⟩ :=
          passLeft_ok hc h 0 (by omega) (picked_same mem_cons_self hsame)
        have hbelow : ∀ y ∈ ls, ord.lt b y = true := by
          intro y hy
          rcases hl.cotrans _ _ b (habove y hy) with h' | h'
          · simp [same, h'] at hsame
          · exact h'
        obtain ⟨s₂, hpass₂, hwalk₂, hleft₂, hright₂⟩ :=
          passRight_ok hd hwalk₁ 0 (by omega) hbelow
        refine ⟨s₂, ls, rs, ?_, hwalk₂, by rw [hleft₂, hright₂, hleft₁, hright₁]; omega⟩
        rw [hread, hcmp, ok_bind, hpass₁, ok_bind, hpass₂, ok_bind]

theorem select_ok (hl : ord.Lawful) (includeEqual : Bool) (hc : Good ord id cs) (hd : Good ord id ds) :
    ∃ es, select ord (ofChunks cs) (ofChunks ds) includeEqual = .ok (ofChunks es) ∧
      Good ord id es ∧ ∀ x, x ∈ es.flatten ↔ Picked ord includeEqual cs.flatten ds.flatten x := by
  have hloop := @loop_ok _ _ (selectStep ord (ofChunks cs) (ofChunks ds) includeEqual)
    (fun s => ∃ ls rs, Walking ord includeEqual cs ds s ls rs)
    (fun s => ∃ rs, Walking ord includeEqual cs ds s [] rs)
    (fun s => (cs.flatten.length + ds.flatten.length - (s.left.index + s.right.index)).toNat)
    ?_ ((cs.flatten.length + ds.flatten.length : Int).toNat + 1)
    { left := ⟨0, 0, 0⟩, right := ⟨0, 0, 0⟩, finished := [], current := [], total := 0 }
    ⟨cs.flatten, ds.flatten, cursorAt_start hc, cursorAt_start hd, by simp, by simp, rfl,
      hc.sorted, hd.sorted, fun x => by simp [Walk.output]⟩ (by simp)
  · obtain ⟨s, hrun, rs, hs⟩ := hloop
    have hsorted : Sorted ord s.output := by simpa using hs.leftSorted
    have hlen := hs.current
    have hmem : ∀ x, x ∈ s.output ↔ Picked ord includeEqual cs.flatten ds.flatten x := by
      intro x
      rw [hs.members x]
      simp [Picked]
    have hcapacity : ∀ n : Int, 0 ≤ n →
        (withCapacity (if n < bulkFill then n else bulkFill) : Exec (List κ)) = .ok [] := by
      intro n hn
      exact withCapacity_ok (by unfold bulkFill; split <;> omega)
    have hcount : ∀ gs : List (List κ), 0 ≤ (ofChunks gs).length := fun gs => by
      rw [length_ofChunks]
      omega
    have hcs := hcount cs
    have hds := hcount ds
    unfold select
    simp only
    rw [hcapacity _ (by split <;> omega), ok_bind, length_ofChunks, length_ofChunks, hrun, ok_bind, hs.total]
    by_cases hpos : 0 < s.current.length
    · have hflat : (s.finished ++ [s.current]).flatten = s.output := by simp [Walk.output]
      have hgood : Good ord id (s.finished ++ [s.current]) :=
        good_of_bulk s.finished hs.finished (by simp) hpos (by omega) (hflat ▸ hsorted)
      refine ⟨s.finished ++ [s.current], ?_, hgood, fun x => by rw [hflat, hmem]⟩
      rw [if_pos hpos, ← hflat]
      exact fromChunks_ok hgood
    · have hcur : s.current = [] := length_eq_zero_iff.mp (by omega)
      have hflat : s.finished.flatten = s.output := by simp [Walk.output, hcur]
      have hgood : Good ord id s.finished := good_of_full hs.finished (hflat ▸ hsorted)
      refine ⟨s.finished, ?_, hgood, fun x => by rw [hflat, hmem]⟩
      rw [if_neg hpos, ← hflat]
      exact fromChunks_ok hgood
  · rintro s ⟨ls, rs, hs⟩
    rcases selectStep_ok hl hc hd hs with ⟨s', ls', rs', hrun, hs', hlt⟩ | ⟨hrun, rfl⟩
    · left
      have h1 := hs'.left.index
      have h2 := hs'.right.index
      exact ⟨s', hrun, ⟨ls', rs', hs'⟩, by omega⟩
    · exact .inr ⟨s, hrun, rs, hs⟩

/-! ## Every reachable set -/

namespace SetExpr

def meaning (ord : KeyOrder κ) : SetExpr κ → Set κ
  | .empty => ∅
  | .singleton key => {key}
  | .insert key keys => keys.meaning ord ∪ {x | x = key ∧ ∀ y ∈ keys.meaning ord, ¬ same ord y x}
  | .remove key keys => {x ∈ keys.meaning ord | ¬ same ord x key}
  | .union left right =>
    left.meaning ord ∪ {x ∈ right.meaning ord | ∀ y ∈ left.meaning ord, ¬ same ord y x}
  | .intersect left right => {x ∈ left.meaning ord | ∃ y ∈ right.meaning ord, same ord x y}
  | .difference left right => {x ∈ left.meaning ord | ∀ y ∈ right.meaning ord, ¬ same ord x y}

def weight : SetExpr κ → Nat
  | .empty => 0
  | .singleton _ => 1
  | .insert _ keys => keys.weight + 1
  | .remove _ keys => keys.weight
  | .union left right => left.weight + right.weight
  | .intersect left right => left.weight + right.weight
  | .difference left right => left.weight + right.weight

end SetExpr

def Means (ord : KeyOrder κ) (e : SetExpr κ) (cs : List (List κ)) : Prop :=
  Good ord id cs ∧ cs.flatten.length ≤ e.weight ∧ ∀ x, x ∈ cs.flatten ↔ x ∈ e.meaning ord

theorem insert_ok (hl : ord.Lawful) (h : Good ord id cs) (key : κ) :
    ∃ cs', insert ord key (ofChunks cs) = .ok (ofChunks cs') ∧ Good ord id cs' ∧
      cs'.flatten.length ≤ cs.flatten.length + 1 ∧
      ∀ x, x ∈ cs'.flatten ↔ x ∈ cs.flatten ∨ (x = key ∧ ∀ y ∈ cs.flatten, ¬ same ord y x) := by
  obtain ⟨before, found, after, hflat, hcut, hrun⟩ :=
    insertWith_ok hl h (fun _ _ => .ok (ofChunks cs)) key
  rcases hrun with ⟨rfl, cs', hrun, hgood, hflat'⟩ | ⟨pre, post, l, x, r, hcs, -, rfl, -, hrun⟩
  · refine ⟨cs', hrun, hgood, ?_, fun x => ?_⟩
    · rw [hflat', hflat]
      simp
      omega
    · have hnone : ∀ y ∈ cs.flatten, ¬ same ord y key := by
        intro y hy hs
        rw [hflat] at hy
        simp only [Option.toList_none, append_nil, mem_append] at hy
        rcases hy with hy | hy
        · exact absurd ((same_of_lt (hcut.below y hy)).1.symm.trans hs) Bool.false_ne_true
        · exact absurd ((same_of_lt (hcut.above y hy)).2.symm.trans hs) Bool.false_ne_true
      rw [hflat', mem_append, mem_cons]
      constructor
      · rintro (h' | rfl | h')
        · exact .inl (by rw [hflat]; simp [h'])
        · exact .inr ⟨rfl, hnone⟩
        · exact .inl (by rw [hflat]; simp [h'])
      · rintro (h' | ⟨rfl, -⟩)
        · rw [hflat] at h'
          simp only [Option.toList_none, append_nil, mem_append] at h'
          rcases h' with h' | h'
          · exact .inl h'
          · exact .inr (.inr h')
        · exact .inr (.inl rfl)
  · refine ⟨cs, hrun, h, by omega, fun y => ⟨.inl, ?_⟩⟩
    rintro (h' | ⟨rfl, hn⟩)
    · exact h'
    · have hx : x ∈ cs.flatten := by
        rw [hflat]
        simp
      exact absurd (hcut.found x rfl) (hn x hx)

theorem Sorted.length_le (hl : ord.Lawful) (h : Sorted ord xs) (hsub : ∀ x ∈ xs, x ∈ ys) : xs.length ≤ ys.length := by
  have hnodup : xs.Nodup := h.imp fun {a b} hab heq => by
    rw [heq, hl.irrefl] at hab
    cases hab
  exact (subperm_of_subset hnodup hsub).length_le

abbrev Evaluates (ord : KeyOrder κ) (e : SetExpr κ) : Prop :=
  (∃ cs, e.eval ord = .ok (ofChunks cs) ∧ Means ord e cs) ∨ (e.eval ord = .error .assertion ∧ i64Max < e.weight)

/-- An operation on two values, where it has both; the trap of one is the trap of the whole. -/
theorem Evaluates.both {left right e : SetExpr κ} {f : Chunked κ → Chunked κ → Exec (Chunked κ)}
    (heval : e.eval ord = left.eval ord >>= fun a => right.eval ord >>= f a)
    (hweight : e.weight = left.weight + right.weight) (ihl : Evaluates ord left) (ihr : Evaluates ord right)
    (h : ∀ cs ds, Means ord left cs → Means ord right ds →
      (∃ es, f (ofChunks cs) (ofChunks ds) = .ok (ofChunks es) ∧ Means ord e es) ∨
        (f (ofChunks cs) (ofChunks ds) = .error .assertion ∧ i64Max < e.weight)) : Evaluates ord e := by
  rcases ihl with ⟨cs, hcs, hc⟩ | ⟨hrun, hlt⟩
  · rcases ihr with ⟨ds, hds, hd⟩ | ⟨hrun, hlt⟩
    · rw [Evaluates, heval, hcs, ok_bind, hds, ok_bind]
      exact h cs ds hc hd
    · exact .inr ⟨by rw [heval, hcs, ok_bind, hrun]; rfl, by omega⟩
  · exact .inr ⟨by rw [heval, hrun]; rfl, by omega⟩

theorem select_means (hl : ord.Lawful) (includeEqual : Bool) {left right e : SetExpr κ} {cs ds : List (List κ)}
    (hweight : e.weight = left.weight + right.weight) (hmeaning : ∀ x, x ∈ e.meaning ord ↔
      x ∈ left.meaning ord ∧ ((∃ y ∈ right.meaning ord, same ord x y = true) ↔ includeEqual = true))
    (hc : Means ord left cs) (hd : Means ord right ds) :
    ∃ es, select ord (ofChunks cs) (ofChunks ds) includeEqual = .ok (ofChunks es) ∧ Means ord e es := by
  obtain ⟨hcgood, hclen, hcmem⟩ := hc
  obtain ⟨es, hselect, he, hmem⟩ := select_ok hl includeEqual hcgood hd.1
  refine ⟨es, hselect, he, ?_, fun x => ?_⟩
  · have := Sorted.length_le hl he.sorted fun x hx => ((hmem x).mp hx).1
    omega
  · rw [hmem x, Picked, hcmem x, hmeaning]
    simp only [hd.2.2]

theorem eval_ok (hl : ord.Lawful) (e : SetExpr κ) : Evaluates ord e := by
  induction e with
  | empty => exact .inl ⟨[], rfl, good_nil, by simp, fun x => by simp [SetExpr.meaning]⟩
  | singleton key =>
    refine .inl ⟨[[key]], rfl, ⟨?_, .singleton _, by simp⟩, by simp [SetExpr.weight],
      fun x => by simp [SetExpr.meaning]⟩
    intro c hc
    obtain rfl := mem_singleton.mp hc
    simp
  | insert key keys ih =>
    rcases ih with ⟨cs, hrun, hgood, hlen, hmem⟩ | ⟨hrun, hweight⟩
    · obtain ⟨cs', hins, hgood', hlen', hmem'⟩ := insert_ok hl hgood key
      refine .inl ⟨cs', ?_, hgood', ?_, fun x => ?_⟩
      · rw [SetExpr.eval, hrun, ok_bind, hins]
      · rw [SetExpr.weight]
        omega
      · rw [hmem' x, SetExpr.meaning, Set.mem_union, ← hmem x]
        simp only [hmem]
        rfl
    · right
      refine ⟨by rw [SetExpr.eval, hrun]; rfl, ?_⟩
      rw [SetExpr.weight]
      omega
  | remove key keys ih =>
    rcases ih with ⟨cs, hrun, hgood, hlen, hmem⟩ | ⟨hrun, hweight⟩
    · obtain ⟨cs', hrem, hgood', hflat⟩ := Chunked.remove_ok hl hgood key
      refine .inl ⟨cs', ?_, hgood', ?_, fun x => ?_⟩
      · rw [SetExpr.eval, hrun, ok_bind, OrderedSet.remove, hrem]
      · rw [SetExpr.weight, hflat, erase]
        exact le_trans (length_filter_le _ _) hlen
      · rw [hflat, erase, mem_filter, hmem x]
        simp [SetExpr.meaning]
    · exact .inr ⟨by rw [SetExpr.eval, hrun]; rfl, hweight⟩
  | union left right ihl ihr =>
    refine .both (f := union ord) rfl rfl ihl ihr fun cs ds hc hd => ?_
    obtain ⟨hc, hclen, hcmem⟩ := hc
    obtain ⟨hd, hdlen, hdmem⟩ := hd
    by_cases hfits : ((cs.flatten.length + ds.flatten.length : Nat) : Int) ≤ i64Max
    · obtain ⟨es, hunion, he, hmem⟩ := union_ok hl hc hd hfits
      refine .inl ⟨es, hunion, he, ?_, fun x => ?_⟩
      · have hle : es.flatten.length ≤ (cs.flatten ++ ds.flatten).length := by
          refine Sorted.length_le hl he.sorted fun x hx => ?_
          rcases (hmem x).mp hx with h' | ⟨h', -⟩
          · exact mem_append_left _ h'
          · exact mem_append_right _ h'
        rw [length_append] at hle
        rw [SetExpr.weight]
        omega
      · rw [hmem x, Joined, hcmem x, hdmem x, SetExpr.meaning, Set.mem_union]
        simp only [hcmem]
        simp
    · refine .inr ⟨?_, ?_⟩
      · have hassert : assert (decide ((ofChunks cs).length ≤ i64Max - (ofChunks ds).length))
            = .error .assertion := by
          rw [decide_eq_false (by rw [length_ofChunks, length_ofChunks]; omega)]
          rfl
        unfold union
        simp only
        rw [hassert]
        rfl
      · rw [SetExpr.weight]
        omega
  | intersect left right ihl ihr =>
    exact .both (f := OrderedSet.intersect ord) rfl rfl ihl ihr fun cs ds hc hd =>
      .inl (select_means hl true rfl (fun x => by simp [SetExpr.meaning]) hc hd)
  | difference left right ihl ihr =>
    exact .both (f := OrderedSet.difference ord) rfl rfl ihl ihr fun cs ds hc hd =>
      .inl (select_means hl false rfl (fun x => by simp [SetExpr.meaning]) hc hd)

/-- Every value of an expression keeps the chunk rules, `invariants_hold` accepts it, and
`to_array` gives the keys that the expression means, each once and in ascending order. The only
trap is the length check of `union`, in an expression that puts in more than 2^63 - 1 keys. -/
theorem eval_meaning (hl : ord.Lawful) (e : SetExpr κ) :
    (∃ set, e.eval ord = .ok set ∧ (∃ cs, set = ofChunks cs ∧ Good ord id cs) ∧ invariantsHold ord set = .ok true ∧
      ∃ keys, toArray set = .ok keys ∧ keys.Pairwise (fun a b => ord.lt a b = true) ∧
        (∀ x, x ∈ keys ↔ x ∈ e.meaning ord) ∧
        ∀ x, contains ord x set = .ok (keys.any fun y => same ord y x)) ∨
    (e.eval ord = .error .assertion ∧ i64Max < e.weight) := by
  rcases eval_ok hl e with ⟨cs, hrun, hgood, -, hmem⟩ | hfault
  · left
    refine ⟨ofChunks cs, hrun, ⟨cs, rfl, hgood⟩, invariantsHold_ok hgood, cs.flatten, ?_,
      hgood.sorted, hmem, fun x => ?_⟩
    · have hcapacity : withCapacity (ofChunks cs).length = .ok ([] : List κ) :=
        withCapacity_ok (by rw [length_ofChunks]; omega)
      rw [toArray, hcapacity, ok_bind, toArray_ok, nil_append]
    · rw [contains, contains_ok hl hgood, find, isSome_find?]
      rfl
  · exact .inr hfault

def sample : SetExpr Nat :=
  .union (.singleton 5) (.difference (.insert 7 (.singleton 5)) (.singleton 5))

theorem eval_meaning_nat : ∃ set, sample.eval natOrder = .ok set ∧ invariantsHold natOrder set = .ok true ∧
      toArray set = .ok [5, 7] := by
  rcases eval_meaning natOrder_lawful sample with ⟨set, hrun, -, hinv, -⟩ | ⟨-, hweight⟩
  · refine ⟨set, hrun, hinv, ?_⟩
    have hset : sample.eval natOrder = .ok { head := [5, 7], rest := [], length := 2 } := by
      decide +kernel
    obtain rfl := Except.ok.inj (hset.symm.trans hrun)
    rfl
  · simp [sample, SetExpr.weight, i64Max] at hweight

end Tsuzuri.OrderedSet
