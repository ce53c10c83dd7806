import Tsuzuri.HashMapTable

/-!
# What a hash map does

`Valid` is the invariant of a map: different entries have different keys, every entry keeps the hash of its key, and
the slots are a `Table` of the entries.
-/

namespace Tsuzuri.HashMap

open FaultVec LinearProbing List

variable {κ ν : Type} {ops : KeyOps κ}

structure Valid (ops : KeyOps κ) (map : HashMap κ ν) : Prop where
  distinct : map.entries.Pairwise fun a b => ops.eq a.key b.key = false
  hashes : ∀ entry ∈ map.entries, entry.hash = keyHash ops map entry.key
  table : (map.slots = [] ∧ map.entries = []) ∨ Table map.entries map.slots

theorem hashOf_ok (hl : ops.Lawful) (map : HashMap κ ν) (key : κ) : hashOf ops map key = .ok (keyHash ops map key) := by
  simp [hashOf, hl.refl key]

theorem keyHash_eq (hl : ops.Lawful) (map : HashMap κ ν) {a b : κ} (h : ops.eq a b = true) :
    keyHash ops map a = keyHash ops map b := by
  simp [keyHash, hl.hash_eq a b h]

/-! ## Probing -/

def HasKey (ops : KeyOps κ) (map : HashMap κ ν) (key : κ) (i : Nat) (entry : Entry κ ν) : Prop :=
  map.entries[i]? = some entry ∧ ops.eq entry.key key = true

def NoKey (ops : KeyOps κ) (map : HashMap κ ν) (key : κ) : Prop :=
  ∀ entry ∈ map.entries, ops.eq entry.key key = false

theorem hasKey_or_noKey (ops : KeyOps κ) (map : HashMap κ ν) (key : κ) :
    (∃ i entry, HasKey ops map key i entry) ∨ NoKey ops map key := by
  by_cases h : ∃ entry ∈ map.entries, ops.eq entry.key key = true
  · obtain ⟨entry, hmem, heq⟩ := h
    obtain ⟨i, hi⟩ := mem_iff_getElem?.mp hmem
    exact .inl ⟨i, entry, hi, heq⟩
  · refine .inr fun entry hmem => ?_
    by_contra hne
    exact h ⟨entry, hmem, by simpa using hne⟩

variable {map : HashMap κ ν} {key : κ} {i : Nat} {hash x e count size : Int} {entry : Entry κ ν}
  {entries entries' : List (Entry κ ν)} {slots : List Int}

theorem HasKey.unique (hl : ops.Lawful) (hv : Valid ops map) {j : Nat} {a b : Entry κ ν}
    (ha : HasKey ops map key i a) (hb : HasKey ops map key j b) : i = j := by
  have hab : ops.eq a.key b.key = true := hl.trans _ _ _ ha.2 (hl.symm _ _ hb.2)
  have hi := (List.getElem?_eq_some_iff.mp ha.1).1
  have hj := (List.getElem?_eq_some_iff.mp hb.1).1
  have hai := (List.getElem?_eq_some_iff.mp ha.1).2
  have hbj := (List.getElem?_eq_some_iff.mp hb.1).2
  rcases Nat.lt_trichotomy i j with hlt | heq | hlt
  · have := pairwise_iff_getElem.mp hv.distinct i j hi hj hlt
    rw [hai, hbj, hab] at this
    cases this
  · exact heq
  · have := pairwise_iff_getElem.mp hv.distinct j i hj hi hlt
    rw [hai, hbj, hl.symm _ _ hab] at this
    cases this

theorem probeStop_entry (h : map.entries[i]? = some entry) :
    probeStop ops map key hash i = .ok (entry.hash == hash && ops.eq entry.key key) := by
  unfold probeStop
  rw [if_pos (by omega), index_ok (by simpa using h)]
  rfl

theorem probeStop_empty {value : Int} (h : value < 0) : probeStop ops map key hash value = .ok true := by
  unfold probeStop
  rw [if_neg (by omega)]

theorem probeStop_other (ht : Table map.entries map.slots) (hx : 0 ≤ cell map.slots x)
    (hother : ∀ i entry, HasKey ops map key i entry → cell map.slots x ≠ i) :
    probeStop ops map key hash (cell map.slots x) = .ok false := by
  obtain ⟨h0, hlt⟩ := ht.probed.sound x hx
  obtain ⟨i, hi⟩ : ∃ i : Nat, cell map.slots x = i := ⟨(cell map.slots x).toNat, by omega⟩
  have hget : map.entries[i]? = some map.entries[i] := getElem?_eq_getElem (by omega)
  rw [hi, probeStop_entry hget]
  have hne : ops.eq (map.entries[i]).key key = false := by
    by_contra hc
    exact hother i _ ⟨hget, by simpa using hc⟩ hi
  rw [hne, Bool.and_false]

section

variable (hl : ops.Lawful)

include hl

theorem probe_ok (hv : Valid ops map) (ht : Table map.entries map.slots) (key : κ) :
    ∃ x, probe ops map key (keyHash ops map key) = .ok (x % map.slots.length) ∧
      ((∃ i entry, HasKey ops map key i entry ∧ cell map.slots x = i) ∨
        (NoKey ops map key ∧ cell map.slots x < 0)) := by
  obtain ⟨k, hk⟩ := ht.size
  have hn := ht.pos
  unfold probe
  rw [land_mask hk]
  rcases hasKey_or_noKey ops map key with ⟨i, entry, hkey⟩ | hno
  · -- the probe of the entry, from its origin, is the probe of the key
    have hlive : Live map.entries.length (i : Int) :=
      ⟨by omega, by exact_mod_cast (List.getElem?_eq_some_iff.mp hkey.1).1⟩
    obtain ⟨-, x, hx⟩ := ht.probed.complete i hlive
    have hhash : entry.hash = keyHash ops map key := by
      rw [hv.hashes entry (mem_of_getElem? hkey.1), keyHash_eq hl map hkey.2]
    have horigin := origin_emod map.slots.length (homeOf map.entries) (i : Int) x
    rw [homeOf_get hkey.1, hhash] at horigin
    have hle := origin_le (n := map.slots.length) (by omega) (homeOf map.entries) (i : Int) x
    have hlt := lt_origin_add (n := map.slots.length) (by omega) (homeOf map.entries) (i : Int) x
    obtain ⟨d, hd⟩ : ∃ d : Nat, x = origin map.slots.length (homeOf map.entries) i x + d :=
      ⟨(x - origin map.slots.length (homeOf map.entries) i x).toNat, by omega⟩
    refine ⟨x, ?_, .inl ⟨i, entry, hkey, hx⟩⟩
    rw [← horigin]
    have hend : x % map.slots.length
        = (origin map.slots.length (homeOf map.entries) i x + d) % map.slots.length := by rw [← hd]
    rw [hend]
    refine scan_ok hk (by omega) ?_ ?_
    · intro j hj
      refine probeStop_other ht (ht.probed.reached x _ (by omega) ?_ (by omega)) ?_
      · rw [hx]
        omega
      · intro i' entry' hkey' heq
        obtain rfl := HasKey.unique hl hv hkey hkey'
        have := ht.probed.unique _ x (by omega) (heq.trans hx.symm)
        exact emod_ne (n := map.slots.length) (by omega) (by omega) this
    · rw [← hd, hx, probeStop_entry hkey.1, hhash, hkey.2]
      simp
  · obtain ⟨d0, hd0, hempty0⟩ := ht.exists_empty (keyHash ops map key)
    obtain ⟨d, hd, hempty, hocc⟩ := exists_first_empty (keyHash ops map key) hempty0
    refine ⟨keyHash ops map key + d, ?_, .inr ⟨hno, hempty⟩⟩
    refine scan_ok hk (by omega) (fun j hj => ?_) (probeStop_empty hempty)
    refine probeStop_other ht (hocc j hj) fun i entry hkey => ?_
    have := hno entry (mem_of_getElem? hkey.1)
    rw [hkey.2] at this
    cases this

theorem found_ok (hv : Valid ops map) (key : κ) : (∃ i entry, HasKey ops map key i entry ∧
      found ops map key (keyHash ops map key) = .ok (i : Int)) ∨
    (NoKey ops map key ∧ found ops map key (keyHash ops map key) = .ok (-1)) := by
  unfold found
  rcases hv.table with ⟨hslots, hentries⟩ | ht
  · refine .inr ⟨fun entry h => by simp [hentries] at h, ?_⟩
    rw [if_pos (by simp [hslots])]
  · have hn := ht.pos
    rw [if_neg (by omega)]
    obtain ⟨x, hprobe, hx⟩ := probe_ok hl hv ht key
    rw [hprobe, ok_bind, index_cell hn]
    rcases hx with ⟨i, entry, hkey, hx⟩ | ⟨hno, hx⟩
    · exact .inl ⟨i, entry, hkey, by rw [hx]⟩
    · have := ht.probed.blank x
      exact .inr ⟨hno, by rw [show cell map.slots x = -1 by omega]⟩

theorem find_eq (map : HashMap κ ν) (key : κ) : find ops map key = found ops map key (keyHash ops map key) := by
  rw [find, hashOf_ok hl, ok_bind, found]

theorem get_ok (hv : Valid ops map) (key : κ) :
    (∃ i entry, HasKey ops map key i entry ∧ get ops key map = .ok (some entry.value)) ∨
    (NoKey ops map key ∧ get ops key map = .ok none) := by
  unfold get
  rw [find_eq hl]
  rcases found_ok hl hv key with ⟨i, entry, hkey, hfound⟩ | ⟨hno, hfound⟩
  · refine .inl ⟨i, entry, hkey, ?_⟩
    rw [hfound, ok_bind, if_pos (by omega), index_ok (by simpa using hkey.1)]
    rfl
  · refine .inr ⟨hno, ?_⟩
    rw [hfound]
    rfl

/-! ## Insertion -/

end

theorem homeOf_congr (h : (FaultVec.get e entries').map Entry.hash = (FaultVec.get e entries).map Entry.hash) :
    homeOf entries' e = homeOf entries e := by
  rw [homeOf, homeOf, h]

theorem Table.congr (h : Table entries slots) (hhash : entries'.map Entry.hash = entries.map Entry.hash) :
    Table entries' slots := by
  have hlen : entries'.length = entries.length := by
    simpa using congrArg List.length hhash
  refine ⟨h.size, h.eight, hlen ▸ h.room, ?_⟩
  rw [hlen]
  refine probed_congr_home h.probed fun e _ => homeOf_congr ?_
  unfold FaultVec.get
  split
  · rw [← getElem?_map, ← getElem?_map, hhash]
  · rfl

def replaceValue (entries : List (Entry κ ν)) (i : Nat) (entry : Entry κ ν) (value : ν) : List (Entry κ ν) :=
  entries.set i { entry with value }

theorem map_set_eq {α β : Type} {f : α → β} {xs : List α} {x y : α} (hi : xs[i]? = some x) (hf : f y = f x) :
    (xs.set i y).map f = xs.map f := by
  apply ext_getElem?
  intro k
  rw [getElem?_map, getElem?_map, getElem?_set]
  by_cases hk : i = k
  · subst hk
    rw [if_pos rfl, if_pos (List.getElem?_eq_some_iff.mp hi).1, hi, Option.map_some, hf, Option.map_some]
  · rw [if_neg hk]

theorem valid_replace (hv : Valid ops map) (hi : map.entries[i]? = some entry) (value : ν) :
    Valid ops { map with entries := replaceValue map.entries i entry value } := by
  have hkeys : (replaceValue map.entries i entry value).map Entry.key = map.entries.map Entry.key :=
    map_set_eq hi rfl
  have hdistinct : (map.entries.map Entry.key).Pairwise fun a b => ops.eq a b = false :=
    pairwise_map.mpr hv.distinct
  refine ⟨?_, fun e he => ?_, ?_⟩
  · rw [← hkeys] at hdistinct
    exact pairwise_map.mp hdistinct
  · rcases mem_or_eq_of_mem_set he with hmem | rfl
    · exact hv.hashes e hmem
    · exact hv.hashes entry (mem_of_getElem? hi)
  · rcases hv.table with ⟨-, hnone⟩ | ht
    · rw [hnone] at hi
      cases hi
    · exact .inr (ht.congr (map_set_eq hi rfl))

theorem grow_ok (hv : Valid ops map) : ∃ slots k, grow map = .ok slots ∧ slots.length = 2 ^ k ∧ 8 ≤ slots.length ∧
      2 * (map.entries.length + 1) ≤ slots.length ∧ Probed slots (homeOf map.entries) (Live map.entries.length) := by
  unfold grow length
  rcases hv.table with ⟨hslots, hentries⟩ | ht
  · have hsize : ((map.slots.length : Nat) : Int) = 0 := by simp [hslots]
    obtain ⟨slots, hreb, hlen, hp⟩ := rebuild_ok map.entries (k := 3) (by simp [hentries])
    refine ⟨slots, 3, ?_, hlen, by omega, by simp [hlen, hentries], hp⟩
    rw [if_pos (by omega), if_pos hsize]
    exact hreb
  · obtain ⟨k, hk⟩ := ht.size
    have h8 := ht.eight
    have hroom := ht.room
    by_cases hfull : 2 * ((map.entries.length : Int) + 1) > map.slots.length
    · have hpow : 2 ^ (k + 1) = 2 * map.slots.length := by rw [hk, Nat.pow_succ, Nat.mul_comm]
      obtain ⟨slots, hreb, hlen, hp⟩ := rebuild_ok map.entries (k := k + 1) (by omega)
      refine ⟨slots, k + 1, ?_, hlen, by omega, by omega, hp⟩
      rw [if_pos hfull, if_neg (by omega)]
      rwa [hpow, show ((2 * map.slots.length : Nat) : Int) = map.slots.length * 2 by omega] at hreb
    · exact ⟨map.slots, k, by rw [if_neg hfull], hk, h8, by omega, ht.probed⟩

theorem homeOf_append_left (entry : Entry κ ν) (he : Live entries.length e) :
    homeOf (entries ++ [entry]) e = homeOf entries e := by
  apply homeOf_congr
  obtain ⟨h0, hlt⟩ := he
  unfold FaultVec.get
  rw [if_pos h0, if_pos h0, getElem?_append_left (by omega)]

theorem insert_new (hl : ops.Lawful) (hv : Valid ops map) (hno : NoKey ops map key) (value : ν) :
    ∃ next, insert ops key value map = .ok next ∧
      next.entries = map.entries ++ [{ hash := keyHash ops map key, key, value }] ∧
      Valid ops next := by
  obtain ⟨entry, hentry⟩ : ∃ entry : Entry κ ν, entry = { hash := keyHash ops map key, key, value } := ⟨_, rfl⟩
  have hfound : found ops map key (keyHash ops map key) = .ok (-1) := by
    rcases found_ok hl hv key with ⟨i, e, hkey, -⟩ | ⟨-, h⟩
    · have := hno e (mem_of_getElem? hkey.1)
      rw [hkey.2] at this
      cases this
    · exact h
  obtain ⟨grown, k, hgrow, hk, h8, hroom, hp⟩ := grow_ok hv
  -- the table of the old entries is one for the longer list, without its last entry
  have hp' : Probed grown (homeOf (map.entries ++ [entry])) (Live map.entries.length) :=
    probed_congr_home hp fun e he => homeOf_append_left entry he
  obtain ⟨slots, hset, hlen, hprobed⟩ := locate_fill hk hp' (by omega)
  have hhome : homeOf (map.entries ++ [entry]) map.entries.length = keyHash ops map key := by
    have hget : (map.entries ++ [entry])[map.entries.length]? = some entry := by simp
    rw [homeOf_get hget, hentry]
  rw [hhome] at hset
  obtain ⟨position, hloc, hset'⟩ := bind_ok.mp hset
  refine ⟨{ map with entries := map.entries ++ [entry], slots }, ?_, by rw [hentry], ?_⟩
  · unfold insert
    rw [hashOf_ok hl, ok_bind, hfound, ok_bind, if_neg (by omega), hgrow, ok_bind, hloc, ok_bind]
    unfold length
    rw [hset', ok_bind, hentry]
  · refine ⟨?_, fun e he => ?_, .inr ⟨⟨k, hlen.trans hk⟩, by simp only; omega, ?_, ?_⟩⟩
    · simp only [pairwise_append, pairwise_cons, List.Pairwise.nil, mem_singleton]
      refine ⟨hv.distinct, by simp, fun a ha b hb => ?_⟩
      rw [hb, hentry]
      exact hno a ha
    · rcases mem_append.mp he with he | he
      · exact hv.hashes e he
      · rw [mem_singleton.mp he, hentry]
        rfl
    · simp only [length_append, length_singleton]
      omega
    · simpa using hprobed

theorem insert_replace (hl : ops.Lawful) (hv : Valid ops map) (hkey : HasKey ops map key i entry) (value : ν) :
    insert ops key value map = .ok { map with entries := replaceValue map.entries i entry value } := by
  have hfound : found ops map key (keyHash ops map key) = .ok (i : Int) := by
    rcases found_ok hl hv key with ⟨j, e, hkey', h⟩ | ⟨hno, -⟩
    · rw [h, HasKey.unique hl hv hkey hkey']
    · have := hno entry (mem_of_getElem? hkey.1)
      rw [hkey.2] at this
      cases this
  have hi : i < map.entries.length := (List.getElem?_eq_some_iff.mp hkey.1).1
  have hlast : length map - 1 = ((map.entries.length - 1 : Nat) : Int) := by
    unfold length
    omega
  unfold insert
  simp only [hashOf_ok hl, ok_bind, hfound]
  rw [if_pos (by omega), hlast, swap_ok hi (by omega), ok_bind, pop_exchange hkey.1]
  simp only
  rw [swap_ok (by simp; omega) (by simp), ok_bind, exchange_swapRemove hi]
  rfl

/-! ## Removal -/

theorem unlink_relink_ok (ht : Table entries slots) (hx : cell slots x = i) (hi : i < entries.length) :
    ∃ slots', (unlink entries slots (x % slots.length) >>= fun unlinked =>
        relink entries unlinked i ((entries.length - 1 : Nat) : Int)) = .ok slots' ∧
      Table (swapRemove entries i) slots' := by
  obtain ⟨k, hk⟩ := ht.size
  have hroom := ht.room
  have h8 := ht.eight
  obtain ⟨unlinked, hunlink, hlen, hp⟩ := unlink_ok hk ht.probed hx (by omega) (by omega)
  have hk' : unlinked.length = 2 ^ k := hlen.trans hk
  rw [hunlink, ok_bind]
  unfold relink
  -- the hashes of the entries that stay where they are
  have hstay : ∀ e, Live (entries.length - 1) e → e ≠ i → homeOf (swapRemove entries i) e = homeOf entries e := by
    rintro e ⟨h0, hlt⟩ hne
    apply homeOf_congr
    unfold FaultVec.get
    rw [if_pos h0, if_pos h0, swapRemove_getElem? hi, if_pos (by omega), if_neg (by omega)]
  by_cases hlast : (i : Int) = ((entries.length - 1 : Nat) : Int)
  · rw [if_pos hlast]
    have hlive : (fun e => Live entries.length e ∧ e ≠ i) = Live (entries.length - 1) := by
      funext e
      unfold Live
      apply propext
      omega
    rw [hlive] at hp
    refine ⟨unlinked, rfl, ⟨k, hk'⟩, by omega, by rw [length_swapRemove]; omega, ?_⟩
    rw [length_swapRemove]
    exact probed_congr_home hp fun e he => hstay e he (by have := he.2; omega)
  · rw [if_neg hlast]
    have hll : entries.length - 1 < entries.length := by omega
    have hget : entries[entries.length - 1]? = some entries[entries.length - 1] :=
      getElem?_eq_getElem hll
    obtain ⟨-, y, hy⟩ := hp.complete ((entries.length - 1 : Nat) : Int) ⟨⟨by omega, by omega⟩, by omega⟩
    have hloc : locate unlinked entries[entries.length - 1].hash ((entries.length - 1 : Nat) : Int)
        = .ok (y % unlinked.length) :=
      locate_number hk' hy (fun z hz => hp.unique z y (by omega) (hz.trans hy.symm)) _
    have hmoved : homeOf (swapRemove entries i) i = homeOf entries ((entries.length - 1 : Nat) : Int) := by
      have hsr : (swapRemove entries i)[i]? = some entries[entries.length - 1] := by
        rw [swapRemove_getElem? hi, if_pos (by omega), if_pos rfl, hget]
      rw [homeOf_get hsr, homeOf_get hget]
    have hren : Probed (write unlinked y i) (homeOf (swapRemove entries i)) _ :=
      hp.rename (length_pos hk') hy (by omega) (by omega) (fun h => h.2 rfl) hmoved
        (fun e he hne => hstay e ⟨he.1.1, by have := he.1.2; omega⟩ he.2)
    refine ⟨write unlinked y i, ?_, ⟨k, by rw [length_write]; exact hk'⟩,
      by rw [length_write]; omega, by rw [length_write, length_swapRemove]; omega, ?_⟩
    · rw [index_ok (by rw [get_natCast, hget]), ok_bind, hloc, ok_bind, set_write (length_pos hk')]
    · have hlive : (fun e => ((Live entries.length e ∧ e ≠ i) ∧
          e ≠ ((entries.length - 1 : Nat) : Int)) ∨ e = i) = Live (entries.length - 1) := by
        funext e
        unfold Live
        apply propext
        omega
      rw [hlive] at hren
      rw [length_swapRemove]
      exact hren

theorem mem_swapRemove {α : Type} {xs : List α} (hi : i < xs.length) {x : α} (h : x ∈ swapRemove xs i) : x ∈ xs := by
  obtain ⟨k, hk⟩ := mem_iff_getElem?.mp h
  rw [swapRemove_getElem? hi] at hk
  split at hk
  · split at hk
    · exact mem_of_getElem? hk
    · exact mem_of_getElem? hk
  · cases hk

theorem pairwise_swapRemove {α : Type} {R : α → α → Prop} (hsymm : ∀ a b, R a b → R b a) {xs : List α}
    (hi : i < xs.length) (h : xs.Pairwise R) : (swapRemove xs i).Pairwise R := by
  have hne : ∀ (j k : Nat) (a b : α), j ≠ k → xs[j]? = some a → xs[k]? = some b → R a b := by
    intro j k a b hjk ha hb
    obtain ⟨hj, rfl⟩ := List.getElem?_eq_some_iff.mp ha
    obtain ⟨hk, rfl⟩ := List.getElem?_eq_some_iff.mp hb
    rcases Nat.lt_or_gt_of_ne hjk with hlt | hlt
    · exact pairwise_iff_getElem.mp h j k hj hk hlt
    · exact hsymm _ _ (pairwise_iff_getElem.mp h k j hk hj hlt)
  rw [pairwise_iff_getElem]
  intro j k hj hk hlt
  have hlen : (swapRemove xs i).length = xs.length - 1 := length_swapRemove xs i
  have ha := getElem?_eq_getElem hj
  have hb := getElem?_eq_getElem hk
  rw [swapRemove_getElem? hi, if_pos (by omega)] at ha hb
  split at ha
  · rw [if_neg (by omega)] at hb
    exact hne _ _ _ _ (by omega) ha hb
  · split at hb
    · exact hne _ _ _ _ (by omega) ha hb
    · exact hne _ _ _ _ (by omega) ha hb

theorem remove_found (hl : ops.Lawful) (hv : Valid ops map) (hkey : HasKey ops map key i entry) :
    ∃ next, removeRef ops key map = .ok next ∧ next.entries = swapRemove map.entries i ∧ Valid ops next := by
  have hi : i < map.entries.length := (List.getElem?_eq_some_iff.mp hkey.1).1
  have ht : Table map.entries map.slots := by
    rcases hv.table with ⟨-, hnone⟩ | ht
    · rw [hnone] at hi
      simp at hi
    · exact ht
  obtain ⟨x, hprobe, hx⟩ := probe_ok hl hv ht key
  have hx : cell map.slots x = i := by
    rcases hx with ⟨j, e, hkey', hx⟩ | ⟨hno, -⟩
    · rw [hx, HasKey.unique hl hv hkey hkey']
    · have := hno entry (mem_of_getElem? hkey.1)
      rw [hkey.2] at this
      cases this
  obtain ⟨slots, hslots, htable⟩ := unlink_relink_ok ht hx hi
  obtain ⟨unlinked, hunlink, hrelink⟩ := bind_ok.mp hslots
  have hlast : length map - 1 = ((map.entries.length - 1 : Nat) : Int) := by
    unfold length
    omega
  refine ⟨{ map with entries := swapRemove map.entries i, slots }, ?_, rfl, ?_, ?_, .inr htable⟩
  · unfold removeRef
    simp only [hashOf_ok hl, ok_bind]
    rw [if_neg (by unfold length; omega), hprobe, ok_bind, index_cell ht.pos, ok_bind, hx,
      if_neg (by omega), hunlink, ok_bind, hlast, hrelink, ok_bind, swap_ok hi (by omega), ok_bind,
      pop_exchange hkey.1]
  · refine pairwise_swapRemove (fun a b hab => ?_) hi hv.distinct
    by_contra hba
    rw [hl.symm _ _ (by simpa using hba)] at hab
    cases hab
  · exact fun e he => hv.hashes e (mem_swapRemove hi he)

theorem remove_missing (hl : ops.Lawful) (hv : Valid ops map) (hno : NoKey ops map key) :
    removeRef ops key map = .ok map := by
  unfold removeRef
  simp only [hashOf_ok hl, ok_bind]
  by_cases hcount : length map = 0
  · rw [if_pos hcount]
  · rw [if_neg hcount]
    rcases hv.table with ⟨-, hnone⟩ | ht
    · simp [length, hnone] at hcount
    · obtain ⟨x, hprobe, ⟨i, entry, hkey, -⟩ | ⟨-, hx⟩⟩ := probe_ok hl hv ht key
      · have := hno entry (mem_of_getElem? hkey.1)
        rw [hkey.2] at this
        cases this
      · rw [hprobe, ok_bind, index_cell ht.pos, ok_bind, if_pos hx]

/-! ## Construction -/

theorem loop_double : ∀ (m k fuel : Nat), m < fuel → 2 * count ≤ ((2 ^ (k + m) : Nat) : Int) →
    ∃ k', k ≤ k' ∧ 2 * count ≤ ((2 ^ k' : Nat) : Int) ∧
      loop fuel (fun size => if size < 2 * count then .ok (.go (size * 2)) else .ok (.leave size))
        ((2 ^ k : Nat) : Int) = .ok ((2 ^ k' : Nat) : Int) := by
  intro m
  induction m with
  | zero =>
    intro k fuel hlt hle
    obtain ⟨fuel, rfl⟩ : ∃ f, fuel = f + 1 := ⟨fuel - 1, by omega⟩
    rw [Nat.add_zero] at hle
    exact ⟨k, le_refl k, hle, by rw [loop, if_neg (by omega)]; rfl⟩
  | succ m ih =>
    intro k fuel hlt hle
    obtain ⟨fuel, rfl⟩ : ∃ f, fuel = f + 1 := ⟨fuel - 1, by omega⟩
    by_cases hfull : ((2 ^ k : Nat) : Int) < 2 * count
    · obtain ⟨k', hk', hroom, hloop⟩ := ih (k + 1) fuel (by omega) (by
        rwa [show k + 1 + m = k + (m + 1) by omega])
      refine ⟨k', by omega, hroom, ?_⟩
      rw [loop, if_pos hfull]
      rw [Nat.pow_succ, Nat.cast_mul] at hloop
      exact hloop
    · exact ⟨k, le_refl k, by omega, by rw [loop, if_neg hfull]; rfl⟩

theorem tableSize_ok (h : tableSize count = .ok size) :
    ∃ k, size = ((2 ^ k : Nat) : Int) ∧ 8 ≤ 2 ^ k ∧ 0 ≤ count ∧ 2 * count ≤ ((2 ^ k : Nat) : Int) := by
  unfold tableSize at h
  obtain ⟨u, hassert, hloop⟩ := bind_ok.mp h
  have hrange : 0 ≤ count ∧ count ≤ 1152921504606846976 := by
    by_contra hno
    have hfalse : (decide (0 ≤ count) && decide (count ≤ 1152921504606846976)) = false := by
      rw [← Bool.not_eq_true, Bool.and_eq_true, decide_eq_true_eq, decide_eq_true_eq]
      exact hno
    rw [hfalse] at hassert
    cases hassert
  have hbound : 2 * count ≤ ((2 ^ (3 + 58) : Nat) : Int) := by
    have hpow : ((2 ^ (3 + 58) : Nat) : Int) = 2305843009213693952 := by norm_num
    omega
  obtain ⟨k, hk, hroom, hrun⟩ := loop_double 58 3 64 (by omega) hbound
  have hcast : ((2 ^ 3 : Nat) : Int) = 8 := by norm_num
  rw [hcast, hloop] at hrun
  have h8 : 2 ^ 3 ≤ 2 ^ k := Nat.pow_le_pow_right (by omega) hk
  exact ⟨k, Except.ok.inj hrun, h8, hrange.1, hroom⟩

theorem valid_emptySlots (hentries : map.entries = []) (hsize : tableSize count = .ok size)
    (hslots : map.slots = emptySlots size) : Valid ops map := by
  obtain ⟨k, rfl, h8, -, -⟩ := tableSize_ok hsize
  have hlen : map.slots.length = 2 ^ k := by
    rw [hslots, emptySlots, length_replicate, Int.toNat_natCast]
  refine ⟨by rw [hentries]; exact .nil, fun e he => by simp [hentries] at he, .inr ?_⟩
  refine ⟨⟨k, hlen⟩, by omega, by simp [hentries], ?_⟩
  obtain ⟨slots', hreb, -, hp⟩ := rebuild_ok map.entries (k := k) (by simp [hentries])
  rw [hentries] at hreb hp ⊢
  have : slots' = map.slots := by
    rw [hslots]
    exact (Except.ok.inj hreb).symm
  exact this ▸ hp

theorem valid_noTable (hentries : map.entries = []) (hslots : map.slots = []) : Valid ops map :=
  ⟨by rw [hentries]; exact .nil, fun e he => by simp [hentries] at he, .inl ⟨hslots, hentries⟩⟩

theorem make_ok (ops : KeyOps κ) {maker : Maker} (h : maker.make = .ok map) : map.entries = [] ∧ Valid ops map := by
  cases maker with
  | empty | withSeed seed =>
    cases h
    exact ⟨rfl, valid_noTable rfl rfl⟩
  | withCapacity count | withCapacityAndSeed count seed =>
    obtain ⟨size, hsize, hmap⟩ := bind_ok.mp h
    split at hmap
    · cases hmap
      exact ⟨rfl, valid_noTable rfl rfl⟩
    · cases hmap
      exact ⟨rfl, valid_emptySlots rfl hsize rfl⟩

/-! ## The list semantics

What a map shows, computed on a list of keys and values without any hashing: a
new key is appended, a present key is replaced in place, and a removal moves the
last entry into the removed place. -/

namespace Spec

def place (eq : κ → κ → Bool) (key : κ) (list : List (κ × ν)) : Option Nat :=
  list.findIdx? fun pair => eq pair.1 key

def insert (eq : κ → κ → Bool) (key : κ) (value : ν) (list : List (κ × ν)) : List (κ × ν) :=
  match place eq key list with
  | some i => list.modify i fun pair => (pair.1, value)
  | none => list ++ [(key, value)]

def remove (eq : κ → κ → Bool) (key : κ) (list : List (κ × ν)) : List (κ × ν) :=
  match place eq key list with
  | some i => swapRemove list i
  | none => list

def get (eq : κ → κ → Bool) (key : κ) (list : List (κ × ν)) : Option ν :=
  (list.find? fun pair => eq pair.1 key).map Prod.snd

def step (eq : κ → κ → Bool) (list : List (κ × ν)) : Op κ ν → List (κ × ν) × Output κ ν
  | .insert key value => (insert eq key value list, .done)
  | .remove key => (remove eq key list, .done)
  | .get key => (list, .value (get eq key list))
  | .containsKey key => (list, .flag (get eq key list).isSome)
  | .length => (list, .count list.length)
  | .toArray => (list, .entries list)

def run (eq : κ → κ → Bool) (list : List (κ × ν)) : List (Op κ ν) → List (κ × ν) × List (Output κ ν)
  | [] => (list, [])
  | op :: rest =>
    let (next, output) := step eq list op
    let (final, outputs) := run eq next rest
    (final, output :: outputs)

end Spec

theorem place_noKey (hno : NoKey ops map key) : Spec.place ops.eq key (toArray map) = none := by
  unfold Spec.place toArray
  rw [findIdx?_eq_none_iff]
  intro pair hpair
  obtain ⟨entry, hentry, rfl⟩ := mem_map.mp hpair
  exact hno entry hentry

theorem place_hasKey (hl : ops.Lawful) (hv : Valid ops map) (hkey : HasKey ops map key i entry) :
    Spec.place ops.eq key (toArray map) = some i := by
  obtain ⟨hi, hget⟩ := List.getElem?_eq_some_iff.mp hkey.1
  unfold Spec.place toArray
  rw [findIdx?_eq_some_iff_getElem]
  refine ⟨by simpa using hi, by simpa [hget] using hkey.2, fun j hj => ?_⟩
  simp only [getElem_map, Bool.not_eq_true]
  by_contra hne
  have hj' : HasKey ops map key j map.entries[j] :=
    ⟨getElem?_eq_getElem (by omega), by simpa using hne⟩
  have := HasKey.unique hl hv hkey hj'
  omega

theorem spec_get_hasKey (hl : ops.Lawful) (hv : Valid ops map) (hkey : HasKey ops map key i entry) :
    Spec.get ops.eq key (toArray map) = some entry.value := by
  unfold Spec.get
  cases hfind : (toArray map).find? (fun pair => ops.eq pair.1 key) with
  | none =>
    have := find?_eq_none.mp hfind (entry.key, entry.value) (mem_map.mpr ⟨entry, mem_of_getElem? hkey.1, rfl⟩)
    exact absurd hkey.2 this
  | some pair =>
    obtain ⟨entry', hmem, rfl⟩ := mem_map.mp (mem_of_find?_eq_some hfind)
    obtain ⟨j, hj⟩ := mem_iff_getElem?.mp hmem
    have hkey' : HasKey ops map key j entry' :=
      ⟨hj, by simpa using find?_some hfind⟩
    obtain rfl := HasKey.unique hl hv hkey hkey'
    rw [Option.some.inj (hkey.1.symm.trans hj)]
    rfl

theorem spec_get_noKey (hno : NoKey ops map key) : Spec.get ops.eq key (toArray map) = none := by
  unfold Spec.get
  rw [find?_eq_none.mpr, Option.map_none]
  intro pair hpair
  obtain ⟨entry, hentry, rfl⟩ := mem_map.mp hpair
  simp [hno entry hentry]

theorem insert_spec (hl : ops.Lawful) (hv : Valid ops map) (key : κ) (value : ν) :
    ∃ next, insert ops key value map = .ok next ∧ Valid ops next ∧
      toArray next = Spec.insert ops.eq key value (toArray map) := by
  rcases hasKey_or_noKey ops map key with ⟨i, entry, hkey⟩ | hno
  · refine ⟨_, insert_replace hl hv hkey value, valid_replace hv hkey.1 value, ?_⟩
    have hget : (map.entries.map fun e => (e.key, e.value))[i]? = some (entry.key, entry.value) := by
      rw [getElem?_map, hkey.1]
      rfl
    rw [Spec.insert, place_hasKey hl hv hkey]
    simp only [toArray, replaceValue, map_set]
    rw [modify_eq_set_getElem?, hget]
    rfl
  · obtain ⟨next, hins, hentries, hv'⟩ := insert_new hl hv hno value
    refine ⟨next, hins, hv', ?_⟩
    rw [Spec.insert, place_noKey hno, toArray, hentries, map_append]
    rfl

theorem map_swapRemove {α β : Type} (f : α → β) (xs : List α) (hi : i < xs.length) :
    (swapRemove xs i).map f = swapRemove (xs.map f) i := by
  apply ext_getElem?
  intro k
  rw [getElem?_map, swapRemove_getElem? hi, swapRemove_getElem? (by simpa using hi),
    length_map, getElem?_map, getElem?_map]
  split
  · split <;> rfl
  · rfl

theorem remove_spec (hl : ops.Lawful) (hv : Valid ops map) (key : κ) :
    ∃ next, removeRef ops key map = .ok next ∧ Valid ops next ∧
      toArray next = Spec.remove ops.eq key (toArray map) := by
  rcases hasKey_or_noKey ops map key with ⟨i, entry, hkey⟩ | hno
  · obtain ⟨next, hrem, hentries, hv'⟩ := remove_found hl hv hkey
    refine ⟨next, hrem, hv', ?_⟩
    rw [Spec.remove, place_hasKey hl hv hkey, toArray, hentries,
      map_swapRemove _ _ (List.getElem?_eq_some_iff.mp hkey.1).1]
    rfl
  · refine ⟨map, remove_missing hl hv hno, hv, ?_⟩
    rw [Spec.remove, place_noKey hno]

theorem step_spec (hl : ops.Lawful) (hv : Valid ops map) (op : Op κ ν) :
    ∃ next, step ops map op = .ok (next, (Spec.step ops.eq (toArray map) op).2) ∧ Valid ops next ∧
      toArray next = (Spec.step ops.eq (toArray map) op).1 := by
  cases op with
  | insert key value =>
    obtain ⟨next, hins, hv', harray⟩ := insert_spec hl hv key value
    exact ⟨next, by rw [step, hins]; rfl, hv', harray⟩
  | remove key =>
    obtain ⟨next, hrem, hv', harray⟩ := remove_spec hl hv key
    exact ⟨next, by rw [step, hrem]; rfl, hv', harray⟩
  | get key =>
    refine ⟨map, ?_, hv, rfl⟩
    rw [step]
    rcases get_ok hl hv key with ⟨i, entry, hkey, hget⟩ | ⟨hno, hget⟩
    · rw [hget, Spec.step, spec_get_hasKey hl hv hkey]
      rfl
    · rw [hget, Spec.step, spec_get_noKey hno]
      rfl
  | containsKey key =>
    refine ⟨map, ?_, hv, rfl⟩
    rw [step, containsKey, find_eq hl]
    rcases found_ok hl hv key with ⟨i, entry, hkey, hfound⟩ | ⟨hno, hfound⟩
    · rw [hfound, Spec.step, spec_get_hasKey hl hv hkey]
      simp
    · rw [hfound, Spec.step, spec_get_noKey hno]
      rfl
  | length =>
    refine ⟨map, ?_, hv, rfl⟩
    rw [step, Spec.step, length, toArray, length_map]
  | toArray => exact ⟨map, rfl, hv, rfl⟩

theorem run_spec (hl : ops.Lawful) : ∀ (program : List (Op κ ν)) {map : HashMap κ ν}, Valid ops map → ∃ final,
      run ops map program = .ok (final, (Spec.run ops.eq (toArray map) program).2) ∧
      Valid ops final ∧ toArray final = (Spec.run ops.eq (toArray map) program).1
  | [], map, hv => ⟨map, rfl, hv, rfl⟩
  | op :: rest, map, hv => by
    obtain ⟨next, hstep, hv', harray⟩ := step_spec hl hv op
    obtain ⟨final, hrun, hv'', hfinal⟩ := run_spec hl rest hv'
    refine ⟨final, ?_, hv'', ?_⟩
    · rw [run, hstep, ok_bind]
      simp only
      rw [hrun, harray]
      rfl
    · rw [hfinal, harray]
      rfl

/-! ## The table invariant -/

def TableInvariant (map : HashMap κ ν) : Prop :=
  (map.slots = [] ∧ map.entries = []) ∨
  ((∃ k, map.slots.length = 2 ^ k) ∧ 2 * map.entries.length ≤ map.slots.length ∧
    (∀ value ∈ map.slots, value = -1 ∨ (0 ≤ value ∧ value < map.entries.length)) ∧
    ∀ (i : Nat) (entry : Entry κ ν), map.entries[i]? = some entry → ∃ d : Nat, d < map.slots.length ∧
        (∀ p : Nat, map.slots[p]? = some (i : Int) ↔ (p : Int) = (entry.hash + d) % map.slots.length) ∧
        ∀ j : Nat, j < d → ∃ (p : Nat) (value : Int),
          (p : Int) = (entry.hash + j) % map.slots.length ∧ map.slots[p]? = some value ∧ 0 ≤ value)

theorem cell_natCast {p : Nat} (hp : p < slots.length) : slots[p]? = some (cell slots p) := by
  unfold cell
  rw [Int.emod_eq_of_lt (by omega) (by omega), Int.toNat_natCast, getD_eq_getElem?_getD, getElem?_eq_getElem hp]
  rfl

theorem cell_toNat (hn : 0 < slots.length) (x : Int) : slots[(x % slots.length).toNat]? = some (cell slots x) := by
  unfold cell
  rw [getD_eq_getElem?_getD, getElem?_eq_getElem (emod_toNat_lt hn x)]
  rfl

theorem Valid.tableInvariant (hv : Valid ops map) : TableInvariant map := by
  rcases hv.table with hnone | ht
  · exact .inl hnone
  have hn := ht.pos
  refine .inr ⟨ht.size, ht.room, fun value hvalue => ?_, fun i entry hget => ?_⟩
  · obtain ⟨p, hp⟩ := mem_iff_getElem?.mp hvalue
    have hcell := cell_natCast (List.getElem?_eq_some_iff.mp hp).1
    obtain rfl : value = cell map.slots p := Option.some.inj (hp.symm.trans hcell)
    have hblank := ht.probed.blank p
    by_cases h0 : 0 ≤ cell map.slots p
    · exact .inr (ht.probed.sound p h0)
    · exact .inl (by omega)
  · have hlive : Live map.entries.length (i : Int) :=
      ⟨by omega, by exact_mod_cast (List.getElem?_eq_some_iff.mp hget).1⟩
    obtain ⟨-, x, hx⟩ := ht.probed.complete i hlive
    have hmod := origin_emod map.slots.length (homeOf map.entries) (i : Int) x
    have hle := origin_le (n := map.slots.length) (by omega) (homeOf map.entries) (i : Int) x
    have hlt := lt_origin_add (n := map.slots.length) (by omega) (homeOf map.entries) (i : Int) x
    rw [homeOf_get hget] at hmod
    obtain ⟨d, hd⟩ : ∃ d : Nat, x = origin map.slots.length (homeOf map.entries) i x + d :=
      ⟨(x - origin map.slots.length (homeOf map.entries) i x).toNat, by omega⟩
    have hshift : ∀ j : Nat, (entry.hash + j) % map.slots.length
        = (origin map.slots.length (homeOf map.entries) i x + j) % map.slots.length := by
      intro j
      rw [Int.add_emod, ← hmod, ← Int.add_emod]
    refine ⟨d, by omega, fun p => ?_, fun j hj => ?_⟩
    · rw [hshift, ← hd]
      constructor
      · intro hp
        have hplt := (List.getElem?_eq_some_iff.mp hp).1
        have hcell : cell map.slots p = i := Option.some.inj ((cell_natCast hplt).symm.trans hp)
        have hpx := ht.probed.unique p x (by omega) (hcell.trans hx.symm)
        rw [← hpx, Int.emod_eq_of_lt (by omega) (by omega)]
      · intro hp
        have := cell_toNat hn x
        rwa [← hp, Int.toNat_natCast, hx] at this
    · have hnonneg := Int.emod_nonneg
        (origin map.slots.length (homeOf map.entries) i x + j) (b := map.slots.length) (by omega)
      refine ⟨_, _, ?_, cell_toNat hn (origin map.slots.length (homeOf map.entries) i x + j), ?_⟩
      · rw [hshift, Int.toNat_of_nonneg hnonneg]
      · refine ht.probed.reached x _ (by omega) ?_ (by omega)
        rw [hx]
        omega

/-- Every run from a constructor returns, so that no probe, locate or unlink loop goes on forever;
its last state has the table invariant, and in it `find` returns the index of the entry that has a
key, and -1 exactly for the keys that no entry has. -/
theorem run_tableInvariant (hl : ops.Lawful) (maker : Maker) {map : HashMap κ ν}
    (hm : maker.make = .ok map) (program : List (Op κ ν)) :
    ∃ final outputs, run ops map program = .ok (final, outputs) ∧ TableInvariant final ∧
      ∀ key, (∃ i entry, HasKey ops final key i entry ∧ find ops final key = .ok (i : Int)) ∨
        (NoKey ops final key ∧ find ops final key = .ok (-1)) := by
  obtain ⟨final, hrun, hv, -⟩ := run_spec hl program (make_ok ops hm).2
  refine ⟨final, _, hrun, hv.tableInvariant, fun key => ?_⟩
  rw [find_eq hl]
  exact found_ok hl hv key

def natOps : KeyOps Nat where
  eq := fun a b => a == b
  hash := fun n => UInt64.ofNat n

theorem natOps_lawful : natOps.Lawful where
  refl a := beq_self_eq_true a
  symm a b h := beq_iff_eq.mpr (beq_iff_eq.mp h).symm
  trans a b c h h' := beq_iff_eq.mpr ((beq_iff_eq.mp h).trans (beq_iff_eq.mp h'))
  hash_eq a b h := by rw [beq_iff_eq.mp h]

theorem run_tableInvariant_nat : ∃ (final : HashMap Nat Nat) (outputs : List (Output Nat Nat)),
      run natOps empty [.insert 1 10, .insert 9 90, .remove 1] = .ok (final, outputs) ∧
      TableInvariant final ∧
      ∀ key, (∃ i entry, HasKey natOps final key i entry ∧ find natOps final key = .ok (i : Int)) ∨
        (NoKey natOps final key ∧ find natOps final key = .ok (-1)) :=
  run_tableInvariant natOps_lawful .empty rfl _

/-- A map from `empty` has no table, and no slots are not a power of two of them. -/
theorem empty_noTable : (Maker.empty.make : Exec (HashMap Nat Nat)) = .ok empty ∧
    ¬ ∃ k, (empty : HashMap Nat Nat).slots.length = 2 ^ k := by
  refine ⟨rfl, ?_⟩
  rintro ⟨k, hk⟩
  have := Nat.two_pow_pos k
  simp only [empty, length_nil] at hk
  omega

/-- Runs of one program from any two constructors, with any two lawful hashes, show the same outputs and leave the same
array, those of the list semantics. -/
theorem hashing_unobservable {ops₁ ops₂ : KeyOps κ} (hl₁ : ops₁.Lawful) (hl₂ : ops₂.Lawful)
    (heq : ops₁.eq = ops₂.eq) (maker₁ maker₂ : Maker) {map₁ map₂ : HashMap κ ν}
    (hm₁ : maker₁.make = .ok map₁) (hm₂ : maker₂.make = .ok map₂) (program : List (Op κ ν)) :
    ∃ final₁ final₂ outputs, run ops₁ map₁ program = .ok (final₁, outputs) ∧
      run ops₂ map₂ program = .ok (final₂, outputs) ∧ toArray final₁ = toArray final₂ ∧
      Spec.run ops₁.eq [] program = (toArray final₁, outputs) := by
  obtain ⟨he₁, hv₁⟩ := make_ok ops₁ hm₁
  obtain ⟨he₂, hv₂⟩ := make_ok ops₂ hm₂
  obtain ⟨final₁, hrun₁, -, harray₁⟩ := run_spec hl₁ program hv₁
  obtain ⟨final₂, hrun₂, -, harray₂⟩ := run_spec hl₂ program hv₂
  have h₁ : toArray map₁ = [] := by rw [toArray, he₁]; rfl
  have h₂ : toArray map₂ = [] := by rw [toArray, he₂]; rfl
  rw [h₁] at hrun₁ harray₁
  rw [h₂, ← heq] at hrun₂ harray₂
  refine ⟨final₁, final₂, _, hrun₁, hrun₂, harray₁.trans harray₂.symm, ?_⟩
  rw [harray₁]

def collidingOps : KeyOps Nat where
  eq := fun a b => a == b
  hash := fun _ => 0

theorem collidingOps_lawful : collidingOps.Lawful :=
  ⟨natOps_lawful.refl, natOps_lawful.symm, natOps_lawful.trans, fun _ _ _ => rfl⟩

def sample : List (Op Nat Nat) := [.insert 1 10, .insert 9 90, .remove 1, .get 9]

theorem hashing_unobservable_colliding : ∃ (final₁ final₂ : HashMap Nat Nat) (outputs : List (Output Nat Nat)),
      run natOps empty sample = .ok (final₁, outputs) ∧
      run collidingOps (withSeed 2026) sample = .ok (final₂, outputs) ∧
      toArray final₁ = toArray final₂ ∧
      Spec.run natOps.eq [] sample = (toArray final₁, outputs) :=
  hashing_unobservable natOps_lawful collidingOps_lawful rfl .empty (.withSeed 2026) rfl rfl sample

end Tsuzuri.HashMap
