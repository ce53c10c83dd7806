import Tsuzuri.RegistrySound

/-!
# The walk and the selection

The walk from the root meets each name of the closure once, with the requirement that reached it
first.
-/

namespace Tsuzuri.Registry

open List

open Std (TreeMap TreeSet)

variable {series : ℕ ×ₗ ℕ} {version : Version} {entry : IndexEntry} {name : String}

section Closure

variable {files : TreeMap String IndexFile} {roots : List Requirement} {name : String} {version other : Version}

theorem Needed.visits (h : Needed files roots name version) : Visits files roots name version := by
  induction h with
  | root hroot => exact .root hroot
  | step _ hnewest hentry hdependency _ => exact hnewest.visits.step hentry hdependency

theorem IsNewest.unique (h : IsNewest files roots name series version)
    (h' : IsNewest files roots name series other) : version = other :=
  le_antisymm (h'.newest version h.visits h.same) (h.newest other h'.visits h'.same)

theorem IsNewest.satisfies (h : IsNewest files roots name other.series version)
    (hvisits : Visits files roots name other) : version.satisfies other = true := by
  simp only [Version.satisfies, Version.compatible, h.same, decide_true, Bool.true_and, decide_eq_true_eq]
  exact h.newest other hvisits rfl

theorem Chosen.unique (hconflict : ¬Conflict files roots) (h : Chosen files roots name version)
    (h' : Chosen files roots name other) : version = other := by
  obtain ⟨required, hneeded, hnewest⟩ := h
  obtain ⟨required', hneeded', hnewest'⟩ := h'
  have hseries : required.series = required'.series := by
    by_contra hne
    exact hconflict ⟨name, required, required', hneeded, hneeded', hne⟩
  exact hnewest.unique (hseries ▸ hnewest')

end Closure

/-! ## The walk -/

section Walk

variable {files : TreeMap String IndexFile} {roots : List Requirement} {visit : Visit} {newest : Newest}
  {reached : TreeMap String Requirement} {pending : List Requirement} {requirement : Requirement}

def Covered (reached : TreeMap String Requirement) (pending : List Requirement) (name : String)
    (version : Version) : Prop :=
  (∃ r ∈ pending, r.name = name ∧ r.version = version) ∨
    ∃ r, reached[name]? = some r ∧ r.version.series = version.series

structure Walking (files : TreeMap String IndexFile) (roots : List Requirement) (reached : TreeMap String Requirement)
    (pending : List Requirement) : Prop where
  stacked : ∀ r ∈ pending, Needed files roots r.name r.version
  met : ∀ (name : String) (r : Requirement), reached[name]? = some r → Needed files roots name r.version
  closed : ∀ (name : String) (r : Requirement), reached[name]? = some r → ∀ (chosen : Version) (entry : IndexEntry),
    IsNewest files roots name r.version.series chosen → entryOf files name chosen = some entry →
      ∀ dependency minimum, (dependency, minimum) ∈ entry.dependencies → Covered reached pending dependency minimum
  roots : ∀ r ∈ roots, Covered reached pending r.name r.version

theorem Walking.pop (h : Walking files roots reached (requirement :: pending)) {first : Requirement}
    (hfirst : reached[requirement.name]? = some first) (hseries : first.version.series = requirement.version.series) :
    Walking files roots reached pending := by
  have hcovered : ∀ name version, Covered reached (requirement :: pending) name version →
      Covered reached pending name version := by
    rintro name version (⟨r, hr, rfl, rfl⟩ | hreached)
    · rcases mem_cons.mp hr with rfl | hr
      · exact .inr ⟨first, hfirst, hseries⟩
      · exact .inl ⟨r, hr, rfl, rfl⟩
    · exact .inr hreached
  exact ⟨fun r hr => h.stacked r (mem_cons_of_mem _ hr), h.met,
    fun name r hr chosen entry hnewest hentry dependency minimum hdependency =>
      hcovered _ _ (h.closed name r hr chosen entry hnewest hentry dependency minimum hdependency),
    fun r hr => hcovered _ _ (h.roots r hr)⟩

theorem Walking.push (h : Walking files roots reached (requirement :: pending))
    (hnone : reached[requirement.name]? = none)
    (hnewest : IsNewest files roots requirement.name requirement.version.series version)
    (hentry : entryOf files requirement.name version = some entry) :
    Walking files roots (reached.insert requirement.name requirement)
      (entry.requirements requirement version ++ pending) := by
  have hneeded := h.stacked requirement mem_cons_self
  have hget : ∀ name : String, (reached.insert requirement.name requirement)[name]? =
      if requirement.name = name then some requirement else reached[name]? := fun name => by
    simp only [TreeMap.getElem?_insert, Std.LawfulEqCmp.compare_eq_iff_eq]
  have hcovered : ∀ name minimum, Covered reached (requirement :: pending) name minimum →
      Covered (reached.insert requirement.name requirement) (entry.requirements requirement version ++ pending) name
        minimum := by
    rintro name minimum (⟨r, hr, rfl, rfl⟩ | ⟨r, hr, hseries⟩)
    · rcases mem_cons.mp hr with rfl | hr
      · exact .inr ⟨r, by rw [hget, if_pos rfl], rfl⟩
      · exact .inl ⟨r, mem_append_right _ hr, rfl, rfl⟩
    · refine .inr ⟨r, ?_, hseries⟩
      rw [hget, if_neg fun heq => by rw [heq, hr] at hnone; cases hnone]
      exact hr
  have hadded : ∀ dependency minimum, (dependency, minimum) ∈ entry.dependencies →
      Covered (reached.insert requirement.name requirement) (entry.requirements requirement version ++ pending)
        dependency minimum := fun dependency minimum hdependency =>
    .inl ⟨_, mem_append_left _ (mem_map.mpr ⟨(dependency, minimum), hdependency, rfl⟩), rfl, rfl⟩
  refine ⟨fun r hr => ?_, fun name r hr => ?_, fun name r hr chosen entry' hnewest' hentry' => ?_,
    fun r hr => hcovered _ _ (h.roots r hr)⟩
  · rcases mem_append.mp hr with hr | hr
    · obtain ⟨⟨dependency, minimum⟩, hdependency, rfl⟩ := mem_map.mp hr
      exact hneeded.step hnewest hentry hdependency
    · exact h.stacked r (mem_cons_of_mem _ hr)
  · rw [hget] at hr
    split at hr
    · rename_i heq
      cases hr
      exact heq ▸ hneeded
    · exact h.met name r hr
  · rw [hget] at hr
    split at hr
    · rename_i heq
      cases hr
      subst heq
      obtain rfl := hnewest.unique hnewest'
      obtain rfl := Option.some.inj (hentry.symm.trans hentry')
      exact hadded
    · exact fun dependency minimum hdependency =>
        hcovered _ _ (h.closed name r hr chosen entry' hnewest' hentry' dependency minimum hdependency)

def weight (visit : Visit) (reached : TreeMap String Requirement) (key : String ×ₗ Version) : Nat :=
  if reached.contains (ofLex key).1 then 0
  else match visit.index.entries[(ofLex key).1]? >>= fun versions => versions[(ofLex key).2]? with
    | some entry => entry.dependencies.length
    | none => 0

theorem total_le {α : Type} {f g : α → Nat} (keys : List α) (hle : ∀ x, f x ≤ g x) :
    (keys.map f).foldr (· + ·) 0 ≤ (keys.map g).foldr (· + ·) 0 := by
  induction keys with
  | nil => exact le_rfl
  | cons x keys ih => exact Nat.add_le_add (hle x) ih

theorem total_add_le {α : Type} {f g : α → Nat} {a : α} {k : Nat} {keys : List α} (hmem : a ∈ keys)
    (hle : ∀ x, f x ≤ g x) (ha : f a + k ≤ g a) : (keys.map f).foldr (· + ·) 0 + k ≤ (keys.map g).foldr (· + ·) 0 := by
  induction keys with
  | nil => cases hmem
  | cons x keys ih =>
    simp only [map_cons, foldr_cons]
    rcases mem_cons.mp hmem with rfl | hmem
    · have hrest := total_le keys hle
      omega
    · have hrest := ih hmem
      have hx := hle x
      omega

theorem weight_insert (hnone : reached[requirement.name]? = none)
    (hmem : (toLex (requirement.name, version) : String ×ₗ Version) ∈ visit.visited)
    (hentry : (visit.index.entries[requirement.name]? >>= fun versions => versions[version]?) = some entry) :
    (visit.visited.toList.map (weight visit (reached.insert requirement.name requirement))).foldr (· + ·) 0 +
        entry.dependencies.length ≤ (visit.visited.toList.map (weight visit reached)).foldr (· + ·) 0 := by
  have hout : ¬reached.contains requirement.name := by
    rw [TreeMap.contains_eq_isSome_getElem?, hnone]
    simp
  refine total_add_le (TreeSet.mem_toList.mpr hmem) (fun key => ?_) ?_
  · simp only [weight]
    by_cases hkey : reached.contains (ofLex key).1
    · rw [if_pos (by rw [TreeMap.contains_insert, hkey, Bool.or_true])]
      exact Nat.zero_le _
    · rw [if_neg hkey]
      split
      · exact Nat.zero_le _
      · exact le_rfl
  · have hzero : weight visit (reached.insert requirement.name requirement) (toLex (requirement.name, version)) = 0 :=
      if_pos TreeMap.contains_insert_self
    have hpays : weight visit reached (toLex (requirement.name, version)) = entry.dependencies.length := by
      refine (if_neg hout).trans ?_
      simp only [ofLex_toLex, hentry]
    rw [hzero, hpays, zero_add]

theorem reach_spec (hvisit : Visited files roots visit newest) (fuel : Nat) : ∀ {reached : TreeMap String Requirement}
    {pending : List Requirement}, Walking files roots reached pending →
    pending.length + (visit.visited.toList.map (weight visit reached)).foldr (· + ·) 0 ≤ fuel →
    (∃ reached', reach visit.index newest fuel reached pending = .ok reached' ∧ Walking files roots reached' []) ∨
      ∃ first requirement, reach visit.index newest fuel reached pending =
        .error (.error (incompatible first requirement)) ∧ Conflict files roots := by
  induction fuel with
  | zero =>
    intro reached pending h hfuel
    obtain rfl := eq_nil_of_length_eq_zero (by omega : pending.length = 0)
    exact .inl ⟨reached, by simp [reach], h⟩
  | succ fuel ih =>
    intro reached pending h hfuel
    cases pending with
    | nil => exact .inl ⟨reached, by simp [reach], h⟩
    | cons requirement pending =>
      have hneeded := h.stacked requirement mem_cons_self
      obtain ⟨version, hversion, hnewest⟩ := hvisit.newest _ _ hneeded.visits
      rw [length_cons] at hfuel
      simp only [reach, hversion]
      cases hfirst : reached[requirement.name]? with
      | some first =>
        simp only
        by_cases hseries : first.version.series = requirement.version.series
        · rw [if_neg (not_not.mpr hseries)]
          exact ih (h.pop hfirst hseries) (by omega)
        · rw [if_pos hseries]
          exact .inr ⟨first, requirement, rfl, requirement.name, first.version, requirement.version,
            h.met _ _ hfirst, hneeded, hseries⟩
      | none =>
        obtain ⟨entry, hentry, hentryOf⟩ := hvisit.entry _ _ hnewest.visits
        simp only [hentry]
        have hweight := weight_insert hfirst ((hvisit.visited _ _).mpr hnewest.visits) hentry
        refine ih (h.push hfirst hnewest hentryOf) ?_
        rw [length_append, IndexEntry.requirements, length_map]
        omega

theorem Walking.reaches (h : Walking files roots reached []) (hneeded : Needed files roots name version) :
    ∃ r, reached[name]? = some r ∧ r.version.series = version.series := by
  have hcovered : ∀ name version, Covered reached [] name version →
      ∃ r, reached[name]? = some r ∧ r.version.series = version.series := by
    rintro name version (⟨r, hr, -⟩ | hreached)
    · cases hr
    · exact hreached
  induction hneeded with
  | root hroot => exact hcovered _ _ (h.roots _ hroot)
  | step _ hnewest hentry hdependency ih =>
    obtain ⟨r, hr, hseries⟩ := ih
    exact hcovered _ _ (h.closed _ r hr _ _ (hseries ▸ hnewest) hentry _ _ hdependency)

theorem Walking.no_conflict (h : Walking files roots reached []) : ¬Conflict files roots := by
  rintro ⟨name, version, other, hversion, hother, hne⟩
  obtain ⟨r, hr, hseries⟩ := h.reaches hversion
  obtain ⟨r', hr', hseries'⟩ := h.reaches hother
  obtain rfl := Option.some.inj (hr.symm.trans hr')
  exact hne (hseries.symm.trans hseries')

end Walk

section Fetch

variable {files : TreeMap String IndexFile} {roots : List Requirement} {visit : Visit} {newest : Newest}
  {fetchPackage : String → Version → IndexEntry → Location → Except SourceError Unit}
  {selected : TreeMap String Version} {name : String} {requirement : Requirement}

def FetchFails (files : TreeMap String IndexFile) (roots : List Requirement)
    (fetchPackage : String → Version → IndexEntry → Location → Except SourceError Unit) (error : SourceError) : Prop :=
  ∃ (name : String) (version : Version) (entry : IndexEntry) (location : Location), Chosen files roots name version ∧
    entryOf files name version = some entry ∧ fetchPackage name version entry location = .error error

def Fetched (files : TreeMap String IndexFile) (roots : List Requirement)
    (fetchPackage : String → Version → IndexEntry → Location → Except SourceError Unit) (name : String)
    (version : Version) : Prop :=
  Chosen files roots name version ∧ ∃ (entry : IndexEntry) (location : Location),
    entryOf files name version = some entry ∧ fetchPackage name version entry location = .ok ()

theorem fetchOne_spec (hvisit : Visited files roots visit newest)
    (hneeded : Needed files roots name requirement.version) :
    (∃ version, Fetched files roots fetchPackage name version ∧
      fetchOne visit.index newest fetchPackage selected (name, requirement) = .ok (selected.insert name version)) ∨
    ∃ error, FetchFails files roots fetchPackage error ∧
      fetchOne visit.index newest fetchPackage selected (name, requirement) = .error (.error error) := by
  obtain ⟨version, hversion, hnewest⟩ := hvisit.newest _ _ hneeded.visits
  obtain ⟨entry, hentry, hentryOf⟩ := hvisit.entry _ _ hnewest.visits
  simp only [fetchOne, hversion, hentry]
  cases hfetch : fetchPackage name version entry requirement.location with
  | ok => exact .inl ⟨version, ⟨⟨_, hneeded, hnewest⟩, entry, requirement.location, hentryOf, hfetch⟩, rfl⟩
  | error error =>
    exact .inr ⟨error, ⟨name, version, entry, requirement.location, ⟨_, hneeded, hnewest⟩, hentryOf, hfetch⟩, rfl⟩

theorem fetchAll_spec (hvisit : Visited files roots visit newest) (entries : List (String × Requirement))
    (hentries : ∀ entry ∈ entries, Needed files roots entry.1 entry.2.version) : ∀ {selected : TreeMap String Version},
    (∀ (name : String) (version : Version), selected[name]? = some version →
      Fetched files roots fetchPackage name version) →
    (∃ selected', entries.foldlM (fetchOne visit.index newest fetchPackage) selected = .ok selected' ∧
      (∀ (name : String) (version : Version), selected'[name]? = some version →
        Fetched files roots fetchPackage name version) ∧
      (∀ name ∈ selected, name ∈ selected') ∧ ∀ entry ∈ entries, entry.1 ∈ selected') ∨
    ∃ error, FetchFails files roots fetchPackage error ∧
      entries.foldlM (fetchOne visit.index newest fetchPackage) selected = .error (.error error) := by
  induction entries with
  | nil => exact fun h => .inl ⟨_, rfl, h, fun _ hname => hname, fun _ hentry => absurd hentry not_mem_nil⟩
  | cons entry entries ih =>
    intro selected h
    obtain ⟨name, requirement⟩ := entry
    have hneeded := hentries _ mem_cons_self
    rw [foldlM_cons]
    rcases fetchOne_spec hvisit hneeded with ⟨version, hfetched, hone⟩ | ⟨error, hfails, hone⟩
    · rw [hone]
      have hgot : ∀ (other : String) (version' : Version), (selected.insert name version)[other]? = some version' →
          Fetched files roots fetchPackage other version' := by
        intro other version' hget
        simp only [TreeMap.getElem?_insert, Std.LawfulEqCmp.compare_eq_iff_eq] at hget
        split at hget
        · rename_i heq
          cases hget
          exact heq ▸ hfetched
        · exact h other version' hget
      refine (ih (fun entry hentry => hentries entry (mem_cons_of_mem _ hentry)) hgot).imp_left ?_
      rintro ⟨selected', hfold, hgot', hkept, hall⟩
      refine ⟨selected', hfold, hgot', fun other hother => hkept other (TreeMap.mem_insert.mpr (.inr hother)),
        fun entry hentry => ?_⟩
      rcases mem_cons.mp hentry with rfl | hentry
      · exact hkept name (TreeMap.mem_insert.mpr (.inl Std.ReflCmp.compare_self))
      · exact hall entry hentry
    · exact .inr ⟨error, hfails, by rw [hone]; rfl⟩

end Fetch

section Select

variable {files : TreeMap String IndexFile} {roots : List Requirement}
  {fetchPackage : String → Version → IndexEntry → Location → Except SourceError Unit}

structure Selects (files : TreeMap String IndexFile) (roots : List Requirement)
    (fetchPackage : String → Version → IndexEntry → Location → Except SourceError Unit)
    (selected : TreeMap String Version) : Prop where
  chosen : ∀ (name : String) (version : Version), selected[name]? = some version ↔ Chosen files roots name version
  newest : ∀ (name : String) (version : Version), Needed files roots name version →
    ∃ chosen, IsNewest files roots name version.series chosen
  conflict : ¬Conflict files roots
  fetched : ∀ (name : String) (version : Version), Chosen files roots name version →
    Fetched files roots fetchPackage name version

theorem choose_spec {visit : Visit} (hvisit : Visited files roots visit (newestOf visit.required)) :
    (∃ selected, choose roots visit fetchPackage = .ok selected ∧ Selects files roots fetchPackage selected) ∨
    (∃ first requirement, choose roots visit fetchPackage = .error (.error (incompatible first requirement)) ∧
      Conflict files roots) ∨ ∃ error, choose roots visit fetchPackage = .error (.error error) ∧ ¬Conflict files roots ∧
      FetchFails files roots fetchPackage error := by
  have hstart : Walking files roots ∅ roots := by
    refine ⟨fun r hr => .root hr, fun name r hr => ?_, fun name r hr => ?_, fun r hr => .inl ⟨r, hr, rfl, rfl⟩⟩
    · simp at hr
    · simp at hr
  have hfuel : roots.length + (visit.visited.toList.map (weight visit ∅)).foldr (· + ·) 0 ≤ walkFuel roots visit :=
    le_rfl
  rcases reach_spec hvisit _ hstart hfuel with ⟨reached, hreach, hwalked⟩ | ⟨first, requirement, hreach, hconflict⟩
  · have hneeded : ∀ entry ∈ reached.toList, Needed files roots entry.1 entry.2.version := fun entry hentry =>
      hwalked.met _ _ (TreeMap.mem_toList_iff_getElem?_eq_some.mp hentry)
    have hnone : ∀ (name : String) (version : Version), (∅ : TreeMap String Version)[name]? = some version →
        Fetched files roots fetchPackage name version := fun name version h => by simp at h
    rcases fetchAll_spec hvisit _ hneeded hnone with ⟨selected, hfold, hgot, -, hall⟩ | ⟨error, hfails, hfold⟩
    · have hchosen : ∀ (name : String) (version : Version), selected[name]? = some version ↔
          Chosen files roots name version := by
        refine fun name version => ⟨fun h => (hgot name version h).1, fun h => ?_⟩
        have ⟨required, hrequired, _⟩ := h
        obtain ⟨r, hr, -⟩ := hwalked.reaches hrequired
        have hmem := hall (name, r) (TreeMap.mem_toList_iff_getElem?_eq_some.mpr hr)
        rw [TreeMap.mem_iff_isSome_getElem?, Option.isSome_iff_exists] at hmem
        obtain ⟨version', hversion'⟩ := hmem
        rw [hversion', (hgot name version' hversion').1.unique hwalked.no_conflict h]
      refine .inl ⟨selected, ?_, hchosen, fun name version hneeded => ?_, hwalked.no_conflict,
        fun name version h => hgot name version ((hchosen name version).mpr h)⟩
      · simp only [choose, bind, Except.bind, hreach, hfold]
      · obtain ⟨chosen, -, hnewest⟩ := hvisit.newest _ _ hneeded.visits
        exact ⟨chosen, hnewest⟩
    · refine .inr (.inr ⟨error, ?_, hwalked.no_conflict, hfails⟩)
      simp only [choose, bind, Except.bind, hreach, hfold]
  · refine .inr (.inl ⟨first, requirement, ?_, hconflict⟩)
    simp only [choose, bind, Except.bind, hreach]

theorem select_cases (location : Location) (files : TreeMap String IndexFile)
    (fetchPackage : String → Version → IndexEntry → Location → Except SourceError Unit) (hroots : roots ≠ []) :
    (∃ selected, select roots (some (location, .ok files)) fetchPackage = .ok selected ∧ Complete files roots ∧
      Selects files roots fetchPackage selected) ∨
    (∃ first requirement, select roots (some (location, .ok files)) fetchPackage =
      .error (.error (incompatible first requirement)) ∧ Complete files roots ∧ Conflict files roots) ∨
    (∃ error, select roots (some (location, .ok files)) fetchPackage = .error (.error error) ∧ Complete files roots ∧
      ¬Conflict files roots ∧ FetchFails files roots fetchPackage error) ∨
    ∃ error, select roots (some (location, .ok files)) fetchPackage = .error (.error error) ∧
      ¬Complete files roots ∧ error.kind ≠ .incompatibleDependencyVersions := by
  obtain ⟨first, rest, rfl⟩ := exists_cons_of_ne_nil hroots
  have hstart : Visiting files (first :: rest) [] ⟨.open' location files, ∅, ∅, first :: rest⟩ := by
    have hout : ∀ (name : String) (version : Version),
        ¬(toLex (name, version) : String ×ₗ Version) ∈ (∅ : TreeSet (String ×ₗ Version)) := by simp
    refine ⟨rfl, fun name versions h => ?_, fun name version h => absurd h (hout name version),
      fun name version => ⟨fun h => absurd h (hout name version), ?_⟩, fun r hr => .root hr,
      fun name version h => absurd h (hout name version), fun r hr => .inr ⟨r, hr, rfl, rfl⟩⟩
    · simp [Index.open'] at h
    · rintro ⟨r, hr, -⟩
      simp at hr
  have hkeyed : Keyed files (first :: rest) ⟨.open' location files, ∅, ∅, first :: rest⟩ :=
    ⟨by simp, by simp, by simp⟩
  rcases visitAll_spec first.location (maxVersions + 2) hstart hkeyed (by simp) with
    ⟨visit, hvisit, hvisiting, hkeyed', hqueue⟩ | ⟨stop, hvisit, ⟨error, rfl, hkind⟩, hincomplete⟩
  · have hselect : select (first :: rest) (some (location, .ok files)) fetchPackage =
        choose (first :: rest) visit fetchPackage := by
      simp only [select, bind, Except.bind, hvisit]
    have hvisited := hvisiting.visited hqueue
    have hcomplete := hvisited.complete hvisiting hkeyed'
    rw [hselect]
    rcases choose_spec hvisited with ⟨selected, hok, hselects⟩ | ⟨r, r', herror, hconflict⟩ |
      ⟨error, herror, hnone, hfails⟩
    · exact .inl ⟨selected, hok, hcomplete, hselects⟩
    · exact .inr (.inl ⟨r, r', herror, hcomplete, hconflict⟩)
    · exact .inr (.inr (.inl ⟨error, herror, hcomplete, hnone, hfails⟩))
  · refine .inr (.inr (.inr ⟨error, ?_, hincomplete, hkind⟩))
    simp only [select, bind, Except.bind, hvisit]

end Select

/-! ## The order of requirements and of dependencies -/

section Order

/-- The entry with its dependencies in another order. -/
structure IndexEntry.Reordered (entry entry' : IndexEntry) : Prop where
  git : entry.git = entry'.git
  rev : entry.rev = entry'.rev
  sha256 : entry.sha256 = entry'.sha256
  dependencies : entry.dependencies.Perm entry'.dependencies

inductive IndexFile.Reordered : IndexFile → IndexFile → Prop
  | tooLarge : IndexFile.Reordered .tooLarge .tooLarge
  | invalid (detail : String) : IndexFile.Reordered (.invalid detail) (.invalid detail)
  | versions {versions versions' : Versions}
      (h : ∀ version : Version, Option.Rel IndexEntry.Reordered versions[version]? versions'[version]?) :
      IndexFile.Reordered (.versions versions) (.versions versions')

/-- The same requirements and the same index in another order. -/
structure Reordering (files files' : TreeMap String IndexFile) (roots roots' : List Requirement) : Prop where
  files : ∀ name : String, Option.Rel IndexFile.Reordered files[name]? files'[name]?
  roots : roots.Perm roots'

variable {files files' : TreeMap String IndexFile} {roots roots' : List Requirement} {name : String} {version : Version}

theorem rel_symm {α : Type} {r : α → α → Prop} (hsymm : ∀ x y, r x y → r y x) {o o' : Option α}
    (h : Option.Rel r o o') : Option.Rel r o' o := by
  cases h with
  | some h => exact .some (hsymm _ _ h)
  | none => exact .none

theorem IndexEntry.Reordered.symm {entry' : IndexEntry} (h : entry.Reordered entry') : entry'.Reordered entry :=
  ⟨h.git.symm, h.rev.symm, h.sha256.symm, h.dependencies.symm⟩

theorem IndexFile.Reordered.symm {file file' : IndexFile} (h : file.Reordered file') : file'.Reordered file := by
  cases h with
  | tooLarge => exact .tooLarge
  | invalid detail => exact .invalid detail
  | versions h => exact .versions fun version => rel_symm (fun _ _ => IndexEntry.Reordered.symm) (h version)

section

variable (h : Reordering files files' roots roots')

include h

theorem Reordering.symm : Reordering files' files roots' roots :=
  ⟨fun name => rel_symm (fun _ _ => IndexFile.Reordered.symm) (h.files name), h.roots.symm⟩

theorem Reordering.entryOf (hentry : entryOf files name version = some entry) :
    ∃ entry', Registry.entryOf files' name version = some entry' ∧ entry.Reordered entry' := by
  have hfile := h.files name
  unfold Registry.entryOf at hentry ⊢
  cases hget : files[name]? with
  | none =>
    rw [hget] at hentry
    cases hentry
  | some file =>
    rw [hget] at hentry hfile
    cases hget' : files'[name]? with
    | none =>
      rw [hget'] at hfile
      cases hfile
    | some file' =>
      rw [hget'] at hfile
      cases hfile with
      | some hfile =>
        cases hfile with
        | tooLarge => cases hentry
        | invalid detail => cases hentry
        | @versions versions versions' hversions =>
          have hversion := hversions version
          simp only at hentry ⊢
          rw [hentry] at hversion
          cases hget'' : versions'[version]? with
          | none =>
            rw [hget''] at hversion
            cases hversion
          | some entry' =>
            rw [hget''] at hversion
            cases hversion with
            | some hsame => exact ⟨entry', rfl, hsame⟩

theorem Reordering.visits (hvisits : Visits files roots name version) : Visits files' roots' name version := by
  induction hvisits with
  | root hroot => exact .root (h.roots.mem_iff.mp hroot)
  | step _ hentry hdependency ih =>
    obtain ⟨entry', hentry', hsame⟩ := h.entryOf hentry
    exact ih.step hentry' (hsame.dependencies.mem_iff.mp hdependency)

theorem Reordering.isNewest (hnewest : IsNewest files roots name series version) :
    IsNewest files' roots' name series version :=
  ⟨h.visits hnewest.visits, hnewest.same, fun other hother => hnewest.newest other (h.symm.visits hother)⟩

theorem Reordering.needed (hneeded : Needed files roots name version) : Needed files' roots' name version := by
  induction hneeded with
  | root hroot => exact .root (h.roots.mem_iff.mp hroot)
  | step _ hnewest hentry hdependency ih =>
    obtain ⟨entry', hentry', hsame⟩ := h.entryOf hentry
    exact ih.step (h.isNewest hnewest) hentry' (hsame.dependencies.mem_iff.mp hdependency)

theorem Reordering.chosen : Chosen files roots name version ↔ Chosen files' roots' name version := by
  constructor
  · rintro ⟨required, hneeded, hnewest⟩
    exact ⟨required, h.needed hneeded, h.isNewest hnewest⟩
  · rintro ⟨required, hneeded, hnewest⟩
    exact ⟨required, h.symm.needed hneeded, h.symm.isNewest hnewest⟩

theorem Reordering.conflict : Conflict files roots ↔ Conflict files' roots' := by
  constructor
  · rintro ⟨name, version, other, hversion, hother, hne⟩
    exact ⟨name, version, other, h.needed hversion, h.needed hother, hne⟩
  · rintro ⟨name, version, other, hversion, hother, hne⟩
    exact ⟨name, version, other, h.symm.needed hversion, h.symm.needed hother, hne⟩

theorem Reordering.of_complete (hcomplete : Complete files roots) : Complete files' roots' := by
  obtain ⟨names, hnames, hpackages⟩ := hcomplete.packages
  obtain ⟨keys, hkeys, hversions⟩ := hcomplete.versions
  refine ⟨fun name version hvisits hnone => ?_,
    ⟨names, hnames, fun name version hvisits => hpackages name version (h.symm.visits hvisits)⟩,
    ⟨keys, hkeys, fun name version hvisits => hversions name version (h.symm.visits hvisits)⟩⟩
  obtain ⟨entry, hentry⟩ :=
    Option.ne_none_iff_exists'.mp (hcomplete.present name version (h.symm.visits hvisits))
  obtain ⟨entry', hentry', -⟩ := h.entryOf hentry
  rw [hentry'] at hnone
  cases hnone

end

theorem Reordering.complete (h : Reordering files files' roots roots') :
    Complete files roots ↔ Complete files' roots' :=
  ⟨h.of_complete, h.symm.of_complete⟩

end Order

/-! ## Minimal version selection -/

section Minimal

/-- The root or a selected version requires the package at the version. -/
inductive Requires (files : TreeMap String IndexFile) (roots : List Requirement) (selected : TreeMap String Version) :
    String → Version → Prop
  | root {requirement : Requirement} (h : requirement ∈ roots) :
      Requires files roots selected requirement.name requirement.version
  | step {name dependency : String} {required version minimum : Version} {entry : IndexEntry}
      (h : Requires files roots selected name required) (hselected : selected[name]? = some version)
      (hentry : entryOf files name version = some entry) (hdependency : (dependency, minimum) ∈ entry.dependencies) :
      Requires files roots selected dependency minimum

/-- The selected packages are those that the roots require, each in the newest of the minima of its series. -/
structure Minimal (files : TreeMap String IndexFile) (roots : List Requirement) (selected : TreeMap String Version) :
    Prop where
  closure : ∀ name : String, name ∈ selected ↔ ∃ minimum, Requires files roots selected name minimum
  satisfied : ∀ (name : String) (minimum : Version), Requires files roots selected name minimum →
    ∃ version : Version, selected[name]? = some version ∧ version.satisfies minimum
  newest : ∀ (name : String) (version : Version), selected[name]? = some version →
    IsNewest files roots name version.series version

def Steady (fetchPackage : String → Version → IndexEntry → Location → Except SourceError Unit) : Prop :=
  ∀ name version entry entry' location location', IndexEntry.Reordered entry entry' →
    fetchPackage name version entry location = .ok () → fetchPackage name version entry' location' = .ok ()

/-- The selection ends with an `IncompatibleDependencyVersions` error. -/
def Incompatible (result : Except Stop (TreeMap String Version)) : Prop :=
  ∃ error, result = .error (.error error) ∧ error.kind = .incompatibleDependencyVersions

variable {files files' : TreeMap String IndexFile} {roots roots' : List Requirement}
  {fetchPackage : String → Version → IndexEntry → Location → Except SourceError Unit}
  {selected : TreeMap String Version} {location : Location}

theorem Selects.requires_iff (h : Selects files roots fetchPackage selected) :
    Requires files roots selected name version ↔ Needed files roots name version := by
  constructor
  · intro hrequires
    induction hrequires with
    | root hroot => exact .root hroot
    | step _ hselected hentry hdependency ih =>
      obtain ⟨required, hrequired, hnewest⟩ := (h.chosen _ _).mp hselected
      exact hrequired.step hnewest hentry hdependency
  · intro hneeded
    induction hneeded with
    | root hroot => exact .root hroot
    | step hneeded hnewest hentry hdependency ih =>
      exact ih.step ((h.chosen _ _).mpr ⟨_, hneeded, hnewest⟩) hentry hdependency

theorem Selects.minimal (h : Selects files roots fetchPackage selected) : Minimal files roots selected := by
  refine ⟨fun name => ⟨fun hmem => ?_, fun ⟨minimum, hrequires⟩ => ?_⟩, fun name minimum hrequires => ?_,
    fun name version hversion => ?_⟩
  · rw [TreeMap.mem_iff_isSome_getElem?, Option.isSome_iff_exists] at hmem
    obtain ⟨version, hversion⟩ := hmem
    obtain ⟨required, hrequired, -⟩ := (h.chosen name version).mp hversion
    exact ⟨required, h.requires_iff.mpr hrequired⟩
  · obtain ⟨chosen, hnewest⟩ := h.newest name minimum (h.requires_iff.mp hrequires)
    rw [TreeMap.mem_iff_isSome_getElem?, (h.chosen name chosen).mpr ⟨_, h.requires_iff.mp hrequires, hnewest⟩]
    rfl
  · have hneeded := h.requires_iff.mp hrequires
    obtain ⟨chosen, hnewest⟩ := h.newest name minimum hneeded
    exact ⟨chosen, (h.chosen name chosen).mpr ⟨_, hneeded, hnewest⟩, hnewest.satisfies hneeded.visits⟩
  · obtain ⟨required, -, hnewest⟩ := (h.chosen name version).mp hversion
    exact hnewest.same.symm ▸ hnewest

theorem incompatible_iff (hroots : roots ≠ []) (hfetch : ∀ name version entry location error,
    fetchPackage name version entry location = .error error → error.kind ≠ .incompatibleDependencyVersions) :
    Incompatible (select roots (some (location, .ok files)) fetchPackage) ↔
      Complete files roots ∧ Conflict files roots := by
  rcases select_cases location files fetchPackage hroots with
    ⟨selected, hselect, hcomplete, hselects⟩ | ⟨first, requirement, hselect, hcomplete, hconflict⟩ |
    ⟨error, hselect, hcomplete, hnone, name, version, entry, location, -, -, hfails⟩ | ⟨error, hselect, hnone, hkind⟩
  all_goals rw [hselect]
  · refine ⟨?_, fun h => absurd h.2 hselects.conflict⟩
    rintro ⟨error, herror, -⟩
    cases herror
  · refine ⟨fun _ => ⟨hcomplete, hconflict⟩, fun _ => ⟨incompatible first requirement, rfl, ?_⟩⟩
    simp only [incompatible]
    split <;> rfl
  · refine ⟨?_, fun h => absurd h.2 hnone⟩
    rintro ⟨error', herror, hkind⟩
    obtain rfl := Stop.error.inj (Except.error.inj herror)
    exact absurd hkind (hfetch _ _ _ _ _ hfails)
  · refine ⟨?_, fun h => absurd h.1 hnone⟩
    rintro ⟨error', herror, hkind'⟩
    obtain rfl := Stop.error.inj (Except.error.inj herror)
    exact absurd hkind' hkind

theorem select_reordered (h : Reordering files files' roots roots') (hroots : roots ≠ [])
    (hsteady : Steady fetchPackage) {selected : TreeMap String Version}
    (hselect : select roots (some (location, .ok files)) fetchPackage = .ok selected) :
    ∃ selected', select roots' (some (location, .ok files')) fetchPackage = .ok selected' ∧
      ∀ name : String, selected'[name]? = selected[name]? := by
  have hroots' : roots' ≠ [] := fun heq => hroots (heq ▸ h.roots).eq_nil
  rcases select_cases location files fetchPackage hroots with
    ⟨selected₁, hselect₁, hcomplete, hselects⟩ | ⟨_, _, hselect₁, -⟩ | ⟨_, hselect₁, -⟩ | ⟨_, hselect₁, -⟩
  · obtain rfl := Except.ok.inj (hselect₁.symm.trans hselect)
    rcases select_cases location files' fetchPackage hroots' with
      ⟨selected', hselect', -, hselects'⟩ | ⟨_, _, -, -, hconflict⟩ |
      ⟨error, -, -, -, name, version, entry', location', hchosen, hentry', hfails⟩ | ⟨_, -, hnone, -⟩
    · refine ⟨selected', hselect', fun name => Option.ext fun version => ?_⟩
      rw [hselects'.chosen, hselects.chosen]
      exact h.chosen.symm
    · exact absurd (h.conflict.mpr hconflict) hselects.conflict
    · obtain ⟨-, entry, location₁, hentry, hfetch⟩ := hselects.fetched name version (h.chosen.mpr hchosen)
      obtain ⟨entry'', hentry'', hsame⟩ := h.entryOf hentry
      obtain rfl := Option.some.inj (hentry'.symm.trans hentry'')
      rw [hsteady _ _ _ _ _ location' hsame hfetch] at hfails
      cases hfails
    · exact absurd (h.complete.mp hcomplete) hnone
  all_goals
    rw [hselect₁] at hselect
    cases hselect

/-- The selection is minimal version selection: no lookup fails, what is selected is minimal, incompatible versions
are reported exactly when the index is complete and the closure has two series of one name, and neither that nor
the selection depends on the order of the requirements and of the dependencies. -/
theorem select_minimal (location : Location) (files : TreeMap String IndexFile) (roots : List Requirement)
    (fetchPackage : String → Version → IndexEntry → Location → Except SourceError Unit) (hroots : roots ≠ [])
    (hfetch : ∀ name version entry location error, fetchPackage name version entry location = .error error →
      error.kind ≠ .incompatibleDependencyVersions)
    (hsteady : Steady fetchPackage) :
    select roots (some (location, .ok files)) fetchPackage ≠ .error .panic ∧
    select roots (some (location, .ok files)) fetchPackage ≠ .error .fuel ∧
    (∀ selected, select roots (some (location, .ok files)) fetchPackage = .ok selected → Minimal files roots selected) ∧
    (Incompatible (select roots (some (location, .ok files)) fetchPackage) ↔
      Complete files roots ∧ Conflict files roots) ∧
    ∀ files' roots', Reordering files files' roots roots' →
      (Incompatible (select roots' (some (location, .ok files')) fetchPackage) ↔
        Incompatible (select roots (some (location, .ok files)) fetchPackage)) ∧
      ∀ selected, select roots (some (location, .ok files)) fetchPackage = .ok selected →
        ∃ selected', select roots' (some (location, .ok files')) fetchPackage = .ok selected' ∧
          ∀ name : String, selected'[name]? = selected[name]? := by
  have hends : ∀ stop, select roots (some (location, .ok files)) fetchPackage = .error stop →
      ∃ error, stop = .error error := by
    intro stop hstop
    rcases select_cases location files fetchPackage hroots with
      ⟨_, hselect, -⟩ | ⟨_, _, hselect, -⟩ | ⟨_, hselect, -⟩ | ⟨_, hselect, -⟩
    all_goals
      rw [hselect] at hstop
      cases hstop
    all_goals exact ⟨_, rfl⟩
  refine ⟨fun h => ?_, fun h => ?_, fun selected hselect => ?_, incompatible_iff hroots hfetch,
    fun files' roots' h => ⟨?_, fun selected hselect => select_reordered h hroots hsteady hselect⟩⟩
  · obtain ⟨error, herror⟩ := hends _ h
    cases herror
  · obtain ⟨error, herror⟩ := hends _ h
    cases herror
  · rcases select_cases location files fetchPackage hroots with
      ⟨selected', hselect', -, hselects⟩ | ⟨_, _, hselect', -⟩ | ⟨_, hselect', -⟩ | ⟨_, hselect', -⟩
    · obtain rfl := Except.ok.inj (hselect'.symm.trans hselect)
      exact hselects.minimal
    all_goals
      rw [hselect'] at hselect
      cases hselect
  · have hroots' : roots' ≠ [] := fun heq => hroots (heq ▸ h.roots).eq_nil
    rw [incompatible_iff hroots' hfetch, incompatible_iff hroots hfetch, h.complete, h.conflict]

def kindOf : Except Stop (TreeMap String Version) → Option DiagnosticKind
  | .error (.error error) => some error.kind
  | _ => none

/-- `b` and `c` of one project both depend on `d`, at different versions of one series. -/
def diamond : TreeMap String IndexFile :=
  let file (entries : List (Version × IndexEntry)) : IndexFile := .versions (.ofList entries)
  .ofList [("b", file [(⟨1, 0, 0⟩, ⟨"b.git", "1", "b", [("d", ⟨1, 1, 0⟩)]⟩)]),
    ("c", file [(⟨1, 0, 0⟩, ⟨"c.git", "1", "c", [("d", ⟨1, 0, 0⟩)]⟩)]),
    ("d", file [(⟨1, 0, 0⟩, ⟨"d.git", "1", "d", []⟩), (⟨1, 1, 0⟩, ⟨"d.git", "2", "d", []⟩),
      (⟨2, 0, 0⟩, ⟨"d.git", "3", "d", []⟩)])]

def requires (name : String) (version : Version) : Requirement := ⟨name, version, "app", ⟨"Tsuzuri.toml", (0, 0)⟩⟩

theorem select_minimal_diamond : ∃ selected,
    select [requires "b" ⟨1, 0, 0⟩, requires "c" ⟨1, 0, 0⟩] (some (⟨"Tsuzuri.toml", (0, 0)⟩, .ok diamond))
      (fun _ _ _ _ => .ok ()) = .ok selected ∧ selected["d"]? = some ⟨1, 1, 0⟩ ∧
    Minimal diamond [requires "b" ⟨1, 0, 0⟩, requires "c" ⟨1, 0, 0⟩] selected := by
  obtain ⟨-, -, hminimal, -⟩ := select_minimal ⟨"Tsuzuri.toml", (0, 0)⟩ diamond
    [requires "b" ⟨1, 0, 0⟩, requires "c" ⟨1, 0, 0⟩] (fun _ _ _ _ => .ok ()) (by simp) (fun _ _ _ _ _ h => by cases h)
    (fun _ _ _ _ _ _ _ _ => rfl)
  have hd : (select [requires "b" ⟨1, 0, 0⟩, requires "c" ⟨1, 0, 0⟩] (some (⟨"Tsuzuri.toml", (0, 0)⟩, .ok diamond))
      (fun _ _ _ _ => .ok ())).toOption.bind (fun selected => selected["d"]?) = some ⟨1, 1, 0⟩ := by
    decide +kernel
  cases hselect : select [requires "b" ⟨1, 0, 0⟩, requires "c" ⟨1, 0, 0⟩]
      (some (⟨"Tsuzuri.toml", (0, 0)⟩, .ok diamond)) (fun _ _ _ _ => .ok ()) with
  | error stop =>
    rw [hselect] at hd
    cases hd
  | ok selected =>
    rw [hselect] at hd
    exact ⟨selected, rfl, hd, hminimal selected hselect⟩

/-- A missing package hides two series of one name, and which missing one is reported depends on the order. -/
theorem select_reports_first :
    Conflict diamond [requires "d" ⟨1, 0, 0⟩, requires "d" ⟨2, 0, 0⟩, requires "e" ⟨1, 0, 0⟩] ∧
    ¬Incompatible (select [requires "d" ⟨1, 0, 0⟩, requires "d" ⟨2, 0, 0⟩, requires "e" ⟨1, 0, 0⟩]
      (some (⟨"Tsuzuri.toml", (0, 0)⟩, .ok diamond)) (fun _ _ _ _ => .ok ())) ∧
    select [requires "d" ⟨3, 0, 0⟩, requires "e" ⟨1, 0, 0⟩] (some (⟨"Tsuzuri.toml", (0, 0)⟩, .ok diamond))
        (fun _ _ _ _ => .ok ()) ≠
      select [requires "e" ⟨1, 0, 0⟩, requires "d" ⟨3, 0, 0⟩] (some (⟨"Tsuzuri.toml", (0, 0)⟩, .ok diamond))
        (fun _ _ _ _ => .ok ()) := by
  refine ⟨⟨"d", ⟨1, 0, 0⟩, ⟨2, 0, 0⟩, @Needed.root _ _ (requires "d" ⟨1, 0, 0⟩) (by simp),
    @Needed.root _ _ (requires "d" ⟨2, 0, 0⟩) (by simp), by decide⟩, ?_, fun heq => ?_⟩
  · rintro ⟨error, herror, hkind⟩
    have hmissing : kindOf (select [requires "d" ⟨1, 0, 0⟩, requires "d" ⟨2, 0, 0⟩, requires "e" ⟨1, 0, 0⟩]
        (some (⟨"Tsuzuri.toml", (0, 0)⟩, .ok diamond)) (fun _ _ _ _ => .ok ())) = some .registryPackageMissing := by
      decide +kernel
    rw [herror, kindOf, hkind] at hmissing
    cases hmissing
  · have hne : kindOf (select [requires "d" ⟨3, 0, 0⟩, requires "e" ⟨1, 0, 0⟩]
        (some (⟨"Tsuzuri.toml", (0, 0)⟩, .ok diamond)) (fun _ _ _ _ => .ok ())) ≠
        kindOf (select [requires "e" ⟨1, 0, 0⟩, requires "d" ⟨3, 0, 0⟩]
          (some (⟨"Tsuzuri.toml", (0, 0)⟩, .ok diamond)) (fun _ _ _ _ => .ok ())) := by
      decide +kernel
    exact hne (congrArg kindOf heq)

/-- The requirements with selected versions, or all selected versions in place of requirements. -/
structure Pins (selected : TreeMap String Version) (roots roots' : List Requirement) : Prop where
  added : ∀ r ∈ roots', r ∈ roots ∨ selected[r.name]? = some r.version
  kept : (∀ r ∈ roots, r ∈ roots') ∨ ∀ (name : String) (version : Version), selected[name]? = some version →
    ∃ r ∈ roots', r.name = name ∧ r.version = version

theorem Visits.mono (hsub : ∀ r ∈ roots, r ∈ roots') (h : Visits files roots name version) :
    Visits files roots' name version := by
  induction h with
  | root hroot => exact .root (hsub _ hroot)
  | step _ hentry hdependency ih => exact ih.step hentry hdependency

section

variable (h : Selects files roots fetchPackage selected) (hpins : Pins selected roots roots')

include h hpins

theorem Pins.visits (hvisits : Visits files roots' name version) : Visits files roots name version := by
  induction hvisits with
  | root hroot =>
    rcases hpins.added _ hroot with hroot | hselected
    · exact .root hroot
    · obtain ⟨_, -, hnewest⟩ := (h.chosen _ _).mp hselected
      exact hnewest.visits
  | step _ hentry hdependency ih => exact ih.step hentry hdependency

theorem Pins.isNewest {required : Version} (hneeded : Needed files roots name required)
    (hnewest : IsNewest files roots name required.series version) :
    IsNewest files roots' name required.series version := by
  refine ⟨?_, hnewest.same, fun other hother => hnewest.newest other (hpins.visits h hother)⟩
  rcases hpins.kept with hkept | hall
  · exact hnewest.visits.mono hkept
  · obtain ⟨r, hr, rfl, rfl⟩ := hall name version ((h.chosen _ _).mpr ⟨required, hneeded, hnewest⟩)
    exact .root hr

theorem Pins.newest {required : Version} (hneeded : Needed files roots name required)
    (hnewest : IsNewest files roots' name required.series version) :
    IsNewest files roots name required.series version := by
  obtain ⟨chosen, hchosen⟩ := h.newest name required hneeded
  exact hnewest.unique (hpins.isNewest h hneeded hchosen) ▸ hchosen

theorem Pins.needed (hneeded : Needed files roots' name version) :
    ∃ required, Needed files roots name required ∧ required.series = version.series := by
  induction hneeded with
  | root hroot =>
    rcases hpins.added _ hroot with hroot | hselected
    · exact ⟨_, .root hroot, rfl⟩
    · obtain ⟨required, hrequired, hnewest⟩ := (h.chosen _ _).mp hselected
      exact ⟨required, hrequired, hnewest.same.symm⟩
  | step _ hnewest hentry hdependency ih =>
    obtain ⟨required, hrequired, hseries⟩ := ih
    exact ⟨_, hrequired.step (hpins.newest h hrequired (hseries ▸ hnewest)) hentry hdependency, rfl⟩

theorem Pins.exists_needed (hneeded : Needed files roots name version) :
    ∃ required, Needed files roots' name required ∧ required.series = version.series := by
  induction hneeded with
  | root hroot =>
    rcases hpins.kept with hkept | hall
    · exact ⟨_, .root (hkept _ hroot), rfl⟩
    · obtain ⟨chosen, hnewest⟩ := h.newest _ _ (.root hroot)
      obtain ⟨r, hr, hname, rfl⟩ := hall _ _ ((h.chosen _ _).mpr ⟨_, .root hroot, hnewest⟩)
      exact ⟨_, hname ▸ .root hr, hnewest.same⟩
  | step hneeded hnewest hentry hdependency ih =>
    obtain ⟨required, hrequired, hseries⟩ := ih
    exact ⟨_, hrequired.step (hseries ▸ hpins.isNewest h hneeded hnewest) hentry hdependency, rfl⟩

theorem Pins.chosen : Chosen files roots' name version ↔ Chosen files roots name version := by
  constructor
  · rintro ⟨other, hother, hnewest⟩
    obtain ⟨required, hneeded, hseries⟩ := hpins.needed h hother
    exact ⟨required, hneeded, hpins.newest h hneeded (hseries ▸ hnewest)⟩
  · rintro ⟨required, hneeded, hnewest⟩
    obtain ⟨other, hother, hseries⟩ := hpins.exists_needed h hneeded
    exact ⟨other, hother, hseries ▸ hpins.isNewest h hneeded hnewest⟩

theorem Pins.no_conflict : ¬Conflict files roots' := by
  rintro ⟨name, version, other, hversion, hother, hne⟩
  obtain ⟨required, hrequired, hseries⟩ := hpins.needed h hversion
  obtain ⟨required', hrequired', hseries'⟩ := hpins.needed h hother
  exact h.conflict ⟨name, required, required', hrequired, hrequired', by rwa [hseries, hseries']⟩

theorem Pins.complete (hcomplete : Complete files roots) : Complete files roots' := by
  obtain ⟨names, hnames, hpackages⟩ := hcomplete.packages
  obtain ⟨keys, hkeys, hversions⟩ := hcomplete.versions
  exact ⟨fun _ _ hvisits => hcomplete.present _ _ (hpins.visits h hvisits),
    ⟨names, hnames, fun _ _ hvisits => hpackages _ _ (hpins.visits h hvisits)⟩,
    ⟨keys, hkeys, fun _ _ hvisits => hversions _ _ (hpins.visits h hvisits)⟩⟩

end

theorem selects_of_select (h : select roots (some (location, .ok files)) fetchPackage = .ok selected) :
    roots ≠ [] ∧ Complete files roots ∧ Selects files roots fetchPackage selected := by
  have hroots : roots ≠ [] := by
    rintro rfl
    cases h
  rcases select_cases location files fetchPackage hroots with
    ⟨selected', hselect, hcomplete, hselects⟩ | ⟨_, _, hselect, -⟩ | ⟨_, hselect, -⟩ | ⟨_, hselect, -⟩
  · obtain rfl := Except.ok.inj (hselect.symm.trans h)
    exact ⟨hroots, hcomplete, hselects⟩
  all_goals
    rw [hselect] at h
    cases h

/-- A selection can be pinned: with its versions required as well, or all of them required instead, the same versions
are selected. More requirements take no package back to an older version of its series. -/
theorem select_pinned (hsteady : Steady fetchPackage)
    (hselect : select roots (some (location, .ok files)) fetchPackage = .ok selected) :
    (∀ roots', roots' ≠ [] → Pins selected roots roots' →
      ∃ selected', select roots' (some (location, .ok files)) fetchPackage = .ok selected' ∧
        ∀ name : String, selected'[name]? = selected[name]?) ∧
    ∀ roots' selected', (∀ r ∈ roots, r ∈ roots') →
      select roots' (some (location, .ok files)) fetchPackage = .ok selected' →
      ∀ (name : String) (version version' : Version), selected[name]? = some version →
        selected'[name]? = some version' → version'.series = version.series → version ≤ version' := by
  obtain ⟨-, hcomplete, h⟩ := selects_of_select hselect
  refine ⟨fun roots' hroots' hpins => ?_, fun roots' selected' hsub hselect' name version version' hversion hversion'
    hseries => ?_⟩
  · rcases select_cases location files fetchPackage hroots' with
      ⟨selected', hselect', -, h'⟩ | ⟨_, _, -, -, hconflict⟩ |
      ⟨error, -, -, -, name, version, entry', location', hchosen, hentry', hfails⟩ | ⟨_, -, hnone, -⟩
    · refine ⟨selected', hselect', fun name => Option.ext fun version => ?_⟩
      rw [h'.chosen, h.chosen]
      exact hpins.chosen h
    · exact absurd hconflict (hpins.no_conflict h)
    · obtain ⟨-, entry, _, hentry, hfetch⟩ := h.fetched name version ((hpins.chosen h).mp hchosen)
      obtain rfl := Option.some.inj (hentry.symm.trans hentry')
      rw [hsteady _ _ _ _ _ location' ⟨rfl, rfl, rfl, .refl _⟩ hfetch] at hfails
      cases hfails
    · exact absurd (hpins.complete h hcomplete) hnone
  · obtain ⟨-, -, h'⟩ := selects_of_select hselect'
    obtain ⟨_, -, hnewest⟩ := (h.chosen _ _).mp hversion
    obtain ⟨_, -, hnewest'⟩ := (h'.chosen _ _).mp hversion'
    exact hnewest'.newest version (hnewest.visits.mono hsub) (hseries.symm.trans hnewest'.same)

abbrev selectDiamond (roots : List Requirement) :=
  select roots (some (⟨"Tsuzuri.toml", (0, 0)⟩, .ok diamond)) fun _ _ _ _ => .ok ()

theorem select_pinned_diamond : ∃ selected selected', selectDiamond [requires "c" ⟨1, 0, 0⟩] = .ok selected ∧
    selectDiamond [requires "c" ⟨1, 0, 0⟩, requires "d" ⟨1, 0, 0⟩] = .ok selected' ∧
    ∀ name : String, selected'[name]? = selected[name]? := by
  have hd : (selectDiamond [requires "c" ⟨1, 0, 0⟩]).toOption.bind (fun selected => selected["d"]?) =
      some ⟨1, 0, 0⟩ := by
    decide +kernel
  cases hselect : selectDiamond [requires "c" ⟨1, 0, 0⟩] with
  | error stop =>
    rw [hselect] at hd
    cases hd
  | ok selected =>
    rw [hselect] at hd
    have hpins : Pins selected [requires "c" ⟨1, 0, 0⟩] [requires "c" ⟨1, 0, 0⟩, requires "d" ⟨1, 0, 0⟩] := by
      refine ⟨fun r hr => ?_, .inl fun r => mem_append_left _⟩
      rcases mem_cons.mp hr with rfl | hr
      · exact .inl mem_cons_self
      · exact mem_singleton.mp hr ▸ .inr hd
    obtain ⟨selected', hselect', hsame⟩ :=
      (select_pinned (fun _ _ _ _ _ _ _ _ => rfl) hselect).1 _ (cons_ne_nil _ _) hpins
    exact ⟨selected, selected', rfl, hselect', hsame⟩

end Minimal

end Tsuzuri.Registry
