import Mathlib.Data.List.Perm.Subperm
import Tsuzuri.Registry

/-!
# The selection is minimal version selection

What the three phases compute, in terms of the index alone: the versions visited (`Visits`), the newest of each
series, and the closure of the requirements over the chosen versions (`Needed`).
-/

namespace Tsuzuri.Registry

open List

open Std (TreeMap TreeSet)

def entryOf (files : TreeMap String IndexFile) (name : String) (version : Version) : Option IndexEntry :=
  match files[name]? with
  | some (.versions versions) => versions[version]?
  | _ => none

section Meaning

variable (files : TreeMap String IndexFile) (roots : List Requirement)

/-- A requirement reaches the version. -/
inductive Visits : String → Version → Prop
  | root {requirement : Requirement} (h : requirement ∈ roots) : Visits requirement.name requirement.version
  | step {name dependency : String} {version minimum : Version} {entry : IndexEntry} (h : Visits name version)
      (hentry : entryOf files name version = some entry) (hdependency : (dependency, minimum) ∈ entry.dependencies) :
      Visits dependency minimum

/-- The newest of the versions of a series that are required. -/
structure IsNewest (name : String) (series : ℕ ×ₗ ℕ) (version : Version) : Prop where
  visits : Visits files roots name version
  same : version.series = series
  newest : ∀ other : Version, Visits files roots name other → other.series = series → other ≤ version

/-- The root or a chosen version requires the package at the version. -/
inductive Needed : String → Version → Prop
  | root {requirement : Requirement} (h : requirement ∈ roots) : Needed requirement.name requirement.version
  | step {name dependency : String} {version chosen minimum : Version} {entry : IndexEntry} (h : Needed name version)
      (hnewest : IsNewest files roots name version.series chosen) (hentry : entryOf files name chosen = some entry)
      (hdependency : (dependency, minimum) ∈ entry.dependencies) : Needed dependency minimum

def Chosen (name : String) (version : Version) : Prop :=
  ∃ required, Needed files roots name required ∧ IsNewest files roots name required.series version

def Conflict : Prop :=
  ∃ (name : String) (version other : Version), Needed files roots name version ∧ Needed files roots name other ∧
    version.series ≠ other.series

/-- Every version that a requirement reaches is in the index, and there are not too many. -/
structure Complete : Prop where
  present : ∀ name version, Visits files roots name version → entryOf files name version ≠ none
  packages : ∃ names : List String, names.length ≤ maxPackages ∧
    ∀ name version, Visits files roots name version → name ∈ names
  versions : ∃ keys : List (String ×ₗ Version), keys.length ≤ maxVersions ∧
    ∀ name version, Visits files roots name version → toLex (name, version) ∈ keys

end Meaning

def Refuses (stop : Stop) : Prop :=
  ∃ error, stop = .error error ∧ error.kind ≠ .incompatibleDependencyVersions

/-! ## The index -/

section Index

variable {index index' : Index} {name : String} {names : List String} {stop : Stop}

def Index.Consistent (index : Index) : Prop :=
  ∀ (name : String) (versions : Versions), index.entries[name]? = some versions →
    index.files[name]? = some (.versions versions)

/-- The index with more files read. -/
structure Index.Reads (index index' : Index) : Prop where
  files : index'.files = index.files
  consistent : index'.Consistent
  kept : ∀ (name : String) (versions : Versions), index.entries[name]? = some versions →
    index'.entries[name]? = some versions

theorem mem_toList_ofList {names : List String} {name : String} :
    name ∈ (TreeSet.ofList names).toList ↔ name ∈ names := by
  rw [TreeSet.mem_toList, TreeSet.mem_ofList, contains_iff_mem]

theorem Index.Reads.refl (h : index.Consistent) : index.Reads index := ⟨rfl, h, fun _ _ h => h⟩

theorem Index.Reads.trans {index'' : Index} (h : index.Reads index') (h' : index'.Reads index'') :
    index.Reads index'' :=
  ⟨h'.files.trans h.files, h'.consistent, fun _ _ hentry => h'.kept _ _ (h.kept _ _ hentry)⟩

theorem read_ok (h : index.Consistent) (hread : index.read name = .ok index') : index.Reads index' ∧
    ∃ versions : Versions, index.files[name]? = some (.versions versions) ∧ index'.entries[name]? = some versions := by
  unfold Index.read at hread
  split at hread
  · cases hread
  · cases hread
  · cases hread
  · rename_i versions hfile
    cases hread
    have hinsert : ∀ other : String, (index.entries.insert name versions)[other]? =
        if name = other then some versions else index.entries[other]? := fun other => by
      simp only [TreeMap.getElem?_insert, Std.LawfulEqCmp.compare_eq_iff_eq]
    refine ⟨⟨rfl, fun other versions' hentry => ?_, fun other versions' hentry => ?_⟩, versions, hfile, ?_⟩
    · rw [hinsert] at hentry
      split at hentry
      · rename_i heq
        subst heq
        exact hfile.trans (congrArg _ (congrArg _ (Option.some.inj hentry)))
      · exact h other versions' hentry
    · rw [hinsert]
      split
      · rename_i heq
        subst heq
        rw [h _ _ hentry] at hfile
        simpa using (hfile : _ = _).symm
      · exact hentry
    · rw [hinsert, if_pos rfl]

theorem read_error (hread : index.read name = .error stop) (hfile : name ∈ index.files) : Refuses stop ∧
    ∀ versions : Versions, index.files[name]? ≠ some (.versions versions) := by
  unfold Index.read at hread
  split at hread
  · rename_i hnone
    rw [TreeMap.mem_iff_isSome_getElem?, hnone] at hfile
    cases hfile
  · rename_i hlarge
    cases hread
    exact ⟨⟨_, rfl, by simp [Location.error]⟩, fun versions => by rw [hlarge]; simp⟩
  · rename_i hinvalid
    cases hread
    exact ⟨⟨_, rfl, by simp [Location.error]⟩, fun versions => by rw [hinvalid]; simp⟩
  · cases hread

theorem readAll_ok : ∀ {index : Index}, index.Consistent → names.foldlM Index.read index = .ok index' →
    index.Reads index' ∧ ∀ name ∈ names, ∀ versions : Versions, index.files[name]? = some (.versions versions) →
      index'.entries[name]? = some versions := by
  induction names with
  | nil =>
    intro index h hread
    cases hread
    exact ⟨.refl h, fun _ hname => absurd hname not_mem_nil⟩
  | cons name names ih =>
    intro index h hread
    rw [foldlM_cons] at hread
    cases hfirst : index.read name with
    | error stop =>
      rw [hfirst] at hread
      cases hread
    | ok index₁ =>
      rw [hfirst] at hread
      obtain ⟨hreads, versions, hfile, hentry⟩ := read_ok h hfirst
      obtain ⟨hreads', hrest⟩ := ih hreads.consistent hread
      refine ⟨hreads.trans hreads', fun other hother versions' hfile' => ?_⟩
      rcases mem_cons.mp hother with rfl | hother
      · rw [hfile] at hfile'
        obtain rfl := IndexFile.versions.inj (Option.some.inj hfile')
        exact hreads'.kept _ _ hentry
      · exact hrest other hother versions' (hreads.files ▸ hfile')

theorem readAll_error : ∀ {index : Index}, index.Consistent → names.foldlM Index.read index = .error stop →
    (∀ name ∈ names, name ∈ index.files) →
      Refuses stop ∧ ∃ name ∈ names, ∀ versions : Versions, index.files[name]? ≠ some (.versions versions) := by
  induction names with
  | nil =>
    intro index _ hread _
    cases hread
  | cons name names ih =>
    intro index h hread hfiles
    rw [foldlM_cons] at hread
    cases hfirst : index.read name with
    | error stop' =>
      rw [hfirst] at hread
      cases hread
      obtain ⟨hrefuses, hnone⟩ := read_error hfirst (hfiles name mem_cons_self)
      exact ⟨hrefuses, name, mem_cons_self, hnone⟩
    | ok index₁ =>
      rw [hfirst] at hread
      obtain ⟨hreads, -⟩ := read_ok h hfirst
      obtain ⟨hrefuses, other, hother, hnone⟩ := ih hreads.consistent hread fun other hother =>
        hreads.files ▸ hfiles other (mem_cons_of_mem _ hother)
      exact ⟨hrefuses, other, mem_cons_of_mem _ hother, hreads.files ▸ hnone⟩

theorem load_ok (h : index.Consistent) (hload : index.load names = .ok index') : index.Reads index' ∧
    ∀ name ∈ names, ∀ versions : Versions, index.files[name]? = some (.versions versions) →
      index'.entries[name]? = some versions := by
  simp only [Index.load] at hload
  split at hload
  · rename_i name hfound
    obtain ⟨hreads, versions, hfile, -⟩ := read_ok h hload
    have hlarge := find?_some hfound
    rw [hfile] at hlarge
    simp at hlarge
  · obtain ⟨hreads, hrest⟩ := readAll_ok h hload
    refine ⟨hreads, fun name hname versions hfile => ?_⟩
    by_cases hread : index.entries.contains name
    · -- it was read before
      rw [TreeMap.contains_eq_isSome_getElem?] at hread
      obtain ⟨versions', hentry⟩ := Option.isSome_iff_exists.mp hread
      have hfile' := h name versions' hentry
      rw [hfile] at hfile'
      obtain rfl := IndexFile.versions.inj (Option.some.inj hfile')
      exact hreads.kept name versions hentry
    · refine hrest name ?_ versions hfile
      rw [mem_toList_ofList, mem_filter]
      refine ⟨hname, ?_⟩
      rw [TreeMap.contains_eq_isSome_getElem? (t := index.files), hfile]
      rw [Bool.eq_false_iff.mpr hread]
      rfl

theorem load_error (h : index.Consistent) (hload : index.load names = .error stop) : Refuses stop ∧
    ∃ name ∈ names, ∀ versions : Versions, index.files[name]? ≠ some (.versions versions) := by
  have hwanted : ∀ name ∈ (TreeSet.ofList (names.filter fun name =>
      !index.entries.contains name && index.files.contains name)).toList, name ∈ names ∧ name ∈ index.files := by
    intro name hname
    rw [mem_toList_ofList, mem_filter, Bool.and_eq_true] at hname
    exact ⟨hname.1, TreeMap.contains_iff_mem.mp hname.2.2⟩
  simp only [Index.load] at hload
  split at hload
  · rename_i name hfound
    obtain ⟨hmem, hfile⟩ := hwanted name (mem_of_find?_eq_some hfound)
    obtain ⟨hrefuses, hnone⟩ := read_error hload hfile
    exact ⟨hrefuses, name, hmem, hnone⟩
  · obtain ⟨hrefuses, name, hname, hnone⟩ := readAll_error h hload fun name hname => (hwanted name hname).2
    exact ⟨hrefuses, name, (hwanted name hname).1, hnone⟩

end Index

/-! ## The visit -/

section Visit

variable {files : TreeMap String IndexFile} {roots rest : List Requirement} {visit visit' : Visit} {first : Location}
  {requirement : Requirement} {stop : Stop}

def Visit.Stated (visit : Visit) (name : String) (version : Version) : Prop :=
  ∃ requirement ∈ visit.required.getD name [], requirement.version = version

/-- A requirement that the visit has taken or will take from `rest`. -/
def Visit.Mentions (visit : Visit) (rest : List Requirement) (name : String) (version : Version) : Prop :=
  visit.Stated name version ∨ ∃ requirement ∈ rest ++ visit.queue, requirement.name = name ∧
    requirement.version = version

/-- What holds in the visit, with `rest` left of the queue before. -/
structure Visiting (files : TreeMap String IndexFile) (roots rest : List Requirement) (visit : Visit) : Prop where
  same : visit.index.files = files
  consistent : visit.index.Consistent
  entry : ∀ (name : String) (version : Version), (toLex (name, version) : String ×ₗ Version) ∈ visit.visited →
    ∃ (versions : Versions) (entry : IndexEntry), visit.index.entries[name]? = some versions ∧
      versions[version]? = some entry ∧
      ∀ dependency minimum, (dependency, minimum) ∈ entry.dependencies → visit.Mentions rest dependency minimum
  stated : ∀ (name : String) (version : Version), (toLex (name, version) : String ×ₗ Version) ∈ visit.visited ↔
    visit.Stated name version
  queued : ∀ requirement ∈ rest ++ visit.queue, Visits files roots requirement.name requirement.version
  visits : ∀ (name : String) (version : Version), (toLex (name, version) : String ×ₗ Version) ∈ visit.visited →
    Visits files roots name version
  roots : ∀ requirement ∈ roots, visit.Mentions rest requirement.name requirement.version

theorem entryOf_eq {index : Index} (h : index.Consistent) {name : String} {version : Version} {versions : Versions}
    (hentry : index.entries[name]? = some versions) : entryOf index.files name version = versions[version]? := by
  rw [entryOf, h name versions hentry]

theorem getD_insert_append (required : TreeMap String (List Requirement)) (requirement : Requirement) (name : String) :
    (required.insert requirement.name (required.getD requirement.name [] ++ [requirement])).getD name [] =
      if requirement.name = name then required.getD name [] ++ [requirement] else required.getD name [] := by
  rw [TreeMap.getD_insert]
  simp only [Std.LawfulEqCmp.compare_eq_iff_eq]
  split
  · rename_i heq
    rw [heq]
  · rfl

theorem visitOne_ok (h : Visiting files roots (requirement :: rest) visit)
    (hone : visitOne first visit requirement = .ok visit') :
    Visiting files roots rest visit' ∧ visit'.index = visit.index ∧
      (visit'.queue = visit.queue ∧ visit'.visited.size = visit.visited.size ∨
        visit'.visited.size = visit.visited.size + 1) := by
  unfold visitOne at hone
  split at hone
  · cases hone
  rename_i versions hversions
  split at hone
  · cases hone
  rename_i entry hentry
  simp only at hone
  split at hone
  · cases hone
  cases hone
  have hvisits := h.queued requirement (mem_append_left _ mem_cons_self)
  have hentryOf : entryOf files requirement.name requirement.version = some entry := by
    rw [← h.same, entryOf_eq h.consistent hversions, hentry]
  -- the queue grows only with the dependencies of this version
  have hqueue : ∀ r, r ∈ (if visit.visited.contains (toLex (requirement.name, requirement.version)) then visit.queue
      else visit.queue ++ entry.requirements requirement requirement.version) →
      r ∈ visit.queue ∨ (r.name, r.version) ∈ entry.dependencies := by
    intro r hr
    split at hr
    · exact .inl hr
    · refine (mem_append.mp hr).imp_right fun hr => ?_
      obtain ⟨⟨dependency, minimum⟩, hdependency, rfl⟩ := mem_map.mp hr
      exact hdependency
  have hmore : ∀ r, r ∈ visit.queue → r ∈ (if visit.visited.contains (toLex (requirement.name, requirement.version))
      then visit.queue else visit.queue ++ entry.requirements requirement requirement.version) := by
    intro r hr
    split
    · exact hr
    · exact mem_append_left _ hr
  have hstated : ∀ name version, Visit.Stated { visit with
      required := visit.required.insert requirement.name
        (visit.required.getD requirement.name [] ++ [requirement]) } name version ↔
      visit.Stated name version ∨ requirement.name = name ∧ requirement.version = version := by
    intro name version
    simp only [Visit.Stated, getD_insert_append]
    split
    · rename_i heq
      simp [heq, or_and_right, exists_or]
    · rename_i hne
      simp [hne]
  have hmentions : ∀ name version, visit.Mentions (requirement :: rest) name version → Visit.Mentions { visit with
      required := visit.required.insert requirement.name (visit.required.getD requirement.name [] ++ [requirement])
      visited := visit.visited.insert (toLex (requirement.name, requirement.version))
      queue := if visit.visited.contains (toLex (requirement.name, requirement.version)) then visit.queue
        else visit.queue ++ entry.requirements requirement requirement.version } rest name version := by
    rintro name version (hold | ⟨r, hr, hname, hversion⟩)
    · exact .inl ((hstated name version).mpr (.inl hold))
    · rw [cons_append] at hr
      rcases mem_cons.mp hr with rfl | hr
      · exact .inl ((hstated name version).mpr (.inr ⟨hname, hversion⟩))
      · refine .inr ⟨r, ?_, hname, hversion⟩
        exact mem_append.mpr ((mem_append.mp hr).imp_right (hmore r))
  have hvisited : ∀ name version, (toLex (name, version) : String ×ₗ Version) ∈
      visit.visited.insert (toLex (requirement.name, requirement.version)) ↔
      requirement.name = name ∧ requirement.version = version ∨
        (toLex (name, version) : String ×ₗ Version) ∈ visit.visited := by
    intro name version
    rw [TreeSet.mem_insert, Std.LawfulEqCmp.compare_eq_iff_eq]
    simp
  refine ⟨⟨h.same, h.consistent, fun name version hmem => ?_, fun name version => ?_, fun r hr => ?_,
    fun name version hmem => ?_, fun r hr => hmentions _ _ (h.roots r hr)⟩, rfl, ?_⟩
  · rcases (hvisited name version).mp hmem with ⟨rfl, rfl⟩ | hmem
    · refine ⟨versions, entry, hversions, hentry, fun dependency minimum hdependency => ?_⟩
      by_cases hseen : visit.visited.contains (toLex (requirement.name, requirement.version))
      · obtain ⟨versions', entry', hversions', hentry', hmention⟩ := h.entry _ _ (TreeSet.contains_iff_mem.mp hseen)
        obtain rfl := Option.some.inj (hversions.symm.trans hversions')
        obtain rfl := Option.some.inj (hentry.symm.trans hentry')
        exact hmentions _ _ (hmention dependency minimum hdependency)
      · refine .inr ⟨⟨dependency, minimum, s!"{requirement.name} {requirement.version.text}", requirement.location⟩,
          mem_append_right _ ?_, rfl, rfl⟩
        rw [if_neg hseen]
        exact mem_append_right _ (mem_map.mpr ⟨(dependency, minimum), hdependency, rfl⟩)
    · obtain ⟨versions', entry', hversions', hentry', hmention⟩ := h.entry name version hmem
      exact ⟨versions', entry', hversions', hentry', fun dependency minimum hdependency =>
        hmentions _ _ (hmention dependency minimum hdependency)⟩
  · rw [hvisited]
    refine Iff.trans ?_ (hstated name version).symm
    rw [h.stated, or_comm]
  · rcases mem_append.mp hr with hr | hr
    · exact h.queued r (mem_append_left _ (mem_cons_of_mem _ hr))
    · rcases hqueue r hr with hr | hr
      · exact h.queued r (mem_append_right _ hr)
      · exact hvisits.step hentryOf hr
  · rcases (hvisited name version).mp hmem with ⟨rfl, rfl⟩ | hmem
    · exact hvisits
    · exact h.visits name version hmem
  · rw [TreeSet.size_insert]
    by_cases hseen : visit.visited.contains (toLex (requirement.name, requirement.version))
    · exact .inl ⟨if_pos hseen, if_pos hseen⟩
    · exact .inr (if_neg hseen)

theorem size_le_of_keys {α β : Type} [LinearOrder α] [Std.LawfulEqOrd α] {map : TreeMap α β} {keys : List α}
    (h : ∀ key ∈ map, key ∈ keys) : map.size ≤ keys.length := by
  rw [← TreeMap.length_keys]
  exact (subperm_of_subset TreeMap.nodup_keys fun key hkey => h key (TreeMap.mem_keys.mp hkey)).length_le

theorem set_size_le_of_mem {α : Type} [LinearOrder α] [Std.LawfulEqOrd α] {set : TreeSet α} {keys : List α}
    (h : ∀ key ∈ set, key ∈ keys) : set.size ≤ keys.length := by
  have hnodup : set.toList.Nodup := TreeSet.distinct_toList.imp fun hne heq => by
    subst heq
    exact hne Std.ReflCmp.compare_self
  rw [← TreeSet.length_toList]
  exact (subperm_of_subset hnodup fun key hkey => h key (TreeSet.mem_toList.mp hkey)).length_le

/-- What the maps of the visit hold as keys, and how many. -/
structure Keyed (files : TreeMap String IndexFile) (roots : List Requirement) (visit : Visit) : Prop where
  packages : visit.required.size ≤ maxPackages
  versions : visit.visited.size ≤ maxVersions
  required : ∀ name ∈ visit.required, ∃ version, Visits files roots name version

theorem visitOne_keyed (h : Visiting files roots (requirement :: rest) visit) (hkeyed : Keyed files roots visit)
    (hone : visitOne first visit requirement = .ok visit') : Keyed files roots visit' := by
  have hvisits := h.queued requirement (mem_append_left _ mem_cons_self)
  unfold visitOne at hone
  split at hone
  · cases hone
  split at hone
  · cases hone
  simp only at hone
  split at hone
  · cases hone
  rename_i hlimit
  cases hone
  refine ⟨not_lt.mp (not_or.mp hlimit).1, not_lt.mp (not_or.mp hlimit).2, fun name hname => ?_⟩
  rw [TreeMap.mem_insert, Std.LawfulEqCmp.compare_eq_iff_eq] at hname
  rcases hname with rfl | hname
  · exact ⟨_, hvisits⟩
  · exact hkeyed.required name hname

/-- The visit stops only at a version that is not in the index, or at the limits. -/
theorem visitOne_error (h : Visiting files roots (requirement :: rest) visit) (hkeyed : Keyed files roots visit)
    (hloaded : ∀ versions : Versions, files[requirement.name]? = some (.versions versions) →
      visit.index.entries[requirement.name]? = some versions)
    (hone : visitOne first visit requirement = .error stop) : Refuses stop ∧ ¬Complete files roots := by
  have hvisits := h.queued requirement (mem_append_left _ mem_cons_self)
  unfold visitOne at hone
  split at hone
  · rename_i hnone
    cases hone
    refine ⟨⟨_, rfl, by simp [Location.error]⟩, fun hcomplete => hcomplete.present _ _ hvisits ?_⟩
    unfold entryOf
    split
    · rename_i versions hfile
      rw [hloaded versions hfile] at hnone
      cases hnone
    · rfl
  rename_i versions hversions
  have hentryOf : entryOf files requirement.name requirement.version = versions[requirement.version]? := by
    rw [← h.same, entryOf_eq h.consistent hversions]
  split at hone
  · rename_i hnone
    cases hone
    exact ⟨⟨_, rfl, by simp [Location.error]⟩, fun hcomplete =>
      hcomplete.present _ _ hvisits (hentryOf.trans hnone)⟩
  simp only at hone
  split at hone
  · rename_i hlimit
    cases hone
    refine ⟨⟨_, rfl, by simp [Location.error]⟩, fun hcomplete => ?_⟩
    obtain ⟨names, hnames, hpackages⟩ := hcomplete.packages
    obtain ⟨keys, hkeys, hversions⟩ := hcomplete.versions
    have hrequired : (visit.required.insert requirement.name
        (visit.required.getD requirement.name [] ++ [requirement])).size ≤ names.length :=
      size_le_of_keys fun name hname => by
        rw [TreeMap.mem_insert, Std.LawfulEqCmp.compare_eq_iff_eq] at hname
        rcases hname with rfl | hname
        · exact hpackages _ _ hvisits
        · obtain ⟨version, hversion⟩ := hkeyed.required name hname
          exact hpackages name version hversion
    have hvisited : (visit.visited.insert (toLex (requirement.name, requirement.version))).size ≤ keys.length :=
      set_size_le_of_mem fun key hkey => by
        rw [TreeSet.mem_insert, Std.LawfulEqCmp.compare_eq_iff_eq] at hkey
        rcases hkey with rfl | hkey
        · exact hversions _ _ hvisits
        · exact hversions _ _ (h.visits (ofLex key).1 (ofLex key).2 hkey)
    rcases hlimit with hlimit | hlimit
    · exact absurd (hrequired.trans hnames) (not_le.mpr hlimit)
    · exact absurd (hvisited.trans hkeys) (not_le.mpr hlimit)
  · cases hone

theorem visitQueue_ok (rest : List Requirement) : ∀ {visit : Visit}, Visiting files roots rest visit →
    Keyed files roots visit → rest.foldlM (visitOne first) visit = .ok visit' →
      Visiting files roots [] visit' ∧ Keyed files roots visit' ∧ visit'.index = visit.index ∧
      (visit'.queue = visit.queue ∧ visit'.visited.size = visit.visited.size ∨
        visit.visited.size < visit'.visited.size) := by
  induction rest with
  | nil =>
    intro visit h hkeyed hfold
    cases hfold
    exact ⟨h, hkeyed, rfl, .inl ⟨rfl, rfl⟩⟩
  | cons requirement rest ih =>
    intro visit h hkeyed hfold
    rw [foldlM_cons] at hfold
    cases hone : visitOne first visit requirement with
    | error stop =>
      rw [hone] at hfold
      cases hfold
    | ok visit₁ =>
      rw [hone] at hfold
      obtain ⟨h₁, hindex, hgrows⟩ := visitOne_ok h hone
      obtain ⟨h₂, hkeyed₂, hindex₂, hgrows₂⟩ := ih h₁ (visitOne_keyed h hkeyed hone) hfold
      refine ⟨h₂, hkeyed₂, hindex₂.trans hindex, ?_⟩
      rcases hgrows with ⟨hqueue, hsame⟩ | hmore <;> rcases hgrows₂ with ⟨hqueue₂, hsame₂⟩ | hmore₂
      · exact .inl ⟨hqueue₂.trans hqueue, hsame₂.trans hsame⟩
      · exact .inr (by omega)
      · exact .inr (by omega)
      · exact .inr (by omega)

theorem visitQueue_error (rest : List Requirement) : ∀ {visit : Visit}, Visiting files roots rest visit →
    Keyed files roots visit →
    (∀ requirement ∈ rest, ∀ versions : Versions, files[requirement.name]? = some (.versions versions) →
      visit.index.entries[requirement.name]? = some versions) →
    rest.foldlM (visitOne first) visit = .error stop → Refuses stop ∧ ¬Complete files roots := by
  induction rest with
  | nil =>
    intro visit _ _ _ hfold
    cases hfold
  | cons requirement rest ih =>
    intro visit h hkeyed hloaded hfold
    rw [foldlM_cons] at hfold
    cases hone : visitOne first visit requirement with
    | error stop' =>
      rw [hone] at hfold
      cases hfold
      exact visitOne_error h hkeyed (hloaded requirement mem_cons_self) hone
    | ok visit₁ =>
      rw [hone] at hfold
      obtain ⟨h₁, hindex, -⟩ := visitOne_ok h hone
      exact ih h₁ (visitOne_keyed h hkeyed hone) (fun r hr => hindex ▸ hloaded r (mem_cons_of_mem _ hr)) hfold

theorem Visiting.round (h : Visiting files roots [] visit) {index : Index} (hreads : visit.index.Reads index) :
    Visiting files roots visit.queue { visit with index := index, queue := [] } := by
  have hmentions : ∀ name version, visit.Mentions [] name version →
      Visit.Mentions { visit with index := index, queue := [] } visit.queue name version := by
    rintro name version (hold | ⟨r, hr, heq⟩)
    · exact .inl hold
    · exact .inr ⟨r, mem_append_left _ (by simpa using hr), heq⟩
  refine ⟨hreads.files.trans h.same, hreads.consistent, fun name version hmem => ?_, h.stated, fun r hr => ?_,
    h.visits, fun r hr => hmentions _ _ (h.roots r hr)⟩
  · obtain ⟨versions, entry, hversions, hentry, hmention⟩ := h.entry name version hmem
    exact ⟨versions, entry, hreads.kept _ _ hversions, hentry, fun dependency minimum hdependency =>
      hmentions _ _ (hmention dependency minimum hdependency)⟩
  · exact h.queued r (by simpa using hr)

theorem visitAll_spec (first : Location) (fuel : Nat) : ∀ {visit : Visit}, Visiting files roots [] visit →
    Keyed files roots visit → maxVersions + 1 < fuel + visit.visited.size →
    (∃ visit', visitAll first fuel visit = .ok visit' ∧ Visiting files roots [] visit' ∧ Keyed files roots visit' ∧
        visit'.queue = []) ∨
      ∃ stop, visitAll first fuel visit = .error stop ∧ Refuses stop ∧ ¬Complete files roots := by
  induction fuel with
  | zero =>
    intro visit _ hkeyed hfuel
    have hsize := hkeyed.versions
    omega
  | succ fuel ih =>
    intro visit h hkeyed hfuel
    unfold visitAll
    split
    · rename_i hqueue
      exact .inl ⟨visit, rfl, h, hkeyed, hqueue⟩
    rename_i hqueue
    cases hload : visit.index.load (visit.queue.map (·.name)) with
    | error stop =>
      obtain ⟨hrefuses, name, hname, hnone⟩ := load_error h.consistent hload
      refine .inr ⟨stop, rfl, hrefuses, fun hcomplete => ?_⟩
      obtain ⟨r, hr, rfl⟩ := mem_map.mp hname
      refine hcomplete.present _ _ (h.queued r (by simpa using hr)) ?_
      unfold entryOf
      split
      · rename_i versions hfile
        exact absurd (h.same ▸ hfile) (hnone versions)
      · rfl
    | ok index =>
      obtain ⟨hreads, hloaded⟩ := load_ok h.consistent hload
      have hround := h.round hreads
      have hkeyed' : Keyed files roots { visit with index := index, queue := [] } :=
        ⟨hkeyed.packages, hkeyed.versions, hkeyed.required⟩
      cases hfold : visit.queue.foldlM (visitOne first) { visit with index := index, queue := [] } with
      | error stop =>
        refine .inr ⟨stop, ?_, visitQueue_error _ hround hkeyed' ?_ hfold⟩
        · simp only [bind, Except.bind, hfold]
        · exact fun r hr versions hfile => hloaded r.name (mem_map.mpr ⟨r, hr, rfl⟩) versions (h.same ▸ hfile)
      | ok visit₁ =>
        obtain ⟨h₁, hkeyed₁, -, hgrows⟩ := visitQueue_ok _ hround hkeyed' hfold
        have hnext : (do
            let index ← (Except.ok index : Except Stop Index)
            let visit ← visit.queue.foldlM (visitOne first) { visit with index := index, queue := [] }
            visitAll first fuel visit) = visitAll first fuel visit₁ := by
          simp only [bind, Except.bind, hfold]
        simp only [hnext]
        rcases hgrows with ⟨hdone, -⟩ | (hmore : visit.visited.size < visit₁.visited.size)
        · left
          refine ⟨visit₁, ?_, h₁, hkeyed₁, hdone⟩
          cases fuel <;> (unfold visitAll; rw [if_pos hdone])
        · exact ih h₁ hkeyed₁ (by omega)

end Visit

/-! ## The newest of each series -/

section Newest

/-- The newest of the versions that were taken, for each name and series. -/
structure NewestOf (newest : Newest) (taken : String → Version → Prop) : Prop where
  found : ∀ (name : String) (series : ℕ ×ₗ ℕ) (version : Version),
    newest[(toLex (name, series) : String ×ₗ (ℕ ×ₗ ℕ))]? = some version → taken name version ∧ version.series = series ∧
        ∀ other : Version, taken name other → other.series = series → other ≤ version
  present : ∀ (name : String) (version : Version), taken name version →
    newest[(toLex (name, version.series) : String ×ₗ (ℕ ×ₗ ℕ))]? ≠ none

variable {newest : Newest} {taken : String → Version → Prop}

theorem NewestOf.congr {taken' : String → Version → Prop} (h : NewestOf newest taken)
    (heq : ∀ name version, taken' name version ↔ taken name version) : NewestOf newest taken' := by
  have : taken' = taken := funext fun name => funext fun version => propext (heq name version)
  exact this ▸ h

theorem newestOne_of (h : NewestOf newest taken) (name : String) (requirement : Requirement) :
    NewestOf (newestOne name newest requirement) fun other version =>
      taken other version ∨ other = name ∧ version = requirement.version := by
  have hget : ∀ (other : String) (series : ℕ ×ₗ ℕ),
      (newestOne name newest requirement)[(toLex (other, series) : String ×ₗ (ℕ ×ₗ ℕ))]? =
        if name = other ∧ requirement.version.series = series then
          some (max (newest.getD (toLex (name, requirement.version.series)) requirement.version) requirement.version)
        else newest[(toLex (other, series) : String ×ₗ (ℕ ×ₗ ℕ))]? := by
    intro other series
    simp only [newestOne, TreeMap.getElem?_insert, Std.LawfulEqCmp.compare_eq_iff_eq, EmbeddingLike.apply_eq_iff_eq,
      Prod.mk.injEq]
    congr 2
    split
    · rename_i hlt
      rw [max_eq_right hlt.le]
    · rename_i hle
      rw [max_eq_left (not_lt.mp hle)]
  refine ⟨fun other series version hversion => ?_, fun other version htaken => ?_⟩
  · rw [hget] at hversion
    split at hversion
    · rename_i heq
      obtain ⟨rfl, rfl⟩ := heq
      cases hversion
      rw [TreeMap.getD_eq_getD_getElem?]
      cases hslot : newest[(toLex (name, requirement.version.series) : String ×ₗ (ℕ ×ₗ ℕ))]? with
      | none =>
        simp only [Option.getD_none, max_self]
        refine ⟨.inr ⟨trivial, trivial⟩, trivial, ?_⟩
        rintro v (hv | ⟨-, rfl⟩) hseries
        · exact absurd (hseries ▸ hslot) (h.present name v hv)
        · exact le_rfl
      | some slot =>
        obtain ⟨htaken, hseries, hnewest⟩ := h.found _ _ _ hslot
        simp only [Option.getD_some]
        refine ⟨?_, ?_, ?_⟩
        · rcases max_choice slot requirement.version with hmax | hmax <;> rw [hmax]
          · exact .inl htaken
          · exact .inr ⟨trivial, rfl⟩
        · rcases max_choice slot requirement.version with hmax | hmax <;> rw [hmax]
          exact hseries
        · rintro v (hv | ⟨-, rfl⟩) hv'
          · exact le_max_of_le_left (hnewest v hv hv')
          · exact le_max_right ..
    · rename_i hne
      obtain ⟨htaken, hseries, hnewest⟩ := h.found other series version hversion
      refine ⟨.inl htaken, hseries, ?_⟩
      rintro v (hv | ⟨rfl, rfl⟩) hv'
      · exact hnewest v hv hv'
      · exact absurd ⟨rfl, hv'⟩ hne
  · rw [hget]
    split
    · exact Option.some_ne_none _
    · rename_i hne
      rcases htaken with htaken | ⟨rfl, rfl⟩
      · exact h.present other version htaken
      · exact absurd ⟨rfl, rfl⟩ hne

theorem newestAll_of (name : String) (requirements : List Requirement) : ∀ {newest : Newest}
    {taken : String → Version → Prop}, NewestOf newest taken →
    NewestOf (requirements.foldl (newestOne name) newest) fun other version =>
      taken other version ∨ other = name ∧ ∃ requirement ∈ requirements, version = requirement.version := by
  induction requirements with
  | nil => exact fun h => h.congr fun other version => by simp
  | cons requirement requirements ih =>
    intro newest taken h
    refine (ih (newestOne_of h name requirement)).congr fun other version => ?_
    simp only [mem_cons, exists_eq_or_imp, or_assoc, and_or_left]

theorem newestList_of (entries : List (String × List Requirement)) : ∀ {newest : Newest}
    {taken : String → Version → Prop}, NewestOf newest taken →
    NewestOf (entries.foldl (fun newest (name, requirements) => requirements.foldl (newestOne name) newest) newest)
      fun other version => taken other version ∨ ∃ requirements, (other, requirements) ∈ entries ∧
        ∃ requirement ∈ requirements, version = requirement.version := by
  induction entries with
  | nil => exact fun h => h.congr fun other version => by simp
  | cons entry entries ih =>
    intro newest taken h
    obtain ⟨name, requirements⟩ := entry
    refine (ih (newestAll_of name requirements h)).congr fun other version => ?_
    simp only [mem_cons, Prod.mk.injEq, or_and_right, exists_or, or_assoc]
    rw [show (∃ x, (other = name ∧ x = requirements) ∧ ∃ requirement ∈ x, version = requirement.version) ↔
      other = name ∧ ∃ requirement ∈ requirements, version = requirement.version by
        constructor
        · rintro ⟨_, ⟨hname, rfl⟩, hrest⟩
          exact ⟨hname, hrest⟩
        · rintro ⟨hname, hrest⟩
          exact ⟨_, ⟨hname, rfl⟩, hrest⟩]

theorem newestOf_of (visit : Visit) : NewestOf (newestOf visit.required) visit.Stated := by
  have hempty : NewestOf ∅ fun _ _ => False :=
    ⟨fun _ _ _ h => by simp at h, fun _ _ h => h.elim⟩
  refine (newestList_of visit.required.toList hempty).congr fun name version => ?_
  simp only [Visit.Stated, TreeMap.mem_toList_iff_getElem?_eq_some, false_or, TreeMap.getD_eq_getD_getElem?]
  cases visit.required[name]? with
  | none => simp
  | some requirements => simp [eq_comm]

end Newest

section Reach

variable {files : TreeMap String IndexFile} {roots : List Requirement} {visit : Visit}

/-- What the visit leaves for the other phases. -/
structure Visited (files : TreeMap String IndexFile) (roots : List Requirement) (visit : Visit) (newest : Newest) :
    Prop where
  visited : ∀ (name : String) (version : Version),
    (toLex (name, version) : String ×ₗ Version) ∈ visit.visited ↔ Visits files roots name version
  entry : ∀ (name : String) (version : Version), Visits files roots name version → ∃ entry : IndexEntry,
    (visit.index.entries[name]? >>= fun versions => versions[version]?) = some entry ∧
      entryOf files name version = some entry
  newest : ∀ (name : String) (version : Version), Visits files roots name version → ∃ chosen,
    newest[(toLex (name, version.series) : String ×ₗ (ℕ ×ₗ ℕ))]? = some chosen ∧
      IsNewest files roots name version.series chosen

theorem Visiting.visited (h : Visiting files roots [] visit) (hqueue : visit.queue = []) :
    Visited files roots visit (newestOf visit.required) := by
  have hmentions : ∀ name version, visit.Mentions [] name version →
      (toLex (name, version) : String ×ₗ Version) ∈ visit.visited := by
    rintro name version (hstated | ⟨r, hr, -⟩)
    · exact (h.stated name version).mpr hstated
    · simp [hqueue] at hr
  have hvisited : ∀ name version, (toLex (name, version) : String ×ₗ Version) ∈ visit.visited ↔
      Visits files roots name version := by
    refine fun name version => ⟨h.visits name version, fun hvisits => ?_⟩
    induction hvisits with
    | root hroot => exact hmentions _ _ (h.roots _ hroot)
    | step _ hentry hdependency ih =>
      obtain ⟨versions, entry, hversions, hentry', hmention⟩ := h.entry _ _ ih
      rw [← h.same, entryOf_eq h.consistent hversions, hentry'] at hentry
      cases hentry
      exact hmentions _ _ (hmention _ _ hdependency)
  have hnewest := (newestOf_of visit).congr fun name version =>
    (hvisited name version).symm.trans (h.stated name version)
  refine ⟨hvisited, fun name version hvisits => ?_, fun name version hvisits => ?_⟩
  · obtain ⟨versions, entry, hversions, hentry, -⟩ := h.entry name version ((hvisited name version).mpr hvisits)
    refine ⟨entry, ?_, ?_⟩
    · rw [hversions]
      exact hentry
    · rw [← h.same, entryOf_eq h.consistent hversions, hentry]
  · obtain ⟨chosen, hchosen⟩ := Option.ne_none_iff_exists'.mp (hnewest.present name version hvisits)
    obtain ⟨htaken, hseries, hmax⟩ := hnewest.found _ _ _ hchosen
    exact ⟨chosen, hchosen, htaken, hseries, hmax⟩

theorem Visited.complete {newest : Newest} (h : Visited files roots visit newest)
    (hvisit : Visiting files roots [] visit) (hkeyed : Keyed files roots visit) : Complete files roots := by
  refine ⟨fun name version hvisits => ?_, ⟨visit.required.keys, ?_, fun name version hvisits => ?_⟩,
    ⟨visit.visited.toList, ?_, fun name version hvisits => ?_⟩⟩
  · obtain ⟨entry, -, hentry⟩ := h.entry name version hvisits
    rw [hentry]
    exact Option.some_ne_none _
  · rw [TreeMap.length_keys]
    exact hkeyed.packages
  · obtain ⟨requirement, hrequirement, -⟩ := (hvisit.stated name version).mp ((h.visited name version).mpr hvisits)
    rw [TreeMap.mem_keys, TreeMap.mem_iff_isSome_getElem?]
    rw [TreeMap.getD_eq_getD_getElem?] at hrequirement
    cases hget : visit.required[name]? with
    | none => simp [hget] at hrequirement
    | some requirements => rfl
  · rw [TreeSet.length_toList]
    exact hkeyed.versions
  · exact TreeSet.mem_toList.mpr ((h.visited name version).mpr hvisits)

end Reach

end Tsuzuri.Registry
