import Tsuzuri.Fixing

/-!
# A run of fixes is a transaction

The texts that a run saved are those at entry, and the others have not changed, in every state of
the loop.
-/

namespace Tsuzuri.Fixing

open List Option

def Project.Kept (p p' : Project) : Prop :=
  ∀ (i : Nat) (file : SourceFile), p.sources[i]? = some file → p'.sources[i]? = some file

variable {key : Nat}

section Saving

variable {p q : Project} {saved : Saved} {i k : Nat} {text : Text} {file : SourceFile}

/-- The state has the sources at entry, with the saved texts for those that it changed. -/
structure Tracks (p q : Project) (saved : Saved) : Prop where
  source : ∀ (i : Nat) (file : SourceFile), p.sources[i]? = some file →
    ∃ text, q.sources[i]? = some { file with text := text }
  entry : ∀ (i : Nat) (text : Text) (file : SourceFile), (i, text) ∈ saved → p.sources[i]? = some file →
    file.text = text
  same : ∀ (i : Nat) (file : SourceFile), (∀ text, (i, text) ∉ saved) → p.sources[i]? = some file →
    q.sources[i]? = some file

theorem setText_get (q : Project) (k i : Nat) (text : Text) : (q.setText k text).sources[i]? =
      if k = i then (q.sources[i]?).map fun file => { file with text := text } else q.sources[i]? := by
  rw [Project.setText, getElem?_modify]
  split <;> simp

theorem mem_put {α : Type} {value v : α} {l : List (Nat × α)} (h : (k, v) ∈ put key value l) :
    (k, v) = (key, value) ∨ (k, v) ∈ l := by
  induction l with
  | nil => exact .inl (mem_singleton.1 h)
  | cons head rest ih =>
    obtain ⟨k', v'⟩ := head
    unfold put at h
    split at h
    · exact mem_cons.1 h
    · split at h
      · exact (mem_cons.1 h).imp_right (mem_cons_of_mem _)
      · rcases mem_cons.1 h with h | h
        · exact .inr (h ▸ mem_cons_self)
        · exact (ih h).imp_right (mem_cons_of_mem _)

theorem mem_put_self {α : Type} (key : Nat) (value : α) (l : List (Nat × α)) : (key, value) ∈ put key value l := by
  induction l with
  | nil => exact mem_singleton.2 rfl
  | cons head rest ih =>
    obtain ⟨k', v'⟩ := head
    unfold put
    split
    · exact mem_cons_self
    · split
      · exact mem_cons_self
      · exact mem_cons_of_mem _ ih

theorem mem_put_of_ne {α : Type} {value v : α} {l : List (Nat × α)} (hne : k ≠ key) (h : (k, v) ∈ l) :
    (k, v) ∈ put key value l := by
  induction l with
  | nil => cases h
  | cons head rest ih =>
    obtain ⟨k', v'⟩ := head
    unfold put
    split
    · exact mem_cons_of_mem _ h
    · rcases mem_cons.1 h with h | h
      · injection h with hk hv
        subst hk hv
        rw [if_neg (Ne.symm hne)]
        exact mem_cons_self
      · split
        · exact mem_cons_of_mem _ h
        · exact mem_cons_of_mem _ (ih h)

theorem Tracks.refl (p : Project) : Tracks p p [] where
  source _ file h := ⟨file.text, h⟩
  entry _ _ _ h := absurd h not_mem_nil
  same _ _ _ h := h

theorem restore_same (hnone : ∀ text, (i, text) ∉ saved) : (restore q saved).sources[i]? = q.sources[i]? := by
  induction saved generalizing q with
  | nil => rfl
  | cons head rest ih =>
    obtain ⟨k, t⟩ := head
    have hk : k ≠ i := fun he => hnone t (he ▸ mem_cons_self)
    change (restore (q.setText k t) rest).sources[i]? = _
    rw [ih fun text ht => hnone text (mem_cons_of_mem _ ht), setText_get, if_neg hk]

theorem restore_saved (hentry : ∀ text, (i, text) ∈ saved → file.text = text)
    (hq : ∃ text, q.sources[i]? = some { file with text := text }) (hsaved : ∃ text, (i, text) ∈ saved) :
    (restore q saved).sources[i]? = some file := by
  induction saved generalizing q with
  | nil =>
    obtain ⟨text, htext⟩ := hsaved
    cases htext
  | cons head rest ih =>
    obtain ⟨k, t⟩ := head
    obtain ⟨text, hq⟩ := hq
    have hentry' : ∀ text, (i, text) ∈ rest → file.text = text := fun text ht => hentry text (mem_cons_of_mem _ ht)
    change (restore (q.setText k t) rest).sources[i]? = _
    by_cases hrest : ∃ text, (i, text) ∈ rest
    · refine ih hentry' ?_ hrest
      rw [setText_get, hq]
      split
      · exact ⟨t, rfl⟩
      · exact ⟨text, rfl⟩
    · rw [restore_same fun text ht => hrest ⟨text, ht⟩, setText_get, hq]
      obtain ⟨t', ht'⟩ := hsaved
      rcases mem_cons.1 ht' with he | ht'
      · injection he with hi ht
        subst hi ht
        rw [if_pos rfl, ← hentry _ mem_cons_self]
        rfl
      · exact absurd ⟨t', ht'⟩ hrest

theorem Tracks.restored (h : Tracks p q saved) : p.Kept (restore q saved) := by
  intro i file hi
  by_cases hsaved : ∃ text, (i, text) ∈ saved
  · exact restore_saved (fun text ht => h.entry i text file ht hi) (h.source i file hi) hsaved
  · have hnone : ∀ text, (i, text) ∉ saved := fun text ht => hsaved ⟨text, ht⟩
    rw [restore_same hnone]
    exact h.same i file hnone hi

variable {result : Project × Saved}

theorem Tracks.applySource {group : Nat × List ResolvedEdit} (h : Tracks p q saved)
    (happly : applySource (q, saved) group = some result) : Tracks p result.1 result.2 := by
  obtain ⟨source, edits⟩ := group
  simp only [Fixing.applySource, bind_eq_bind, bind_eq_some_iff, Option.some.injEq] at happly
  obtain ⟨before, hbefore, fixed, -, rfl⟩ := happly
  obtain ⟨current, hcurrent, htext⟩ := map_eq_some_iff.1 hbefore
  simp only
  have hkeeps : ∀ j t, (j, t) ∈ saved → ∃ t', (j, t') ∈ if (saved.lookup source).isSome then saved else
      put source before saved := by
    intro j t ht
    split
    · exact ⟨t, ht⟩
    · by_cases hj : j = source
      · exact ⟨before, hj ▸ mem_put_self source before saved⟩
      · exact ⟨t, mem_put_of_ne hj ht⟩
  have hhere : ∃ t, (source, t) ∈ if (saved.lookup source).isSome then saved else put source before saved := by
    split
    · rename_i hsome
      obtain ⟨t, ht⟩ := isSome_iff_exists.1 hsome
      exact ⟨t, by obtain ⟨_, _, rfl, -⟩ := List.lookup_eq_some_iff.mp ht; simp⟩
    · exact ⟨before, mem_put_self source before saved⟩
  constructor
  · intro j file hj
    obtain ⟨text, hq⟩ := h.source j file hj
    rw [setText_get, hq]
    split
    · exact ⟨fixed, rfl⟩
    · exact ⟨text, rfl⟩
  · intro j t file hmem hj
    split at hmem
    · exact h.entry j t file hmem hj
    · rename_i hnone
      rcases mem_put hmem with heq | hmem
      · injection heq with hsource ht
        subst hsource ht
        by_cases hsaved : ∃ t, (j, t) ∈ saved
        · obtain ⟨t, ht⟩ := hsaved
          have : (saved.lookup j).isSome := by
            rw [lookup_isSome_iff]
            exact ⟨(j, t), ht, by simp⟩
          exact absurd this hnone
        · have hsame := h.same j file (fun t ht => hsaved ⟨t, ht⟩) hj
          rw [hsame] at hcurrent
          rw [← htext, ← Option.some.inj hcurrent]
      · exact h.entry j t file hmem hj
  · intro j file hnone hj
    have hne : source ≠ j := by
      rintro rfl
      obtain ⟨t, ht⟩ := hhere
      exact hnone t ht
    rw [setText_get, if_neg hne]
    refine h.same j file (fun t ht => ?_) hj
    obtain ⟨t', ht'⟩ := hkeeps j t ht
    exact hnone t' ht'

theorem Tracks.apply {chosen : List Candidate} (h : Tracks p q saved)
    (happly : apply q chosen saved = some result) : Tracks p result.1 result.2 := by
  unfold Fixing.apply at happly
  generalize bySource (chosen.flatMap (·.edits)) = groups at happly
  induction groups generalizing q saved with
  | nil =>
    obtain rfl := Option.some.inj happly
    exact h
  | cons group groups ih =>
    rw [foldlM_cons, bind_eq_bind, bind_eq_some_iff] at happly
    obtain ⟨⟨q', saved'⟩, hfirst, hrest⟩ := happly
    exact ih (h.applySource hfirst) hrest

theorem requireNamedStd_get (sourcesFor : SourcesFor) {i : Nat} (h : q.sources[i]? = some file) :
    (q.requireNamedStd sourcesFor).sources[i]? = some file := by
  rw [Project.requireNamedStd]
  simp only
  rw [List.getElem?_append_left (List.getElem?_eq_some_iff.1 h).1, h]

theorem Tracks.requireNamedStd (sourcesFor : SourcesFor) (h : Tracks p q saved) :
    Tracks p (q.requireNamedStd sourcesFor) saved where
  source i file hi := by
    obtain ⟨text, hq⟩ := h.source i file hi
    exact ⟨text, requireNamedStd_get sourcesFor hq⟩
  entry := h.entry
  same i file hnone hi := requireNamedStd_get sourcesFor (h.same i file hnone hi)

end Saving

section Runs

variable {σ : Type} {c : Setting σ} {s t : State σ} {p : Project} {state : σ}

def Setting.Accepted (c : Setting σ) (s t : State σ) : Prop :=
  ∃ chosen skipped project saved, collect s.project s.current c.options = .ok (chosen, skipped) ∧ chosen ≠ [] ∧
    s.rounds ≠ maxRounds ∧ apply s.project chosen s.saved = some (project, saved) ∧
    t.project = project.requireNamedStd c.sourcesFor ∧ (t.current, t.state) = c.analyze t.project s.state ∧
    worsened t.project s.current (withoutFixable t.project t.current c.options) = none ∧ t.saved = saved ∧
    t.applied = s.applied ++ chosen.map (fun candidate =>
      ({ candidate.record with status := .applied (s.rounds + 1) }, candidate.edits)) ∧
    t.rounds = s.rounds + 1

theorem round_next : c.round s = .next t ↔ c.Accepted s t := by
  unfold Setting.round Setting.Accepted
  cases hcollect : collect s.project s.current c.options with
  | error error => simp
  | ok found =>
    obtain ⟨chosen, skipped⟩ := found
    simp only
    by_cases hempty : chosen = []
    · simp [hempty]
    · rw [if_neg (by simpa using hempty)]
      by_cases hrounds : s.rounds = maxRounds
      · simp [hrounds]
      · rw [if_neg hrounds]
        cases happly : apply s.project chosen s.saved with
        | none => simp [happly]
        | some result =>
          obtain ⟨project, saved⟩ := result
          simp only
          constructor
          · intro h
            split at h
            · cases h
            · rename_i hbetter
              injection h with h
              subst h
              exact ⟨chosen, skipped, project, saved, rfl, hempty, hrounds, happly, rfl, rfl, hbetter, rfl, rfl, rfl⟩
          · rintro ⟨chosen', skipped', project', saved', hchosen, -, -, happly', hp, hanalysis, hbetter, hs, ha, hr⟩
            simp only [Except.ok.injEq, Prod.mk.injEq] at hchosen
            obtain ⟨rfl, rfl⟩ := hchosen
            rw [happly] at happly'
            cases happly'
            obtain ⟨tp, ts, tc, tsaved, tapplied, trounds⟩ := t
            simp only at hp hanalysis hbetter hs ha hr
            have hcurrent : tc = (c.analyze tp s.state).1 := congrArg Prod.fst hanalysis
            have hstate : ts = (c.analyze tp s.state).2 := congrArg Prod.snd hanalysis
            subst hp hcurrent hstate hs ha hr
            split
            · rename_i hworse
              exact nomatch hbetter.symm.trans hworse
            · rfl

/-- Some accepted rounds, one after the other. -/
inductive Setting.Rounds (c : Setting σ) (s : State σ) : Nat → State σ → Prop
  | zero : Rounds c s 0 s
  | succ {n : Nat} {t u : State σ} (rounds : Rounds c s n t) (accepted : c.Accepted t u) : Rounds c s (n + 1) u

def Setting.Transactional (c : Setting σ) (p : Project) (state : σ) : Prop :=
  ∀ result p' state', c.run p state = some (result, p', state') → match result with
    | .error _ => p.Kept p'
    | .ok report => report.rounds ≤ maxRounds ∧ ∃ s, c.Rounds (c.start p state) report.rounds s ∧ s.project = p' ∧
        s.current = report.last ∧
        (report.rounds = 0 ∨ worsened p' (c.start p state).current report.last = none)

def Setting.LimitMetUnchanged (c : Setting σ) (p : Project) (state : σ) : Prop :=
  ∀ n s, c.Rounds (c.start p state) n s → ∀ error, collect s.project s.current c.options = .error error →
    p.Kept s.project

theorem Accepted.tracks (h : Tracks p s.project s.saved) (ha : c.Accepted s t) : Tracks p t.project t.saved := by
  obtain ⟨chosen, skipped, project, saved, -, -, -, happly, hp, -, -, hs, -, -⟩ := ha
  rw [hp, hs]
  exact (h.apply happly).requireNamedStd c.sourcesFor

variable {n : Nat} {error : SourceError} {p' : Project} {state' : σ} {original : Analysis}

theorem Rounds.tracks (h : c.Rounds (c.start p state) n s) : Tracks p s.project s.saved := by
  induction h with
  | zero => exact Tracks.refl p
  | succ _ accepted ih => exact Accepted.tracks ih accepted

theorem Rounds.count (h : c.Rounds (c.start p state) n s) : s.rounds = n ∧ n ≤ maxRounds := by
  induction h with
  | zero => exact ⟨rfl, Nat.zero_le _⟩
  | @succ n t u _ accepted ih =>
    obtain ⟨_, _, _, _, -, -, hrounds, -, -, -, -, -, -, hcount⟩ := accepted
    omega

theorem round_failed (h : Tracks p s.project s.saved) (hround : c.round s = .failed error p' state') :
    (p' = s.project ∧ collect s.project s.current c.options = .error error) ∨ p.Kept p' := by
  unfold Setting.round at hround
  split at hround
  · rename_i error' hcollect
    injection hround with herror hp
    subst herror hp
    exact .inl ⟨rfl, hcollect⟩
  · split at hround
    · cases hround
    · split at hround
      · cases hround
      · split at hround
        · cases hround
        · rename_i happly
          simp only at hround
          split at hround
          · injection hround with _ hp
            subst hp
            exact .inr ((h.apply happly).requireNamedStd c.sourcesFor).restored
          · cases hround

theorem loop_next (hround : c.round s = .next t) (hs : s.rounds ≤ maxRounds) (ht : t.rounds ≤ maxRounds) :
    c.loop original s hs = c.loop original t ht := by
  rw [Setting.loop]
  split <;> rename_i heq <;> rw [hround] at heq <;> cases heq
  rfl

theorem loop_failed (hround : c.round s = .failed error p' state') (hs : s.rounds ≤ maxRounds) :
    c.loop original s hs = some (.error error, p', state') := by
  rw [Setting.loop]
  split <;> rename_i heq <;> rw [hround] at heq <;> cases heq
  rfl

theorem loop_rounds (h : c.Rounds (c.start p state) n s) (hs : s.rounds ≤ maxRounds) :
    c.loop original (c.start p state) (Nat.zero_le _) = c.loop original s hs := by
  induction h with
  | zero => rfl
  | @succ n t u rounds accepted ih =>
    have ht : t.rounds ≤ maxRounds := by
      have := Rounds.count rounds
      omega
    rw [ih ht, loop_next (round_next.2 accepted) ht hs]

theorem loop_transactional (hlimit : c.LimitMetUnchanged p state) {result : Except SourceError Report} :
    ∀ (k n : Nat) (s : State σ) (hs : s.rounds ≤ maxRounds), maxRounds - s.rounds = k →
    c.Rounds (c.start p state) n s → c.loop (c.start p state).current s hs = some (result, p', state') →
    match result with
    | .error _ => p.Kept p'
    | .ok report => report.rounds ≤ maxRounds ∧ ∃ s, c.Rounds (c.start p state) report.rounds s ∧ s.project = p' ∧
        s.current = report.last ∧
        (report.rounds = 0 ∨ worsened p' (c.start p state).current report.last = none) := by
  intro k
  induction k using Nat.strongRecOn with
  | ind k ih =>
    intro n s hs hk hrounds hloop
    have htracks := Rounds.tracks hrounds
    rw [Setting.loop] at hloop
    split at hloop
    · cases hloop
    · rename_i error q st hround
      obtain ⟨rfl, hp⟩ := Prod.mk.inj (Option.some.inj hloop)
      cases hp
      rcases round_failed htracks hround with ⟨rfl, hcollect⟩ | hkept
      · exact hlimit n s hrounds error hcollect
      · exact hkept
    · rename_i stop skipped hround
      have hresult := Option.some.inj hloop
      unfold State.finish at hresult
      simp only at hresult
      split at hresult
      · obtain ⟨rfl, hp⟩ := Prod.mk.inj hresult
        cases hp
        exact htracks.restored
      · rename_i hbetter
        obtain ⟨rfl, hp⟩ := Prod.mk.inj hresult
        cases hp
        refine ⟨hs, s, (Rounds.count hrounds).1 ▸ hrounds, rfl, rfl, ?_⟩
        by_cases hzero : s.rounds = 0
        · exact .inl hzero
        · rw [if_pos (Nat.pos_of_ne_zero hzero)] at hbetter
          exact .inr hbetter
    · rename_i t hround
      have hcount := Setting.rounds_of_next hround
      exact ih (maxRounds - t.rounds) (by omega) (n + 1) t _ rfl (hrounds.succ (round_next.1 hround)) hloop

theorem Setting.Transactional.limitMet {c : Setting σ} {p : Project} {state : σ} (h : c.Transactional p state) :
    c.LimitMetUnchanged p state := by
  intro n s hrounds error hcollect
  have hround : c.round s = .failed error s.project s.state := by
    rw [Setting.round, hcollect]
  have hs : s.rounds ≤ maxRounds := by
    have := Rounds.count hrounds
    omega
  have hrun : c.run p state = some (.error error, s.project, s.state) := by
    rw [Setting.run, loop_rounds hrounds hs, loop_failed hround hs]
  exact h _ _ _ hrun

theorem Setting.LimitMetUnchanged.transactional (h : c.LimitMetUnchanged p state) : c.Transactional p state :=
  fun _ _ _ hrun => loop_transactional h _ 0 (c.start p state) (Nat.zero_le _) rfl .zero hrun

/-- A run keeps its promise exactly when no collection fails at the limit with changed texts. -/
theorem run_transactional_iff (c : Setting σ) (p : Project) (state : σ) :
    c.Transactional p state ↔ c.LimitMetUnchanged p state :=
  ⟨fun h => h.limitMet, fun h => h.transactional⟩

/-- The texts only change in a round that is accepted, so a limit met before the first of them does no harm. -/
theorem transactional_of_collected (h : ∀ n s, c.Rounds (c.start p state) (n + 1) s →
      ∀ error, collect s.project s.current c.options ≠ .error error) : c.Transactional p state := by
  refine Setting.LimitMetUnchanged.transactional fun n s hrounds error hcollect => ?_
  cases hrounds with
  | zero => exact fun _ _ hfile => hfile
  | succ rounds accepted => exact absurd hcollect (h _ s (rounds.succ accepted) error)

end Runs

/-! ## Too many fixes in the second round -/

section TooMany

def letter (text : Text) : SourceFile where
  path := "a"
  relativePath := ["a"]
  text := text
  origin := .user
  package := none

def letterFix (source : Nat) : Fix where
  title := "write y"
  applicability := .certain
  edits := [{ span := { start := 0, stop := 1, source := some source }, text := ['y'] }]

def letterWarning (source : Nat) : Diagnostic where
  code := "W"
  kind := none
  message := "not y"
  span := { start := 0, stop := 1, source := some source }
  fixes := [letterFix source]

def letterWarnings (n : Nat) : Analysis where
  errors := { diagnostics := [], omitted := 0, omittedIsLowerBound := false }
  warnings := (List.range n).map letterWarning

def letterEdit (source : Nat) : ResolvedEdit where
  source := source
  start := 0
  stop := 1
  text := ['y']

def letters : Project where
  sources := List.replicate (maxCandidates + 1) (letter ['x'])
  root := 0
  rootPackage := none

def letterSetting : Setting Unit where
  sourcesFor _ := []
  options := { threshold := .certain, scope := .project, onlyCodes := none }
  analyze p _ := (letterWarnings (if p.text? 0 = some ['x'] then 1 else maxCandidates + 1), ())

def Letters (p : Project) (n : Nat) : Prop :=
  p.rootPackage = none ∧ ∀ k < n, p.sources[k]? = some (letter ['x']) ∨ p.sources[k]? = some (letter ['y'])

variable {p : Project} {n k : Nat}

theorem Letters.text (h : Letters p n) (hk : k < n) : p.text? k = some ['x'] ∨ p.text? k = some ['y'] := by
  unfold Project.text?
  rcases h.2 k hk with h | h <;> rw [h]
  · exact .inl rfl
  · exact .inr rfl

theorem grownSizes_letter (h : Letters p n) (hk : k < n) {sizes : List (Nat × Nat)} (hsizes : sizes.lookup k = none) :
    grownSizes p [letterEdit k] sizes = some [(k, 1)] := by
  have hsize : ((p.text? k).getD []).size = 1 := by
    rcases h.text hk with h | h <;> rw [h] <;> rfl
  have hgrow : growSize p sizes [] (letterEdit k) = some [(k, 1)] := by
    simp only [growSize, letterEdit, lookup_nil, getD_none, hsizes, hsize]
    rfl
  simp only [grownSizes, foldlM_cons, foldlM_nil, hgrow, bind_eq_bind, bind_some]
  rfl

theorem validate_letter (h : Letters p n) (hk : k < n) : validate p (letterFix k) .project = .ok [letterEdit k] := by
  have hresolve : (letterFix k).edits.map (resolve p) = [letterEdit k] := rfl
  have hown : ownSource p (letterEdit k) = true := by
    have hroot := h.1
    unfold ownSource letterEdit
    rcases h.2 k hk with h | h <;> simp only [h] <;> rfl
  have hin : inText p (letterEdit k) = true := by
    unfold inText letterEdit
    rcases h.text hk with h | h <;> simp only [h] <;> rfl
  have hsmall : (decide (maxEditText < (letterEdit k).text.size)) = false := rfl
  have hgrown : grownSizes p [letterEdit k] [] = some [(k, 1)] := grownSizes_letter h hk rfl
  unfold validate
  simp only [hresolve, any_cons, any_nil, hown, hin, hsmall, hgrown, mergeSort_singleton]
  rfl

theorem propose_letter (h : Letters p n) (hk : k < n) : propose p letterSetting.options (letterWarning k) =
    some (.inr { record := record p (letterWarning k) (letterFix k) (.applied 0), edits := [letterEdit k] }) := by
  unfold propose
  have hvalid : validate p (letterFix k) letterSetting.options.scope = .ok [letterEdit k] := validate_letter h hk
  have hfind : (letterFix k :: []).find? (fun fix => letterSetting.options.threshold.admits fix.applicability) =
      some (letterFix k) := rfl
  have hcodes : (letterSetting.options.onlyCodes.any fun codes => decide ((letterWarning k).code ∉ codes)) = false :=
    rfl
  change (if _ then none else _) = _
  rw [hcodes, if_neg Bool.false_ne_true]
  simp only [letterWarning] at hfind ⊢
  rw [hfind]
  simp only [hvalid]

def letterCandidate (p : Project) (k : Nat) : Candidate where
  record := record p (letterWarning k) (letterFix k) (.applied 0)
  edits := [letterEdit k]

theorem lookup_put_ne {α : Type} {j : Nat} (hne : j ≠ key) (value : α) (l : List (Nat × α)) :
    (put key value l).lookup j = l.lookup j := by
  have hbeq : (j == key) = false := by simpa using hne
  induction l with
  | nil => simp [put, lookup_cons, hbeq]
  | cons head rest ih =>
    obtain ⟨k, v⟩ := head
    unfold put
    split
    · rw [lookup_cons, hbeq]
    · split
      · rename_i hkey
        rw [lookup_cons, lookup_cons, ← hkey, hbeq]
      · rw [lookup_cons, lookup_cons, ih]

theorem dedup_of_pairwise {l : List Candidate} (h : l.Pairwise fun a b => a.edits ≠ b.edits) : dedup l = l := by
  induction l with
  | nil => rfl
  | cons a rest ih =>
    obtain ⟨hfirst, hrest⟩ := pairwise_cons.1 h
    rw [dedup, ih hrest]
    cases rest with
    | nil => rfl
    | cons b rest => exact if_neg fun he => hfirst b mem_cons_self he.symm

theorem take_letters (h : Letters p n) {l : List Candidate} : ∀ {t : Taking},
    l.Pairwise (fun a b => a.edits ≠ b.edits) →
    (∀ c ∈ l, ∃ k < n, c.edits = [letterEdit k] ∧ t.accepted.lookup k = none ∧ t.sizes.lookup k = none) →
    (l.foldl (Taking.candidate p) t).chosen = t.chosen ++ l ∧ (l.foldl (Taking.candidate p) t).skipped = t.skipped := by
  induction l with
  | nil => exact fun _ _ => ⟨(append_nil _).symm, rfl⟩
  | cons c rest ih =>
    intro t hpairs hfree
    obtain ⟨hfirst, hpairs⟩ := pairwise_cons.1 hpairs
    obtain ⟨k, hk, hedits, haccepted, hsizes⟩ := hfree c mem_cons_self
    have hconflict : conflicts t.accepted (letterEdit k) = false := by
      unfold conflicts
      rw [show (letterEdit k).source = k from rfl, haccepted]
    have htaken : Taking.candidate p t c =
        { accepted := takeEdit t.accepted (letterEdit k), sizes := put k 1 t.sizes, chosen := t.chosen ++ [c]
          skipped := t.skipped } := by
      unfold Taking.candidate
      rw [hedits]
      simp only [any_cons, any_nil, hconflict, Bool.or_false, Bool.false_eq_true, if_false,
        grownSizes_letter h hk hsizes, foldl_cons, foldl_nil]
    rw [foldl_cons, htaken]
    have hrest := ih (t := ⟨takeEdit t.accepted (letterEdit k), put k 1 t.sizes, t.chosen ++ [c], t.skipped⟩) hpairs ?_
    · obtain ⟨hchosen, hskipped⟩ := hrest
      exact ⟨by rw [hchosen, append_assoc]; rfl, hskipped⟩
    · intro d hd
      obtain ⟨j, hj, hedits', haccepted', hsizes'⟩ := hfree d (mem_cons_of_mem _ hd)
      have hne : j ≠ k := by
        rintro rfl
        exact hfirst d hd (hedits.trans hedits'.symm)
      exact ⟨j, hj, hedits', (lookup_put_ne hne _ _).trans haccepted', (lookup_put_ne hne _ _).trans hsizes'⟩

variable {m : Nat}

theorem collect_letters (h : Letters p n) (hm : m ≤ n) : ∃ chosen : List Candidate,
    chosen.Perm ((List.range m).map (letterCandidate p)) ∧ collect p (letterWarnings m) letterSetting.options =
      if maxCandidates < m then .error candidateLimit else .ok (chosen, []) := by
  have hproposed : (letterWarnings m).warnings.filterMap (propose p letterSetting.options) =
      (List.range m).map fun k => .inr (letterCandidate p k) := by
    simp only [letterWarnings, filterMap_map]
    rw [← filterMap_eq_map]
    refine filterMap_congr fun k hk => ?_
    exact propose_letter h (Nat.lt_of_lt_of_le (mem_range.1 hk) hm)
  have hskipped : ((List.range m).map fun k => (Sum.inr (letterCandidate p k) : FixRecord ⊕ Candidate)).filterMap
      Sum.getLeft? = [] := by
    rw [filterMap_map]
    exact filterMap_eq_nil_iff.2 fun k _ => rfl
  have hcandidates : ((List.range m).map fun k => (Sum.inr (letterCandidate p k) : FixRecord ⊕ Candidate)).filterMap
      Sum.getRight? = (List.range m).map (letterCandidate p) := by
    rw [filterMap_map, ← filterMap_eq_map]
    rfl
  have hpairs : ((List.range m).map (letterCandidate p)).Pairwise fun a b => a.edits ≠ b.edits := by
    refine pairwise_map.2 ((nodup_range).imp fun hne heq => hne ?_)
    simpa [letterCandidate, letterEdit] using heq
  have hperm := mergeSort_perm ((List.range m).map (letterCandidate p)) Candidate.le
  generalize hsorted : ((List.range m).map (letterCandidate p)).mergeSort Candidate.le = sorted at hperm
  have hpairs' : sorted.Pairwise fun a b => a.edits ≠ b.edits :=
    hperm.symm.pairwise hpairs Ne.symm
  obtain ⟨hchosen, hnone⟩ := take_letters h (t := ⟨[], [], [], []⟩) hpairs' fun c hc => by
    obtain ⟨k, hk, rfl⟩ := mem_map.1 (hperm.mem_iff.1 hc)
    exact ⟨k, Nat.lt_of_lt_of_le (mem_range.1 hk) hm, rfl, rfl, rfl⟩
  have hcount : sorted.length = m := by
    rw [hperm.length_eq, length_map, length_range]
  refine ⟨sorted, hperm, ?_⟩
  unfold collect
  simp only [show (letterWarnings m).errors.diagnostics = [] from rfl, nil_append, hproposed, hskipped,
    hcandidates, hsorted, dedup_of_pairwise hpairs', hchosen, hnone, hcount]

theorem letters_start : Letters letters (maxCandidates + 1) := by
  refine ⟨rfl, fun k hk => .inl ?_⟩
  rw [letters, getElem?_replicate, if_pos hk]

theorem letters_setText (h : Letters p n) (k : Nat) : Letters (p.setText k ['y']) n := by
  refine ⟨h.1, fun i hi => ?_⟩
  rw [setText_get]
  split
  · rcases h.2 i hi with h | h <;> exact .inr (by rw [h]; rfl)
  · exact h.2 i hi

theorem letterSetting_start : letterSetting.start letters () =
    { project := letters, state := (), current := letterWarnings 1, saved := [], applied := [], rounds := 0 } := by
  have htext : letters.text? 0 = some ['x'] := by
    rw [Project.text?, letters, getElem?_replicate, if_pos (Nat.zero_lt_succ _)]
    rfl
  simp only [Setting.start, letterSetting, htext, if_pos]

def letterSecond : State Unit where
  project := letters.setText 0 ['y']
  state := ()
  current := letterWarnings (maxCandidates + 1)
  saved := [(0, ['x'])]
  applied := [({ (letterCandidate letters 0).record with status := .applied 1 }, [letterEdit 0])]
  rounds := 1

theorem withoutFixable_letters (h : Letters p n) (hm : m ≤ n) :
    withoutFixable p (letterWarnings m) letterSetting.options = letterWarnings 0 := by
  have hnone : (letterWarnings m).warnings.filter (fun d => !fixable p letterSetting.options d) = [] := by
    refine filter_eq_nil_iff.2 fun d hd => ?_
    obtain ⟨k, hk, rfl⟩ := mem_map.1 hd
    have hvalid := validate_letter h (Nat.lt_of_lt_of_le (mem_range.1 hk) hm)
    have hfixable : fixable p letterSetting.options (letterWarning k) = true := by
      have hfind : (letterWarning k).fixes.find? (fun fix => letterSetting.options.threshold.admits fix.applicability) =
          some (letterFix k) := rfl
      unfold fixable
      rw [hfind]
      simp only [any_some, show letterSetting.options.scope = .project from rfl, hvalid, Bool.and_true]
      rfl
    simp [hfixable]
  unfold withoutFixable
  rw [hnone]
  rfl

theorem letterSetting_accepts : letterSetting.Accepted (letterSetting.start letters ()) letterSecond := by
  obtain ⟨chosen, hperm, hcollect⟩ := collect_letters (m := 1) letters_start (by decide)
  have hchosen : chosen = [letterCandidate letters 0] := perm_singleton.1 hperm
  subst hchosen
  rw [if_neg (by decide)] at hcollect
  have hletters := letters_setText letters_start 0
  have hstd : (letters.setText 0 ['y']).requireNamedStd letterSetting.sourcesFor = letters.setText 0 ['y'] := by
    simp [Project.requireNamedStd, letterSetting]
  have htext : letters.text? 0 = some ['x'] := by
    rw [Project.text?, letters, getElem?_replicate, if_pos (Nat.zero_lt_succ _)]
    rfl
  have htext' : (letters.setText 0 ['y']).text? 0 = some ['y'] := by
    rw [Project.text?, setText_get, if_pos rfl, letters, getElem?_replicate, if_pos (Nat.zero_lt_succ _)]
    rfl
  have happly : apply letters [letterCandidate letters 0] [] = some (letters.setText 0 ['y'], [(0, ['x'])]) := by
    have hgroups : bySource ([letterCandidate letters 0].flatMap (·.edits)) = [(0, [letterEdit 0])] := rfl
    have hsplice : splice ['x'] [letterEdit 0] = some ['y'] := rfl
    rw [Fixing.apply, hgroups]
    simp only [foldlM_cons, foldlM_nil, applySource, htext, mergeSort_singleton, hsplice, bind_eq_bind, bind_some]
    rfl
  rw [letterSetting_start]
  refine ⟨_, _, _, _, hcollect, cons_ne_nil _ _, by decide, happly, hstd.symm, ?_, ?_, rfl, rfl, rfl⟩
  · simp only [letterSetting, letterSecond, htext', Option.some.injEq, List.cons.injEq, and_true]
    rfl
  · have hbetter : withoutFixable letterSecond.project letterSecond.current letterSetting.options = letterWarnings 0 :=
      withoutFixable_letters hletters (Nat.le_refl _)
    rw [hbetter]
    rfl

/-- The second round has too many fixes, and leaves the first source changed. -/
theorem letters_not_transactional : ¬ letterSetting.Transactional letters () := by
  intro h
  have hlimit := h.limitMet
  obtain ⟨chosen, -, hcollect⟩ := collect_letters (letters_setText letters_start 0) (Nat.le_refl _)
  rw [if_pos (Nat.lt_succ_self _)] at hcollect
  have hkept := hlimit 1 letterSecond (.succ .zero letterSetting_accepts) candidateLimit hcollect
  have hfirst : letters.sources[0]? = some (letter ['x']) := by
    rw [letters, getElem?_replicate, if_pos (Nat.zero_lt_succ _)]
  have hchanged := hkept 0 _ hfirst
  rw [letterSecond, setText_get, if_pos rfl, hfirst] at hchanged
  exact absurd hchanged (by decide)

end TooMany

end Tsuzuri.Fixing
