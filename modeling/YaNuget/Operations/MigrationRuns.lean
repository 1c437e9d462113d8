import YaNuget.Data.Runs
import YaNuget.Operations.Migration

/-!
# Migrations that are run again

Importing a version and unlisting it are two steps, and a later run passes over
what is present. What the runs leave behind is as in the source as long as none
stops between the two.
-/
namespace YaNuget.Migrating

open Concurrency Op Fallible Discovery Database

section Source

variable (source : Source) (target : Target)

/-- The answers of a run are those of the source, or fail. -/
structure Answers.From (a : Answers) : Prop where
  serves : (a.upstream source).Serves source.feed
  versions : ∀ lower, a.upstreamVersions lower = .ok (source.versions lower) ∨
    ∃ e, a.upstreamVersions lower = .error e
  unlisted : ∀ lower, a.upstreamUnlisted lower = .ok (source.unlisted lower) ∨
    ∃ e, a.upstreamUnlisted lower = .error e

def Answers.silent : Answers where
  resources := .error ""
  getSearchPage _ := .error ""
  getCatalogIndex _ := .error ""
  getCatalogPage _ := .error ""
  upstreamVersions _ := .error ""
  upstreamUnlisted _ := .error ""
  looks _ _ := (true, true)

def Source.Exposes (id : String) : Prop :=
  (Answers.silent.upstream source).Exposes source.feed id

/-- A version of the source that parses and passes the filter, of a package whose id is valid in
each case the source spells it in. -/
structure Offered (k : VersionKey) (id raw : String) (version : Versions.NuGetVersion) : Prop where
  exposed : source.Exposes id
  valid : ∀ id', source.Exposes id' → source.toLowercase id' = source.toLowercase id →
    Listings.validatePackageId id'.toList = .ok ()
  present : raw ∈ source.versions (source.toLowercase id)
  parses : Versions.NuGetVersion.parse raw.toList = .ok version
  passes : target.includePrerelease = true ∨ version.isPrerelease = false
  key_eq : k = versionKey (source.toLowercase id) (String.ofList version.normalized)

/-- The version is to be copied unless it is tombstoned. -/
def Due (k : VersionKey) : Prop := ∃ id raw version, Offered source target k id raw version

end Source

section Listing

variable {source : Source} {target : Target} {a : Answers} {s : Store Unit} {id lower raw : String}

theorem play_listItem (feed : FeedName) (k : VersionKey) (t e : Bool) :
    ((listItem feed k true).run.play (server Unit) () [t, e] s).1 =
      some (.ok !((!t && s.db.isTombstoned feed k) || (!e && s.db.existsIn feed k))) := by
  cases t <;> cases e <;> rfl

theorem listVersion_eq_some {item : WorkItem} (h : listVersion target a s id lower raw = some item) :
    item.lowerId = lower ∧ item.unlisted = false := by
  unfold listVersion at h
  split at h
  · simp at h
  · split_ifs at h
    simp only at h
    split at h
    · cases h
      exact ⟨rfl, rfl⟩
    · simp at h

/-- A version that parses and passes the filter is listed, unless it is deleted or there. -/
theorem listVersion_due (a : Answers) (s : Store Unit) (id lower : String)
    {version : Versions.NuGetVersion}
    (hparse : Versions.NuGetVersion.parse raw.toList = .ok version)
    (hfilter : target.includePrerelease = true ∨ version.isPrerelease = false) :
    s.db.isTombstoned target.feed (versionKey lower (String.ofList version.normalized)) = true ∨
      s.db.existsIn target.feed (versionKey lower (String.ofList version.normalized)) = true ∨
      ∃ item, listVersion target a s id lower raw = some item ∧
        item.key = versionKey lower (String.ofList version.normalized) := by
  have hpasses : (!target.includePrerelease && version.isPrerelease) = false := by
    rcases hfilter with hfilter | hfilter <;> simp [hfilter]
  set key := versionKey lower (String.ofList version.normalized) with hkey
  by_cases hdeleted : s.db.isTombstoned target.feed key = true
  · exact Or.inl hdeleted
  · by_cases hthere : s.db.existsIn target.feed key = true
    · exact Or.inr (Or.inl hthere)
    · refine Or.inr (Or.inr ⟨⟨id, lower, version, false⟩, ?_, rfl⟩)
      have hlook := play_listItem (s := s) target.feed key (a.looks id raw).1 (a.looks id raw).2
      simp only [hdeleted, hthere, Bool.and_false, Bool.or_false, Bool.not_false] at hlook
      simp only [listVersion, hparse, hpasses, Bool.false_eq_true, if_false]
      rw [show WorkItem.key ⟨id, lower, version, false⟩ = key from rfl, hlook]

/-- What a package adds to the work is listed as the source lists it. -/
theorem list_spec (ha : a.From source) {items : List WorkItem}
    (hok : list source target a s id = .ok items) :
    (∀ item ∈ items, item.unlisted = source.unlists item) ∧
      ∀ raw ∈ source.versions (source.toLowercase id), ∀ item,
        listVersion target a s id (source.toLowercase id) raw = some item →
          ∃ item' ∈ items, item'.key = item.key := by
  unfold list at hok
  split at hok
  · cases hok
  · rcases ha.versions (source.toLowercase id) with hversions | ⟨e, he⟩
    · simp only [hversions] at hok
      split_ifs at hok with hempty
      · cases hok
        refine ⟨by simp, fun raw hraw item hitem => ?_⟩
        have hmem := List.mem_filterMap.mpr ⟨raw, hraw, hitem⟩
        rw [List.isEmpty_iff.mp hempty] at hmem
        simp at hmem
      · rcases ha.unlisted (source.toLowercase id) with hunlisted | ⟨e, he⟩
        · simp only [hunlisted, Except.ok.injEq] at hok
          subst hok
          constructor
          · intro item hitem
            obtain ⟨listed, hlisted, rfl⟩ := List.mem_map.mp hitem
            obtain ⟨raw, -, hraw⟩ := List.mem_filterMap.mp hlisted
            simp only [Source.unlists, (listVersion_eq_some hraw).1]
          · intro raw hraw item hitem
            exact ⟨_, List.mem_map_of_mem (List.mem_filterMap.mpr ⟨raw, hraw, hitem⟩), rfl⟩
        · simp [he] at hok
    · simp [he] at hok

/-- The first phase of a run plans every version that is due, or reports a failure. -/
theorem plan_spec {run : Run} (ha : a.From source) (hvalve : source.feed.list.WithinValve)
    (hsearch : ¬ (a.upstream source).SearchLost source.feed)
    (hplan : plan source target a s = .ok run) :
    (∀ task ∈ run.tasks, task.stage = .waiting ∧ task.item.unlisted = source.unlists task.item) ∧
      (run.failures = [] → ∀ k, Due source target k → s.db.isTombstoned target.feed k = true ∨
        s.db.existsIn target.feed k = true ∨ ∃ task ∈ run.tasks, task.item.key = k) := by
  unfold plan at hplan
  split at hplan
  · cases hplan
  · next found hfound =>
    cases hplan
    constructor
    · intro task htask
      obtain ⟨item, hitem, rfl⟩ := List.mem_map.mp htask
      obtain ⟨result, hresult, hmem⟩ := List.mem_flatMap.mp hitem
      obtain ⟨id, -, rfl⟩ := List.mem_map.mp hresult
      cases hlist : list source target a s id with
      | error failure => simp [hlist, Except.toOption] at hmem
      | ok items =>
        refine ⟨rfl, (list_spec ha hlist).1 item ?_⟩
        simpa [hlist, Except.toOption] using hmem
    · rintro hnone k ⟨id, raw, version, hoffered⟩
      obtain ⟨hfailures, hlists⟩ := List.append_eq_nil_iff.mp hnone
      have hcomplete := ((Upstream.completeOrSaysSo_of_not_searchLost ha.serves hvalve hsearch) _
        hfound).1 (List.map_eq_nil_iff.mp hfailures)
      obtain ⟨id', hid', hlower⟩ := List.mem_map.mp (hcomplete.all id hoffered.exposed)
      have hvalid := hoffered.valid id' (hcomplete.exposed id' hid') hlower
      have hkept : id' ∈ found.ids.filter fun id =>
          (Listings.validatePackageId id.toList).isOk :=
        List.mem_filter.mpr ⟨hid', by rw [hvalid]; rfl⟩
      cases hlist : list source target a s id' with
      | error failure =>
        have hmem := List.filterMap_eq_nil_iff.mp hlists _ (List.mem_map_of_mem hkept)
        simp [hlist] at hmem
      | ok items =>
        have hlower' : source.toLowercase id' = source.toLowercase id := hlower
        rw [hoffered.key_eq, ← hlower']
        rcases listVersion_due a s id' (source.toLowercase id') hoffered.parses hoffered.passes with
          hdeleted | hthere | ⟨item, hitem, hkey⟩
        · exact Or.inl hdeleted
        · exact Or.inr (Or.inl hthere)
        · obtain ⟨item', hitem', hkey'⟩ := (list_spec ha hlist).2 raw
            (by rw [hlower']; exact hoffered.present) item hitem
          refine Or.inr (Or.inr ⟨⟨item', .waiting⟩, ?_, hkey'.trans hkey⟩)
          refine List.mem_map_of_mem (List.mem_flatMap.mpr ⟨_, List.mem_map_of_mem hkept, ?_⟩)
          simpa [hlist, Except.toOption] using hitem'

end Listing

namespace Migration

/-- The tasks of the run in progress. -/
def tasks (s : Migration) : List Task := s.run.elim [] Run.tasks

end Migration

/-- The version has come in with this copy, or was found in the feed. -/
def Stage.arrived : Stage → Prop
  | .unlisting | .done (.imported _) | .done .skipped => True
  | _ => False

section Invariant

variable (source : Source) (target : Target)

abbrev Migration.row (s : Migration) (item : WorkItem) : Option Membership :=
  s.store.db.feedPackages.row (target.feed, item.key)

def Settled (s : Migration) (item : WorkItem) : Prop :=
  ∃ m, s.row target item = some m ∧ m.listed = !source.unlists item

def Accounted (s : Migration) (k : VersionKey) : Prop :=
  s.store.db.isTombstoned target.feed k = true ∨ s.store.db.existsIn target.feed k = true

/-- What holds between the steps of runs none of which stops between the two steps of a copy. -/
structure Kept (s : Migration) : Prop where
  flags : ∀ task ∈ s.tasks, task.item.unlisted = source.unlists task.item
  arrived : ∀ task ∈ s.tasks, task.stage.arrived → (s.row target task.item).isSome
  nodup : (s.imported.map WorkItem.key).Nodup
  awaiting : ∀ task ∈ s.tasks, task.stage = .unlisting →
    task.item ∈ s.imported ∧ task.item.unlisted = true
  settled : ∀ item ∈ s.imported, Settled source target s item ∨
    (s.row target item).isSome ∧ ∃ task ∈ s.tasks, task.item = item ∧ task.stage = .unlisting
  covers : ∀ run, s.run = some run → run.failures = [] → ∀ k, Due source target k →
    Accounted target s k ∨ ∃ task ∈ run.tasks, task.item.key = k
  report : s.report = some [] → s.run = none ∧ ∀ k, Due source target k → Accounted target s k

/-- The condition on a step: search is read to its end, or fails where there is no catalog, and
between the import of a version that the source has unlisted and its unlisting nothing stops or
fails. -/
def Careful (s : Migration) : Action → Prop
  | .start a => source.feed.list.WithinValve ∧ ¬ (a.upstream source).SearchLost source.feed
  | .index i download calls => ∀ task bytes, s.tasks[i]? = some task → download = .ok bytes →
      task.item.unlisted = true →
      let indexed := (indexItem target task.item bytes).run.play (server Unit) () calls s.store
      indexed.1 = none →
        indexed.2.db.existsIn target.feed task.item.key =
          s.store.db.existsIn target.feed task.item.key
  | .settle i fails => ∀ task, s.tasks[i]? = some task → task.stage = .unlisting → fails = false
  | .finish => True
  | .stop => ∀ task ∈ s.tasks, task.stage ≠ .unlisting

/-- The first phase of a run is answered by the source. -/
def Action.From : Action → Prop
  | .start a => a.From source
  | _ => True

end Invariant

section Steps

variable {source : Source} {target : Target} {s : Migration} {run : Run} {i : ℕ} {task : Task}
variable {stage : Stage} {store : Store Unit} {k : VersionKey}

theorem Settled.isSome {item : WorkItem} (h : Settled source target s item) :
    (s.row target item).isSome := by
  obtain ⟨m, hm, -⟩ := h
  simp [hm]

theorem Kept.imported_isSome (h : Kept source target s) {item : WorkItem} (hitem : item ∈ s.imported) :
    (s.row target item).isSome := by
  rcases h.settled item hitem with hsettled | ⟨hsome, -⟩
  · exact hsettled.isSome
  · exact hsome

theorem Kept.settled_of_idle (h : Kept source target s)
    (hidle : ∀ task ∈ s.tasks, task.stage ≠ .unlisting) :
    ∀ item ∈ s.imported, Settled source target s item := by
  intro item hitem
  rcases h.settled item hitem with hsettled | ⟨-, task, htask, -, hstage⟩
  · exact hsettled
  · exact (hidle task htask hstage).elim

theorem tasks_of_run (hrun : s.run = some run) : s.tasks = run.tasks := by
  simp [Migration.tasks, hrun]

theorem Kept.over (h : Kept source target s) (hidle : ∀ task ∈ s.tasks, task.stage ≠ .unlisting)
    {s' : Migration} (hrun : s'.run = none) (hdb : s'.store.db = s.store.db)
    (himported : s'.imported = s.imported)
    (hreport : s'.report = some [] → ∀ k, Due source target k → Accounted target s' k) :
    Kept source target s' := by
  have htasks : s'.tasks = [] := by simp [Migration.tasks, hrun]
  refine ⟨by simp [htasks], by simp [htasks], by rw [himported]; exact h.nodup, by simp [htasks],
    fun item hitem => ?_, by simp [hrun], fun hempty => ⟨hrun, hreport hempty⟩⟩
  rw [himported] at hitem
  obtain ⟨m, hm, hlisted⟩ := h.settled_of_idle hidle item hitem
  exact Or.inl ⟨m, by rw [Migration.row, hdb]; exact hm, hlisted⟩

theorem mem_set {tasks : List Task} {item : WorkItem} {t : Task}
    (h : t ∈ tasks.set i ⟨item, stage⟩) : t ∈ tasks ∨ t = ⟨item, stage⟩ :=
  List.mem_or_eq_of_mem_set h

theorem mem_set_of_ne {tasks : List Task} {item : WorkItem} {t : Task} (h : t ∈ tasks)
    (hi : tasks[i]? = some task) (hne : t ≠ task) : t ∈ tasks.set i ⟨item, stage⟩ := by
  obtain ⟨j, hj⟩ := List.mem_iff_getElem?.mp h
  refine List.mem_iff_getElem?.mpr ⟨j, ?_⟩
  rw [List.getElem?_set_ne ?_, hj]
  rintro rfl
  exact hne (Option.some.inj (hj.symm.trans hi))

theorem self_mem_set {tasks : List Task} {item : WorkItem} (hi : tasks[i]? = some task) :
    (⟨item, stage⟩ : Task) ∈ tasks.set i ⟨item, stage⟩ := by
  have hlt : i < tasks.length := (List.getElem?_eq_some_iff.mp hi).1
  exact List.mem_iff_getElem?.mpr ⟨i, List.getElem?_set_self hlt⟩

/-- A task goes on to another stage, by a step that loses no membership and no tombstone. -/
theorem Kept.advance (h : Kept source target s) (hrun : s.run = some run)
    (hi : run.tasks[i]? = some task) {s' : Migration}
    (hrun' : s'.run = some { run with tasks := run.tasks.set i ⟨task.item, stage⟩ })
    (hreport' : s'.report = s.report)
    (htombstones : s'.store.db.tombstones = s.store.db.tombstones)
    (hkeeps : ∀ key, (s.store.db.feedPackages.row key).isSome →
      (s'.store.db.feedPackages.row key).isSome)
    (harrived : stage.arrived → (s'.row target task.item).isSome)
    (hnodup : (s'.imported.map WorkItem.key).Nodup) (hgrows : s.imported ⊆ s'.imported)
    (hawaiting : stage = .unlisting → task.item ∈ s'.imported ∧ task.item.unlisted = true)
    (hsettled : ∀ item ∈ s'.imported, Settled source target s' item ∨
      (s'.row target item).isSome ∧ ∃ t ∈ run.tasks.set i ⟨task.item, stage⟩,
        t.item = item ∧ t.stage = .unlisting) :
    Kept source target s' := by
  have htasks := tasks_of_run hrun
  have htasks' : s'.tasks = run.tasks.set i ⟨task.item, stage⟩ := tasks_of_run hrun'
  have htask : task ∈ run.tasks := List.mem_of_getElem? hi
  have haccounted : ∀ k, Accounted target s k → Accounted target s' k := by
    rintro k (hdeleted | hthere)
    · left
      simpa [Database.isTombstoned, htombstones] using hdeleted
    · exact Or.inr (hkeeps _ hthere)
  constructor
  case flags =>
    rw [htasks']
    intro t ht
    rcases mem_set ht with hold | rfl
    · exact h.flags t (by rwa [htasks])
    · exact h.flags task (by rwa [htasks])
  case arrived =>
    rw [htasks']
    intro t ht hstage
    rcases mem_set ht with hold | rfl
    · exact hkeeps _ (h.arrived t (by rwa [htasks]) hstage)
    · exact harrived hstage
  case nodup => exact hnodup
  case awaiting =>
    rw [htasks']
    intro t ht hstage
    rcases mem_set ht with hold | rfl
    · obtain ⟨himported, hunlisted⟩ := h.awaiting t (by rwa [htasks]) hstage
      exact ⟨hgrows himported, hunlisted⟩
    · exact hawaiting hstage
  case settled =>
    rw [htasks']
    exact hsettled
  case covers =>
    intro run' hrun'' hnone k hdue
    obtain rfl := Option.some.inj (hrun'.symm.trans hrun'')
    rcases h.covers run hrun hnone k hdue with hk | ⟨t, ht, hkey⟩
    · exact Or.inl (haccounted k hk)
    · right
      by_cases hsame : t = task
      · subst hsame
        exact ⟨⟨t.item, stage⟩, self_mem_set hi, hkey⟩
      · exact ⟨t, mem_set_of_ne ht hi hsame, hkey⟩
  case report =>
    intro hempty
    rw [hreport'] at hempty
    rw [(h.report hempty).1] at hrun
    cases hrun

/-- A version that waits to be unlisted still does when another task goes on. -/
theorem Kept.settled_of_ne (h : Kept source target s) (hrun : s.run = some run)
    (hi : run.tasks[i]? = some task) {s' : Migration} {item : WorkItem} (hitem : item ∈ s.imported)
    (hother : task.stage = .unlisting → task.item ≠ item)
    (hrow : s'.row target item = s.row target item) :
    Settled source target s' item ∨ (s'.row target item).isSome ∧
      ∃ t ∈ run.tasks.set i ⟨task.item, stage⟩, t.item = item ∧ t.stage = .unlisting := by
  rcases h.settled item hitem with ⟨m, hm, hlisted⟩ | ⟨hsome, t, ht, rfl, hstage⟩
  · exact Or.inl ⟨m, hrow.trans hm, hlisted⟩
  · right
    rw [tasks_of_run hrun] at ht
    refine ⟨by rwa [hrow], t, mem_set_of_ne ht hi ?_, rfl, hstage⟩
    rintro rfl
    exact hother hstage rfl

theorem Kept.setStage (h : Kept source target s) (hrun : s.run = some run)
    (hi : run.tasks[i]? = some task) (hold : task.stage ≠ .unlisting) (hnew : stage ≠ .unlisting)
    (harrived : stage.arrived → (s.row target task.item).isSome) :
    Kept source target (s.setStage run i task.item stage) :=
  h.advance hrun hi rfl rfl rfl (fun _ h => h) harrived h.nodup (fun _ h => h)
    (fun hunlisting => (hnew hunlisting).elim) fun _ hitem =>
      h.settled_of_ne hrun hi hitem (fun hunlisting => (hold hunlisting).elim) rfl

end Steps

section Effects

variable {source : Source} {target : Target} {s : Migration} {run : Run} {i : ℕ} {task : Task}

/-- The copy of a version, wherever it is cut off. -/
theorem play_indexItem (target : Target) (item : WorkItem) (bytes : Content) (calls : List Bool)
    (s : Store Unit) :
    let indexed := (indexItem target item bytes).run.play (server Unit) () calls s
    Brings (target.feed, item.key) s.db indexed.2.db ∧
      ∀ result, indexed.1 = some result →
        Copied (target.feed, item.key) s.db result indexed.2.db := by
  have hexpect : (target.options.index .disabled item.ref false).expect =
      some ⟨item.ref.id, item.ref.normalized⟩ := rfl
  exact (copies_indexPackage target.site rfl rfl hexpect bytes).play calls

/-- The version has come in between the two. -/
abbrev Brought (key : FeedName × VersionKey) (db db' : Database) : Prop :=
  db.feedPackages.row key = none ∧ (db'.feedPackages.row key).isSome

theorem listed_of_brought {key : FeedName × VersionKey} {db db' : Database}
    (hbrings : Brings key db db') (h : Brought key db db') :
    ∃ m, db'.feedPackages.row key = some m ∧ m.listed = true := by
  rcases hbrings.own with hsame | ⟨-, hnew⟩
  · rw [Brought, hsame, h.1] at h
    cases h.2
  · exact hnew

/-- A membership that was there stays as it is. -/
theorem row_of_brings {key other : FeedName × VersionKey} {db db' : Database}
    (hbrings : Brings key db db') (hsome : (db.feedPackages.row other).isSome) :
    db'.feedPackages.row other = db.feedPackages.row other := by
  by_cases hkey : other = key
  · subst hkey
    rcases hbrings.own with hsame | ⟨hnone, -⟩
    · exact hsame
    · simp [hnone] at hsome
  · exact hbrings.others other hkey

/-- The state after an indexing: the version is among those imported if it has come in. -/
theorem index_eq (target : Target) (s : Migration) (run : Run) (i : ℕ) (item : WorkItem) (bytes : Content)
    (calls : List Bool) :
    let indexed := (indexItem target item bytes).run.play (server Unit) () calls s.store
    let s' := s.index target run i item bytes calls
    s'.run = some { run with
        tasks := run.tasks.set i ⟨item, indexed.1.elim .cut (afterIndexing target item)⟩ } ∧
      s'.store = indexed.2 ∧ s'.report = s.report ∧
      ((Brought (target.feed, item.key) s.store.db indexed.2.db ∧
          s'.imported = item :: s.imported) ∨
        (¬ Brought (target.feed, item.key) s.store.db indexed.2.db ∧
          s'.imported = s.imported)) := by
  refine ⟨rfl, rfl, rfl, ?_⟩
  simp only [Migration.index, Migration.setStage]
  split_ifs with hbrought
  · refine Or.inl ⟨?_, rfl⟩
    simpa [Brought, Database.existsIn] using hbrought
  · refine Or.inr ⟨fun hcame => hbrought ?_, rfl⟩
    simp [Database.existsIn, hcame.1, hcame.2]

theorem ok_of_arrived {item : WorkItem} {result : Option (Except Error IndexResult)}
    (h : (result.elim .cut (afterIndexing target item)).arrived) : ∃ r, result = some (.ok r) := by
  rcases result with _ | e | r
  · exact h.elim
  · cases e <;> exact h.elim
  · exact ⟨r, rfl⟩

/-- After an indexing every version imported is settled, or waits to be unlisted. -/
theorem Kept.index (h : Kept source target s) (hrun : s.run = some run)
    (hi : run.tasks[i]? = some task) (hstage : task.stage = .waiting) {bytes : Content}
    {calls : List Bool}
    (hcareful : Careful source target s (.index i (.ok bytes) calls)) :
    Kept source target (s.index target run i task.item bytes calls) := by
  obtain ⟨hbrings, hcopied⟩ := play_indexItem target task.item bytes calls s.store
  obtain ⟨hrun', hstore, hreport, himported⟩ :=
    index_eq target s run i task.item bytes calls
  have hcareful' := hcareful task bytes (by rw [tasks_of_run hrun]; exact hi) rfl
  set s' := s.index target run i task.item bytes calls
  set indexed := (indexItem target task.item bytes).run.play (server Unit) () calls s.store
  have hflag : task.item.unlisted = source.unlists task.item := by
    apply h.flags
    rw [tasks_of_run hrun]
    exact List.mem_of_getElem? hi
  have hold : ∀ item ∈ s.imported, s'.row target item = s.row target item := by
    intro item hitem
    rw [Migration.row, hstore]
    exact row_of_brings hbrings (h.imported_isSome hitem)
  apply h.advance hrun hi hrun' hreport
  case htombstones => rw [hstore]; exact hbrings.tombstones
  case hkeeps => rw [hstore]; exact fun _ => hbrings.isSome
  case harrived =>
    intro harrived
    obtain ⟨r, hr⟩ := ok_of_arrived harrived
    have hcame : Brought _ _ _ := hcopied _ hr
    rw [Migration.row, hstore]
    exact hcame.2
  case hnodup =>
    rcases himported with ⟨hcame, heq⟩ | ⟨-, heq⟩
    · rw [heq]
      refine List.nodup_cons.mpr ⟨fun hmem => ?_, h.nodup⟩
      obtain ⟨item, hitem, hkey⟩ := List.mem_map.mp hmem
      have hsome := h.imported_isSome hitem
      rw [Migration.row, hkey, hcame.1] at hsome
      cases hsome
    · rw [heq]
      exact h.nodup
  case hgrows =>
    rcases himported with ⟨-, heq⟩ | ⟨-, heq⟩
    · rw [heq]
      exact List.subset_cons_self _ _
    · rw [heq]
      exact fun _ h => h
  case hawaiting =>
    intro hunlisting
    obtain ⟨r, hr⟩ := ok_of_arrived (by rw [hunlisting]; trivial)
    have hcame : Brought _ _ _ := hcopied _ hr
    rcases himported with ⟨-, heq⟩ | ⟨hnot, -⟩
    · refine ⟨by rw [heq]; exact List.mem_cons_self, ?_⟩
      by_contra hlisted
      simp [hr, afterIndexing, hlisted] at hunlisting
    · exact (hnot hcame).elim
  case hsettled =>
    intro item hitem
    by_cases hmem : item ∈ s.imported
    · refine h.settled_of_ne hrun hi hmem (fun hunlisting => ?_) (hold item hmem)
      rw [hstage] at hunlisting
      cases hunlisting
    · rcases himported with ⟨hcame, heq⟩ | ⟨-, heq⟩
      · obtain rfl : item = task.item := by
          rw [heq] at hitem
          exact (List.mem_cons.mp hitem).resolve_right hmem
        obtain ⟨m, hm, hlisted⟩ := listed_of_brought hbrings hcame
        rw [← hstore] at hm
        cases hunlisted : task.item.unlisted with
        | false => exact Or.inl ⟨m, hm, by rw [hlisted, ← hflag, hunlisted]; rfl⟩
        | true =>
          refine Or.inr ⟨by rw [Migration.row, hm]; rfl, _, self_mem_set hi, rfl, ?_⟩
          rcases hr : indexed.1 with _ | e | r
          · have hsame := hcareful' hunlisted hr
            simp only [Database.existsIn, hcame.1, hcame.2] at hsame
            cases hsame
          · have hmoved : Database.Unmoved _ _ := hcopied _ hr
            rw [Brought, hmoved.rows, hcame.1] at hcame
            cases hcame.2
          · simp [afterIndexing, hunlisted]
      · rw [heq] at hitem
        exact (hmem hitem).elim

/-- After its unlisting a version is as in the source. -/
theorem Kept.unlist (h : Kept source target s) (hrun : s.run = some run)
    (hi : run.tasks[i]? = some task) (hstage : task.stage = .unlisting) :
    Kept source target (s.unlist target run i task.item false) := by
  have htask : task ∈ s.tasks := by
    rw [tasks_of_run hrun]
    exact List.mem_of_getElem? hi
  obtain ⟨himported, hunlisted⟩ := h.awaiting task htask hstage
  obtain ⟨m, hm⟩ := Option.isSome_iff_exists.mp (h.imported_isSome himported)
  set s' := s.unlist target run i task.item false
  have hrun' : s'.run = some { run with
      tasks := run.tasks.set i ⟨task.item, .done (.imported true)⟩ } := rfl
  have hrow : ∀ key, s'.store.db.feedPackages.row key =
      if key = (target.feed, task.item.key) then
        (s.store.db.feedPackages.row key).map fun m => { m with listed := false, listingSet := true }
      else s.store.db.feedPackages.row key :=
    row_updateMembership s.store.db target.feed task.item.key _
  have hkeeps : ∀ key, (s.store.db.feedPackages.row key).isSome →
      (s'.store.db.feedPackages.row key).isSome := by
    intro key hsome
    rw [hrow]
    split_ifs
    · rwa [Option.isSome_map]
    · exact hsome
  apply h.advance hrun hi hrun' rfl rfl hkeeps
  case harrived => exact fun _ => hkeeps _ (h.imported_isSome himported)
  case hnodup => exact h.nodup
  case hgrows => exact fun _ h => h
  case hawaiting => rintro ⟨⟩
  case hsettled =>
    intro item hitem
    by_cases hsame : item = task.item
    · subst hsame
      left
      refine ⟨{ m with listed := false, listingSet := true }, ?_, ?_⟩
      · have hm' : s.store.db.feedPackages.row (target.feed, task.item.key) = some m := hm
        rw [Migration.row, hrow, if_pos rfl, hm', Option.map_some]
      · rw [← h.flags task htask, hunlisted]
        rfl
    · apply h.settled_of_ne hrun hi hitem fun _ heq => hsame heq.symm
      rw [Migration.row, hrow, if_neg]
      intro hkey
      exact hsame (List.inj_on_of_nodup_map h.nodup hitem himported (Prod.mk.inj hkey).2)

theorem lookUp_eq (s : Migration) (run : Run) (i : ℕ) (item : WorkItem) (e : Error) (fails : Bool) :
    s.lookUp target run i item e fails = s.setStage run i item
      (afterRefusal target item e (!fails && s.store.db.existsIn target.feed item.key)) := by
  cases fails <;> rfl

/-- A version refused as existing is passed over only if it is in the feed. -/
theorem Kept.lookUp (h : Kept source target s) (hrun : s.run = some run)
    (hi : run.tasks[i]? = some task) {e : Error} (hstage : task.stage = .refused e) (fails : Bool) :
    Kept source target (s.lookUp target run i task.item e fails) := by
  rw [lookUp_eq]
  apply h.setStage hrun hi
  case hold => rw [hstage]; rintro ⟨⟩
  case hnew => unfold afterRefusal failed; split_ifs <;> rintro ⟨⟩
  case harrived =>
    intro harrived
    by_contra habsent
    have hfalse : s.store.db.existsIn target.feed task.item.key = false := by
      simpa [Database.existsIn] using habsent
    simp only [hfalse, Bool.and_false, afterRefusal, failed, Bool.false_eq_true, if_false]
      at harrived
    split_ifs at harrived <;> exact harrived

end Effects

section Runs

variable {source : Source} {target : Target} {s s' : Migration} {a : Action}

/-- A run that comes to its end without a failure has accounted for every version that is due. -/
theorem Kept.finish {run : Run} (h : Kept source target s) (hrun : s.run = some run)
    (hended : ∀ task ∈ run.tasks, task.stage.ended = true)
    (hnone : run.failures ++ run.tasks.filterMap Task.failure? = []) :
    ∀ k, Due source target k → Accounted target s k := by
  intro k hdue
  obtain ⟨hread, hcopied⟩ := List.append_eq_nil_iff.mp hnone
  rcases h.covers run hrun hread k hdue with hk | ⟨task, htask, rfl⟩
  · exact hk
  · right
    have hclean := List.filterMap_eq_nil_iff.mp hcopied task htask
    have hdone := hended task htask
    have harrived : task.stage.arrived := by
      cases hstage : task.stage with
      | done outcome =>
        cases outcome with
        | imported unlisted => trivial
        | skipped => trivial
        | failed failure => simp [Task.failure?, hstage] at hclean
      | waiting | unlisting | refused | cut => simp [hstage, Stage.ended] at hdone
    exact h.arrived task (by rwa [tasks_of_run hrun]) harrived

/-- Every careful step keeps the invariant. -/
theorem Kept.step (h : Kept source target s)
    (hfrom : a.From source) (hcareful : Careful source target s a)
    (hstep : s.step source target a = some s') : Kept source target s' := by
  cases a with
  | start a =>
    simp only [Migration.step] at hstep
    split at hstep
    · cases hstep
    · next hidle =>
      have hnone : ∀ task ∈ s.tasks, task.stage ≠ .unlisting := by simp [Migration.tasks, hidle]
      split at hstep
      · cases hstep
        exact h.over hnone hidle rfl rfl (by simp)
      · next run hplan =>
        cases hstep
        obtain ⟨hwork, hcovers⟩ := plan_spec hfrom hcareful.1 hcareful.2 hplan
        have hsettled := h.settled_of_idle hnone
        constructor
        case flags => exact fun task htask => (hwork task htask).2
        case arrived =>
          intro task htask harrived
          rw [(hwork task htask).1] at harrived
          exact harrived.elim
        case nodup => exact h.nodup
        case awaiting =>
          intro task htask hunlisting
          rw [(hwork task htask).1] at hunlisting
          cases hunlisting
        case settled => exact fun item hitem => Or.inl (hsettled item hitem)
        case covers =>
          rintro run' hrun' hread k hdue
          obtain rfl := Option.some.inj hrun'
          exact or_assoc.mpr (hcovers hread k hdue)
        case report => rintro ⟨⟩
  | index i download calls =>
    simp only [Migration.step, bind, Option.bind_eq_some_iff] at hstep
    obtain ⟨run, hrun, task, hi, hstep⟩ := hstep
    split_ifs at hstep with hstage
    cases download with
    | error e =>
      cases hstep
      exact h.setStage hrun hi (by rw [hstage]; rintro ⟨⟩) (by rintro ⟨⟩) fun harrived =>
        harrived.elim
    | ok bytes =>
      cases hstep
      exact h.index hrun hi hstage hcareful
  | settle i fails =>
    simp only [Migration.step, bind, Option.bind_eq_some_iff] at hstep
    obtain ⟨run, hrun, task, hi, hstep⟩ := hstep
    split at hstep
    · next hstage =>
      cases hstep
      obtain rfl := hcareful task (by rw [tasks_of_run hrun]; exact hi) hstage
      exact h.unlist hrun hi hstage
    · next e hstage =>
      cases hstep
      exact h.lookUp hrun hi hstage fails
    · cases hstep
  | finish =>
    simp only [Migration.step, bind, Option.bind_eq_some_iff] at hstep
    obtain ⟨run, hrun, hstep⟩ := hstep
    split_ifs at hstep with hended
    cases hstep
    have hended' : ∀ task ∈ run.tasks, task.stage.ended = true := by simpa using hended
    refine h.over (fun task htask hunlisting => ?_) rfl rfl rfl fun hnone =>
      h.finish hrun hended' (Option.some.inj hnone)
    rw [tasks_of_run hrun] at htask
    have hdone := hended' task htask
    simp [hunlisting, Stage.ended] at hdone
  | stop =>
    simp only [Migration.step, bind, Option.bind_eq_some_iff] at hstep
    obtain ⟨run, -, hstep⟩ := hstep
    cases hstep
    exact h.over hcareful rfl rfl rfl (by simp)

/-- A target that no run has been at. -/
def Migration.fresh (store : Store Unit) : Migration := ⟨store, none, [], none⟩

theorem kept_fresh (store : Store Unit) : Kept source target (.fresh store) where
  flags := by simp [Migration.tasks, Migration.fresh]
  arrived := by simp [Migration.tasks, Migration.fresh]
  nodup := List.nodup_nil
  awaiting := by simp [Migration.tasks, Migration.fresh]
  settled := by simp [Migration.fresh]
  covers := by rintro run ⟨⟩
  report := by rintro ⟨⟩

/-- After careful runs, the last of which reported no failure, the target has every version that is
due and not tombstoned, and lists each version the runs imported exactly when the source does. -/
theorem migrated_as_source (source : Source) (target : Target) (store : Store Unit)
    (actions : List Action) (s : Migration)
    (hrun : Runs.run (Migration.step source target) (.fresh store) actions = some s)
    (hfrom : ∀ a ∈ actions, a.From source)
    (hcareful : ∀ before a, before ++ [a] <+: actions → ∀ mid,
      Runs.run (Migration.step source target) (.fresh store) before = some mid →
        Careful source target mid a)
    (hreport : s.report = some []) :
    (∀ k, Due source target k → s.store.db.isTombstoned target.feed k = false →
      s.store.db.existsIn target.feed k = true) ∧
    ∀ item ∈ s.imported, ∃ m, s.row target item = some m ∧ m.listed = !source.unlists item := by
  have hkept : Kept source target s := by
    apply Runs.run_keeps_of (I := Kept source target)
      (C := fun s a => a.From source ∧ Careful source target s a) ?_ (kept_fresh store) ?_ actions
      (List.prefix_refl _) s hrun
    · intro s a s' hstep hC hs
      exact hs.step hC.1 hC.2 hstep
    · intro before a hbefore mid hmid
      have hmem : a ∈ actions := hbefore.subset (by simp)
      exact ⟨hfrom a hmem, hcareful before a hbefore mid hmid⟩
  obtain ⟨hidle, haccounted⟩ := hkept.report hreport
  constructor
  · intro k hdue hkept'
    rcases haccounted k hdue with hdeleted | hthere
    · rw [hkept'] at hdeleted
      cases hdeleted
    · exact hthere
  · exact hkept.settled_of_idle (by simp [Migration.tasks, hidle])

end Runs

/-! A sample: a source with one version, which it has unlisted. -/

section Sample

def sampleUpstream : Source where
  url := "u"
  redactUrl url := url
  resolveId _ _ := none
  toLowercase := String.map Char.toLower
  feed :=
    { resources := ⟨none, some "c"⟩
      list := ⟨[], List.nodup_nil, fun _ => 1, fun _ _ => Discovery.SearchList.single_pos,
        fun _ => Discovery.SearchList.single_le⟩
      index := ⟨some [⟨some "p", none⟩]⟩
      indexUrl := "c"
      page := fun _ => ⟨some [⟨none, some "Lib"⟩]⟩ }
  versions _ := ["1.0"]
  unlisted _ := ["1.0.0"]

def sampleAnswers : Answers where
  resources := .ok ⟨none, some "c"⟩
  getSearchPage _ := .ok none
  getCatalogIndex _ := .ok (some (⟨some [⟨some "p", none⟩]⟩, "c"))
  getCatalogPage _ := .ok (some ⟨some [⟨none, some "Lib"⟩]⟩)
  upstreamVersions _ := .ok ["1.0"]
  upstreamUnlisted _ := .ok ["1.0.0"]
  looks _ _ := (false, false)

def sampleCopies : Target where
  site := sampleSite
  feed := "a"
  options := ⟨false, default, [], 0⟩
  includePrerelease := true
  describe _ := "error"

theorem sampleAnswers_from : sampleAnswers.From sampleUpstream where
  serves := ⟨Or.inl rfl, by simp [sampleUpstream], fun _ _ => Or.inr rfl, fun _ => Or.inr rfl⟩
  versions _ := Or.inl rfl
  unlisted _ := Or.inl rfl

/-- The calls of an indexing, none of which fails. -/
def sampleCalls : List Bool := List.replicate 20 false

/-- The download of the first run fails, the second run is interrupted before it downloads, and the
third one copies the version and unlists it. -/
def sampleRun : List Action :=
  [.start sampleAnswers, .index 0 (.error "timeout") [], .finish, .start sampleAnswers, .stop,
    .start sampleAnswers, .index 0 (.ok [1]) sampleCalls, .settle 0 false, .finish]

/-- The first run is interrupted between the two steps of its copy. -/
def interruptedRun : List Action :=
  [.start sampleAnswers, .index 0 (.ok [1]) sampleCalls, .stop, .start sampleAnswers, .finish]

def sampleTest (s : Migration) : Action → Bool
  | .index _ _ _ => s.tasks.all fun task =>
      ((indexItem sampleCopies task.item [1]).run.play (server Unit) () sampleCalls s.store).1.isSome
  | .stop => s.tasks.all fun task => task.stage ≠ .unlisting
  | _ => true

theorem mem_sampleRun {a : Action} (ha : a ∈ sampleRun) :
    a = .start sampleAnswers ∨ a = .index 0 (.error "timeout") [] ∨
      a = .index 0 (.ok [1]) sampleCalls ∨ a = .settle 0 false ∨ a = .finish ∨ a = .stop := by
  simp only [sampleRun, List.mem_cons, List.not_mem_nil, or_false] at ha
  tauto

theorem careful_of_sampleTest {s : Migration} {a : Action} (ha : a ∈ sampleRun)
    (h : sampleTest s a = true) : Careful sampleUpstream sampleCopies s a := by
  rcases mem_sampleRun ha with rfl | rfl | rfl | rfl | rfl | rfl
  · refine ⟨⟨0, by decide, by simp [sampleUpstream]⟩, ?_⟩
    rintro ⟨-, -, search, hsearch, -⟩
    simp [sampleUpstream] at hsearch
  · rintro task bytes - ⟨⟩
  · rintro task bytes htask hbytes - indexed hcut
    obtain rfl : [1] = bytes := Except.ok.inj hbytes
    have hwhole := List.all_eq_true.mp h task (List.mem_of_getElem? htask)
    rw [Option.isSome_iff_ne_none] at hwhole
    exact (hwhole hcut).elim
  · exact fun _ _ _ => rfl
  · trivial
  · simpa [sampleTest, Careful] using h

theorem migrated_as_source_sample :
    ∃ s, Runs.run (Migration.step sampleUpstream sampleCopies) (.fresh (Store.empty Unit))
        sampleRun = some s ∧ s.imported ≠ [] ∧
      (∀ k, Due sampleUpstream sampleCopies k →
        s.store.db.isTombstoned sampleCopies.feed k = false →
          s.store.db.existsIn sampleCopies.feed k = true) ∧
      ∀ item ∈ s.imported, ∃ m, s.row sampleCopies item = some m ∧
        m.listed = !sampleUpstream.unlists item := by
  have htest : Runs.runs (Migration.step sampleUpstream sampleCopies) sampleTest
      (.fresh (Store.empty Unit)) sampleRun = true := by decide +kernel
  have hends : ((Runs.run (Migration.step sampleUpstream sampleCopies)
      (.fresh (Store.empty Unit)) sampleRun).any fun s =>
        s.report = some [] && !s.imported.isEmpty) = true := by decide +kernel
  obtain ⟨-, hpassed⟩ := Runs.run_of_runs htest
  obtain ⟨s, hrun, hend⟩ := (Option.any_eq_true _ _).mp hends
  simp only [Bool.and_eq_true, decide_eq_true_eq, Bool.not_eq_true', List.isEmpty_eq_false_iff]
    at hend
  refine ⟨s, hrun, hend.2, ?_⟩
  apply migrated_as_source sampleUpstream sampleCopies _ sampleRun s hrun ?_ ?_ hend.1
  · intro a ha
    rcases mem_sampleRun ha with rfl | rfl | rfl | rfl | rfl | rfl
    · exact sampleAnswers_from
    all_goals trivial
  · intro before a hbefore mid hmid
    exact careful_of_sampleTest (hbefore.subset (by simp)) (hpassed before a hbefore mid hmid)

/-- After an interruption between the two steps the next run passes the version over, and reports
no failure: it stays listed. -/
theorem interrupted_stays_listed :
    (∀ a ∈ interruptedRun, a.From sampleUpstream) ∧
    ∃ s, Runs.run (Migration.step sampleUpstream sampleCopies) (.fresh (Store.empty Unit))
        interruptedRun = some s ∧ s.report = some [] ∧
      ∃ item ∈ s.imported, sampleUpstream.unlists item = true ∧
        ∃ m, s.row sampleCopies item = some m ∧ m.listed = true := by
  constructor
  · intro a ha
    have hcases : a = .start sampleAnswers ∨ a = .index 0 (.ok [1]) sampleCalls ∨ a = .stop ∨
        a = .finish := by
      simp only [interruptedRun, List.mem_cons, List.not_mem_nil, or_false] at ha
      tauto
    rcases hcases with rfl | rfl | rfl | rfl
    · exact sampleAnswers_from
    · trivial
    · trivial
    · trivial
  · have hends : ((Runs.run (Migration.step sampleUpstream sampleCopies)
        (.fresh (Store.empty Unit)) interruptedRun).any fun s =>
          s.report = some [] && s.imported.any fun item =>
            sampleUpstream.unlists item && (s.row sampleCopies item).any (·.listed)) = true := by
      decide +kernel
    obtain ⟨s, hrun, hend⟩ := (Option.any_eq_true _ _).mp hends
    simp only [Bool.and_eq_true, decide_eq_true_eq, List.any_eq_true] at hend
    obtain ⟨hreport, item, hitem, hunlists, hrow⟩ := hend
    obtain ⟨m, hm, hlisted⟩ := (Option.any_eq_true _ _).mp hrow
    exact ⟨s, hrun, hreport, item, hitem, hunlists, m, hm, hlisted⟩

end Sample

end YaNuget.Migrating
