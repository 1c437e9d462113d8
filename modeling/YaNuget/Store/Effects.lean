import YaNuget.Store.Calls

/-!
# What the queries do

One lemma for each write: when it is refused, and what the tables hold
afterwards when it is not.
-/
namespace YaNuget.Database

open Policy

variable (db : Database) (f : FeedName) (k : VersionKey) (p : Package) (m : Membership)

@[simp] theorem row_modifyMembers (change : FeedName × VersionKey → Membership → Option Membership)
    (key : FeedName × VersionKey) :
    (db.modifyMembers change).feedPackages.row key = (db.feedPackages.row key).bind (change key) :=
  Table.row_modify _ _ _

@[simp] theorem row_upsertMembership (h : (db.packages.row k).isSome)
    (key : FeedName × VersionKey) :
    (db.upsertMembership f k m h).feedPackages.row key =
      if key = (f, k) then some m else db.feedPackages.row key :=
  Table.row_insert _ _ _ _

theorem getPackageData_eq_none : db.getPackageData k = none ↔ db.packages.row k = none := by
  simp [getPackageData]

theorem getPackageData_eq_some (p : PackageAt k) :
    db.getPackageData k = some p ↔ db.packages.row k = some p.1 := by
  obtain ⟨p, hp⟩ := p
  simp [getPackageData, Option.pmap_eq_some_iff, hp]

theorem feedCount_eq_zero : db.feedCount k = 0 ↔ ∀ f, db.feedPackages.row (f, k) = none := by
  rw [feedCount, Table.count_eq_zero]
  constructor
  · intro h f
    cases hm : db.feedPackages.row (f, k) with
    | none => rfl
    | some m => simpa using h (f, k) m hm
  · rintro h ⟨f, k'⟩ m hm
    by_cases hk : k' = k
    · subst hk
      simp [h f] at hm
    · simpa using hk

theorem eq_of_feedCount_le_one (h : db.feedCount k ≤ 1) {f g : FeedName} {m n : Membership}
    (hf : db.feedPackages.row (f, k) = some m) (hg : db.feedPackages.row (g, k) = some n) :
    f = g := by
  have := db.feedPackages.eq_of_count_le_one h hf (by simp) hg (by simp)
  exact congrArg Prod.fst this

theorem approvedIn_eq_nil :
    db.approvedIn k = [] ↔ ∀ f m, db.feedPackages.row (f, k) = some m → m.pending = true := by
  rw [List.eq_nil_iff_forall_not_mem]
  simp only [approvedIn, mem_feedsWhere, not_exists, not_and, Bool.not_eq_true', Bool.not_eq_false]

theorem insertMembership_cases :
    (∃ e, db.insertMembership f k m = (.error e, db)) ∨
      ∃ h, db.insertMembership f k m = (.ok (), db.upsertMembership f k m h) ∧
        db.feedPackages.row (f, k) = none := by
  unfold insertMembership
  split_ifs with hm hp
  · exact Or.inl ⟨_, rfl⟩
  · exact Or.inr ⟨hp, rfl, by simpa using hm⟩
  · exact Or.inl ⟨_, rfl⟩

/-- What a table change leaves alone. -/
structure SameRest (db db' : Database) : Prop where
  tombstones : db'.tombstones = db.tombstones
  packageFiles : db'.packageFiles = db.packageFiles
  symbols : db'.symbols = db.symbols

theorem addVersion_cases :
    (∃ e, db.addVersion p f m = (.error e, db)) ∨
      ∃ inserted db', db.addVersion p f m = (.ok inserted, db') ∧
        db.feedPackages.row (f, p.key) = none ∧
        (∀ k, db'.packages.row k =
          if k = p.key then some ((db.packages.row k).getD p) else db.packages.row k) ∧
        (∀ key, db'.feedPackages.row key =
          if key = (f, p.key) then some m else db.feedPackages.row key) ∧ SameRest db db' := by
  have hrows : ∀ k, (db.insertPackage p).2.packages.row k =
      if k = p.key then some ((db.packages.row k).getD p) else db.packages.row k := by
    intro k
    unfold insertPackage
    split_ifs with hsome hk hk
    · subst hk
      obtain ⟨q, hq⟩ := Option.isSome_iff_exists.mp hsome
      simp [hq]
    · rfl
    · subst hk
      have hnone : db.packages.row p.key = none := by simpa using hsome
      simp [hnone]
    · simp [hk]
  have hmembers : (db.insertPackage p).2.feedPackages = db.feedPackages := by
    unfold insertPackage
    split_ifs <;> rfl
  have hrest : SameRest db (db.insertPackage p).2 := by
    unfold insertPackage
    split_ifs <;> exact ⟨rfl, rfl, rfl⟩
  unfold addVersion
  rcases insertMembership_cases (db.insertPackage p).2 f p.key m with ⟨e, he⟩ | ⟨hp, he, hnone⟩
  · simp only [he]
    exact Or.inl ⟨e, rfl⟩
  · simp only [he]
    refine Or.inr ⟨_, _, rfl, by rwa [← hmembers], hrows, fun key => ?_, hrest.1, hrest.2, hrest.3⟩
    rw [row_upsertMembership, hmembers]

@[simp] theorem row_packages_replaceRows (k : VersionKey) :
    (db.replaceRows p f m).packages.row k = if k = p.key then some p else db.packages.row k :=
  row_packages_upsertPackage db p k

@[simp] theorem row_feedPackages_replaceRows (key : FeedName × VersionKey) :
    (db.replaceRows p f m).feedPackages.row key =
      if key = (f, p.key) then some m else db.feedPackages.row key := by
  rw [replaceRows, row_upsertMembership]
  rfl

/-- `m'` is `m` but for the flag. -/
structure SameButFlag (m m' : Membership) : Prop where
  listed : m'.listed = m.listed
  listingSet : m'.listingSet = m.listingSet
  enabled : m'.enabled = m.enabled
  pending : m'.pending = m.pending
  pinned : m'.pinned = m.pinned

/-- The two hold the same memberships, but for their flags. -/
def SameMembers (db db' : Database) : Prop :=
  ∀ key, (db.feedPackages.row key = none ∧ db'.feedPackages.row key = none) ∨
    ∃ m m', db.feedPackages.row key = some m ∧ db'.feedPackages.row key = some m' ∧ SameButFlag m m'

theorem judged_sameButFlag (verdicts : List (FeedName × PolicyOutcome))
    (key : FeedName × VersionKey) : SameButFlag m (judged k verdicts key m) := by
  unfold judged
  split
  · exact ⟨rfl, rfl, rfl, rfl, rfl⟩
  · exact ⟨rfl, rfl, rfl, rfl, rfl⟩

theorem reflag_sameMembers (verdicts : List (FeedName × PolicyOutcome)) :
    SameMembers db (db.reflag k verdicts) := by
  intro key
  cases hm : db.feedPackages.row key with
  | none => exact Or.inl ⟨rfl, by simp [reflag, hm]⟩
  | some m => exact Or.inr ⟨m, _, rfl, by simp [reflag, hm], judged_sameButFlag k m verdicts key⟩

theorem replacePendingVersion_cases (dropFiles : Bool) (others : List (FeedName × PolicyOutcome)) :
    (∃ e, db.replacePendingVersion p f m dropFiles others = (.error e, db)) ∨
      ∃ dropped db', db.replacePendingVersion p f m dropFiles others = (.ok dropped, db') ∧
        db.approvedIn p.key = [] ∧
        db'.packages = (db.replaceRows p f m).packages ∧ SameMembers (db.replaceRows p f m) db' ∧
        db'.tombstones = db.tombstones ∧ db'.symbols = db.symbols ∧
        db'.packageFiles = if dropFiles then db.packageFiles.filter fun e => e.1 ≠ p.key
          else db.packageFiles := by
  unfold replacePendingVersion
  dsimp only
  by_cases happroved : db.approvedIn p.key = []
  · rw [if_neg (by simp [happroved])]
    split
    · exact Or.inl ⟨_, rfl⟩
    · have same := reflag_sameMembers (db.replaceRows p f m) p.key (db.holderVerdicts p f others)
      cases dropFiles with
      | true => exact Or.inr ⟨_, _, rfl, happroved, rfl, same, rfl, rfl, rfl⟩
      | false => exact Or.inr ⟨_, _, rfl, happroved, rfl, same, rfl, rfl, rfl⟩
  · rw [if_pos (by simpa using happroved)]
    exact Or.inl ⟨_, rfl⟩

/-- A replacement that goes through: no other holder's verdict blocks it, and
each is recorded. -/
theorem replacePendingVersion_ok {dropFiles : Bool} {others : List (FeedName × PolicyOutcome)}
    {dropped : List PackageFile} {db' : Database}
    (h : db.replacePendingVersion p f m dropFiles others = (.ok dropped, db')) :
    (∀ v ∈ db.holderVerdicts p f others, v.2.allowed = true) ∧
      ∀ key, db'.feedPackages.row key = ((db.replaceRows p f m).feedPackages.row key).map
        (judged p.key (db.holderVerdicts p f others) key) := by
  unfold replacePendingVersion at h
  dsimp only at h
  split at h
  · simp at h
  split at h
  · simp at h
  · rename_i hnone
    have rows (key : FeedName × VersionKey) :
        ((db.replaceRows p f m).reflag p.key (db.holderVerdicts p f others)).feedPackages.row key =
          ((db.replaceRows p f m).feedPackages.row key).map
            (judged p.key (db.holderVerdicts p f others) key) := by
      rw [reflag, row_modifyMembers]
      cases (db.replaceRows p f m).feedPackages.row key <;> rfl
    refine ⟨fun v hv => ?_, fun key => ?_⟩
    · simpa using (List.find?_eq_none.mp hnone) v hv
    · split at h
      · obtain ⟨-, rfl⟩ := Prod.mk.inj h
        exact rows key
      · obtain ⟨-, rfl⟩ := Prod.mk.inj h
        exact rows key

theorem flagged_judged (verdicts : List (FeedName × PolicyOutcome)) (key : FeedName × VersionKey) :
    (judged k verdicts key m).flagged =
      ((verdicts.find? fun v => key = (v.1, k)).map fun v => v.2.violation.isSome).getD
        m.flagged := by
  unfold judged
  cases verdicts.find? fun v => key = (v.1, k) <;> rfl

theorem judged_of_ne (verdicts : List (FeedName × PolicyOutcome)) {key : FeedName × VersionKey}
    (hk : key.2 ≠ k) : judged k verdicts key m = m := by
  have hnone : (verdicts.find? fun v => key = (v.1, k)) = none := by
    rw [List.find?_eq_none]
    rintro v - hv
    exact hk (congrArg Prod.snd (of_decide_eq_true hv))
  simp only [judged, hnone]

theorem row_replacePendingVersion_of_ne (dropFiles : Bool)
    (others : List (FeedName × PolicyOutcome)) {key : FeedName × VersionKey}
    (hk : key.2 ≠ p.key) :
    (db.replacePendingVersion p f m dropFiles others).2.feedPackages.row key =
      db.feedPackages.row key := by
  rcases hrun : db.replacePendingVersion p f m dropFiles others with ⟨_ | dropped, db'⟩
  · rcases db.replacePendingVersion_cases f p m dropFiles others with ⟨e, he⟩ | ⟨_, _, he, -⟩
    · rw [he] at hrun
      rw [← (Prod.mk.inj hrun).2]
    · simp [he] at hrun
  · rw [(db.replacePendingVersion_ok f p m hrun).2, row_feedPackages_replaceRows,
      if_neg fun heq => hk (congrArg Prod.snd heq)]
    cases hm : db.feedPackages.row key with
    | none => rfl
    | some n => simp [judged_of_ne p.key n _ hk]

theorem find?_filterMap_find? (others : List (FeedName × PolicyOutcome)) (feeds : List FeedName)
    (g : FeedName) :
    ((feeds.filterMap fun g => others.find? fun o => o.1 = g).find? fun v => v.1 = g) =
      if g ∈ feeds then others.find? fun o => o.1 = g else none := by
  induction feeds with
  | nil => rfl
  | cons a feeds ih =>
    cases hfind : others.find? fun o => o.1 = a with
    | none =>
      rw [List.filterMap_cons, hfind]
      by_cases hg : g = a
      · subst hg
        simp [ih, hfind]
      · simp [ih, hg]
    | some v =>
      have hv : v.1 = a := by simpa using List.find?_some hfind
      rw [List.filterMap_cons, hfind]
      by_cases hg : g = a
      · subst hg
        simp [hv, hfind]
      · simp [hv, ih, hg, Ne.symm hg]

theorem find?_holderVerdicts (others : List (FeedName × PolicyOutcome)) (g : FeedName) :
    ((db.holderVerdicts p f others).find? fun v => (g, p.key) = (v.1, p.key)) =
      if g ≠ f ∧ (db.feedPackages.row (g, p.key)).isSome then others.find? fun o => o.1 = g
      else none := by
  have hfeeds : g ∈ db.feedsWhere p.key (fun g _ => g ≠ f) ↔
      g ≠ f ∧ (db.feedPackages.row (g, p.key)).isSome := by
    rw [mem_feedsWhere, Option.isSome_iff_exists]
    simp [and_comm]
  have hpred : (fun v : FeedName × PolicyOutcome => decide ((g, p.key) = (v.1, p.key))) =
      fun v => decide (v.1 = g) := by
    funext v
    simp [eq_comm]
  rw [hpred, holderVerdicts, find?_filterMap_find?]
  simp only [hfeeds]

theorem row_packages_deletePackageData (k' : VersionKey) :
    (db.deletePackageData k).2.packages.row k' = if k' = k then none else db.packages.row k' := by
  unfold deletePackageData
  dsimp only
  split_ifs with hp hk hk
  · rw [Table.row_erase, if_pos hk]
  · rw [Table.row_erase, if_neg hk]
  · subst hk
    simpa using hp
  · rfl

theorem row_feedPackages_deletePackageData (key : FeedName × VersionKey) :
    (db.deletePackageData k).2.feedPackages.row key =
      if key.2 = k then none else db.feedPackages.row key := by
  unfold deletePackageData
  dsimp only
  split_ifs with hp hk hk
  · rw [Table.row_modify]
    simp [hk]
  · rw [Table.row_modify]
    simp [hk]
  · obtain ⟨f, k'⟩ := key
    subst hk
    by_contra hm
    exact hp (db.package_of_member (Option.isSome_iff_ne_none.mpr hm))
  · rfl

theorem filesFor_of_filter_ne {k' : VersionKey} (hk : k' ≠ k) (db' : Database)
    (h : db'.packageFiles = db.packageFiles.filter fun e => e.1 ≠ k) :
    db'.filesFor k' = db.filesFor k' := by
  unfold filesFor
  rw [h, List.filter_filter]
  congr 1
  apply List.filter_congr
  rintro e -
  by_cases he : e.1 = k'
  · simp [he, hk]
  · simp [he]

theorem filesFor_deletePackageData {k' : VersionKey} (hk : k' ≠ k) :
    (db.deletePackageData k).2.filesFor k' = db.filesFor k' := by
  by_cases hp : (db.packages.row k).isSome
  · exact db.filesFor_of_filter_ne k hk _ (by simp [deletePackageData, hp])
  · simp [deletePackageData, hp]

theorem tombstones_deletePackageData : (db.deletePackageData k).2.tombstones = db.tombstones := by
  unfold deletePackageData
  dsimp only
  split_ifs <;> rfl

@[simp] theorem row_feedPackages_removeMembership (key : FeedName × VersionKey) :
    (db.removeMembership f k).2.feedPackages.row key =
      if key = (f, k) then none else db.feedPackages.row key := by
  simp only [removeMembership, row_modifyMembers]
  split_ifs
  · simp
  · simp

@[simp] theorem packages_removeMembershipForGood :
    (db.removeMembershipForGood f k).2.packages = db.packages := by
  unfold removeMembershipForGood
  dsimp only
  split_ifs <;> rfl

@[simp] theorem filesFor_removeMembershipForGood (k' : VersionKey) :
    (db.removeMembershipForGood f k).2.filesFor k' = db.filesFor k' := by
  unfold removeMembershipForGood
  dsimp only
  split_ifs <;> rfl

@[simp] theorem row_feedPackages_removeMembershipForGood (key : FeedName × VersionKey) :
    (db.removeMembershipForGood f k).2.feedPackages.row key =
      if key = (f, k) then none else db.feedPackages.row key := by
  unfold removeMembershipForGood
  dsimp only
  by_cases h : db.existsIn f k = true
  · rw [if_pos h]
    exact row_feedPackages_removeMembership db f k key
  · rw [if_neg h]
    split_ifs with hkey
    · subst hkey
      simpa [existsIn] using h
    · rfl

@[simp] theorem row_updateMembership (change : Membership → Membership)
    (key : FeedName × VersionKey) :
    (db.updateMembership f k change).2.feedPackages.row key =
      if key = (f, k) then (db.feedPackages.row key).map change else db.feedPackages.row key := by
  simp only [updateMembership, row_modifyMembers]
  split_ifs
  · cases db.feedPackages.row key <;> simp
  · simp

theorem updateMemberships_cases (ks : List VersionKey) (change : MembershipChange) :
    (∃ e, db.updateMemberships f ks change = (.error e, db)) ∨
      ∃ n db', db.updateMemberships f ks change = (.ok n, db') ∧ db'.packages = db.packages ∧
        SameRest db db' ∧ ∀ key, db'.feedPackages.row key =
          if key.1 = f ∧ key.2 ∈ ks then (db.feedPackages.row key).map change.apply
          else db.feedPackages.row key := by
  unfold updateMemberships
  split_ifs
  · refine Or.inr ⟨_, _, rfl, rfl, ⟨rfl, rfl, rfl⟩, fun key => ?_⟩
    rw [row_modifyMembers]
    by_cases hkey : key.1 = f ∧ key.2 ∈ ks
    · cases hm : db.feedPackages.row key <;> simp [hkey]
    · cases hm : db.feedPackages.row key with
      | none => simp
      | some m => simp [hkey]
  · exact Or.inl ⟨_, rfl⟩

theorem addFile_cases (file : PackageFile) :
    (∃ e, db.addFile k file = (.error e, db)) ∨
      ∃ db', db.addFile k file = (.ok (), db') ∧ (db.packages.row k).isSome ∧
        db'.packages = db.packages ∧ db'.feedPackages = db.feedPackages ∧
        db'.tombstones = db.tombstones ∧ db'.symbols = db.symbols ∧
        db'.packageFiles.Perm ((k, file) :: db.packageFiles) ∧
        ∀ k', k' ≠ k → db'.filesFor k' = db.filesFor k' := by
  unfold addFile
  split_ifs with hname hp
  · exact Or.inl ⟨_, rfl⟩
  · refine Or.inr ⟨_, rfl, hp, rfl, rfl, rfl, rfl, List.perm_orderedInsert _ _ _, fun k' hk => ?_⟩
    simp only [filesFor]
    congr 1
    induction db.packageFiles with
    | nil => simp [Ne.symm hk]
    | cons e files ih =>
      rw [List.orderedInsert_cons]
      split_ifs
      · simp [Ne.symm hk]
      · simp only [List.filter_cons, ih]
  · exact Or.inl ⟨_, rfl⟩

@[simp] theorem feedPackages_addFile (file : PackageFile) :
    (db.addFile k file).2.feedPackages = db.feedPackages := by
  unfold addFile
  split_ifs <;> rfl

@[simp] theorem feedPackages_addSymbol (s : SymbolKey) :
    (db.addSymbol s k).2.feedPackages = db.feedPackages := by
  unfold addSymbol
  split_ifs <;> rfl

@[simp] theorem tombstones_addFile (file : PackageFile) :
    (db.addFile k file).2.tombstones = db.tombstones := by
  unfold addFile
  split_ifs <;> rfl

@[simp] theorem tombstones_addSymbol (s : SymbolKey) :
    (db.addSymbol s k).2.tombstones = db.tombstones := by
  unfold addSymbol
  split_ifs <;> rfl

theorem filesFor_deleteFile_of_ne (name : String) {k' : VersionKey} (hk : k' ≠ k) :
    (db.deleteFile k name).filesFor k' = db.filesFor k' := by
  simp only [filesFor, deleteFile, List.filter_filter]
  congr 1
  apply List.filter_congr
  rintro e -
  by_cases he : e.1 = k'
  · simp [he, hk]
  · simp [he]

/-- A claim is made where there is none, on a version that is stored. -/
theorem addSymbol_cases (s : SymbolKey) :
    (∃ e, db.addSymbol s k = (.error e, db)) ∨
      ((db.findSymbol s).isSome ∧ db.addSymbol s k = (.ok false, db)) ∨
      ∃ db', db.addSymbol s k = (.ok true, db') ∧ db.findSymbol s = none ∧
        (db.packages.row k).isSome ∧ db'.packages = db.packages ∧
        db'.feedPackages = db.feedPackages ∧ db'.tombstones = db.tombstones ∧
        db'.packageFiles = db.packageFiles ∧ db'.symbols = (s, k) :: db.symbols := by
  unfold addSymbol
  split_ifs with hs hp
  · exact Or.inr (Or.inl ⟨hs, rfl⟩)
  · exact Or.inr (Or.inr ⟨_, rfl, by simpa using hs, hp, rfl, rfl, rfl, rfl, rfl⟩)
  · exact Or.inl ⟨_, rfl⟩

end YaNuget.Database
