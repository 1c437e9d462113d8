import YaNuget.Data.Table
import YaNuget.Store.Policy
import Mathlib.Data.Finset.Sort
import Mathlib.Data.String.Basic

/-!
# The database

The tables the modelled code uses and its queries, each one statement or one
transaction. A database in which a row is filed under another version's key, or
a membership, an attached file or a symbol has no package row, cannot be built:
the foreign keys refuse the one and cascade the deletion of the other.
-/
namespace YaNuget

open Policy

structure Database where
  packages : Table VersionKey Package
  feedPackages : Table (FeedName × VersionKey) Membership
  tombstones : Table (FeedName × VersionKey) Unit
  packageFiles : List (VersionKey × PackageFile)
  symbols : List (SymbolKey × VersionKey)
  key_of_row : ∀ {k : VersionKey} {p : Package}, packages.row k = some p → p.key = k
  package_of_member : ∀ {f : FeedName} {k : VersionKey},
    (feedPackages.row (f, k)).isSome → (packages.row k).isSome
  package_of_file : ∀ e ∈ packageFiles, (packages.row e.1).isSome
  package_of_symbol : ∀ e ∈ symbols, (packages.row e.2).isSome
  symbols_nodup : (symbols.map Prod.fst).Nodup

namespace Database

def empty : Database where
  packages := .empty
  feedPackages := .empty
  tombstones := .empty
  packageFiles := []
  symbols := []
  key_of_row h := by simp at h
  package_of_member h := by simp at h
  package_of_file e h := by simp at h
  package_of_symbol e h := by simp at h
  symbols_nodup := List.nodup_nil

variable (db : Database)

def approvedRefusal (p : Package) (feeds : List FeedName) : String :=
  p.id ++ " " ++ p.key.normalized ++ " is approved in " ++ ", ".intercalate feeds ++
    ", and allow_overwrite = \"pending-only\" replaces a version only while it is pending in " ++
    "every feed that holds it. Push it as a new version."

/-- The feeds whose membership of `k` satisfies `p`, in order of their names. -/
def feedsWhere (k : VersionKey) (p : FeedName → Membership → Bool) : List FeedName :=
  ((db.feedPackages.keys.filter fun key =>
    key.2 = k && (db.feedPackages.row key).any (p key.1)).image Prod.fst).sort (· ≤ ·)

theorem mem_feedsWhere {k : VersionKey} {p : FeedName → Membership → Bool} {f : FeedName} :
    f ∈ db.feedsWhere k p ↔ ∃ m, db.feedPackages.row (f, k) = some m ∧ p f m = true := by
  simp only [feedsWhere, Finset.mem_sort, Finset.mem_image, Finset.mem_filter, Prod.exists,
    Bool.and_eq_true, decide_eq_true_eq]
  constructor
  · rintro ⟨f', k', ⟨-, rfl, h⟩, rfl⟩
    obtain ⟨m, hm, hp⟩ := (Option.any_eq_true _ _).mp h
    exact ⟨m, hm, hp⟩
  · rintro ⟨m, hm, hp⟩
    exact ⟨f, k, ⟨(db.feedPackages.mem_keys _).mpr (by simp [hm]), rfl, by simp [hm, hp]⟩, rfl⟩

def getPackageData (k : VersionKey) : Option (PackageAt k) :=
  (db.packages.row k).pmap Subtype.mk fun _ h => db.key_of_row h

def getMembership (f : FeedName) (k : VersionKey) : Option Membership := db.feedPackages.row (f, k)

def existsIn (f : FeedName) (k : VersionKey) : Bool := (db.feedPackages.row (f, k)).isSome

def packageDataExists (k : VersionKey) : Bool := (db.packages.row k).isSome

def feedCount (k : VersionKey) : ℕ := db.feedPackages.count fun key _ => key.2 = k

def approvedIn (k : VersionKey) : List FeedName := db.feedsWhere k fun _ m => !m.pending

def isTombstoned (f : FeedName) (k : VersionKey) : Bool := (db.tombstones.row (f, k)).isSome

def filesFor (k : VersionKey) : List PackageFile :=
  (db.packageFiles.filter fun e => e.1 = k).map Prod.snd

def blobReferences (sha : Digest) : ℕ := db.packageFiles.countP fun e => e.2.sha256 = sha

def findSymbols (k : VersionKey) : List SymbolKey :=
  (db.symbols.filter fun e => e.2 = k).map Prod.fst

/-- The version that owns a symbol. -/
def findSymbol (s : SymbolKey) : Option VersionKey :=
  (db.symbols.find? fun e => e.1 = s).map Prod.snd

theorem findSymbol_eq_none {s : SymbolKey} :
    db.findSymbol s = none ↔ s ∉ db.symbols.map Prod.fst := by
  simp only [findSymbol, Option.map_eq_none_iff, List.find?_eq_none, decide_eq_true_eq,
    List.mem_map, not_exists, not_and]

/-- File names are unique ignoring case; they are ASCII. -/
def getFile (k : VersionKey) (name : String) : Option PackageFile :=
  (db.filesFor k).find? fun f => toAsciiLowercase f.name = toAsciiLowercase name

def isServable (f : FeedName) (k : VersionKey) : Bool :=
  (db.feedPackages.row (f, k)).any fun m => m.enabled && !m.pending

def find (f : FeedName) (k : VersionKey) : Option (PackageAt k) :=
  if db.isServable f k then db.getPackageData k else none

/-- `INSERT … ON CONFLICT DO UPDATE` of a package row. -/
def upsertPackage (p : Package) : Database :=
  { db with
    packages := db.packages.insert p.key p
    key_of_row := by
      intro k p' h
      rw [Table.row_insert] at h
      split_ifs at h with hk
      · cases h
        exact hk.symm
      · exact db.key_of_row h
    package_of_member := by
      intro f k h
      rw [Table.row_insert]
      split_ifs
      · rfl
      · exact db.package_of_member h
    package_of_file := by
      intro e he
      rw [Table.row_insert]
      split_ifs
      · rfl
      · exact db.package_of_file e he
    package_of_symbol := by
      intro e he
      rw [Table.row_insert]
      split_ifs
      · rfl
      · exact db.package_of_symbol e he }

/-- Update or delete memberships. -/
def modifyMembers (change : FeedName × VersionKey → Membership → Option Membership) : Database :=
  { db with
    feedPackages := db.feedPackages.modify change
    package_of_member := by
      intro f k h
      apply db.package_of_member (f := f)
      rw [Table.row_modify] at h
      exact Option.isSome_of_isSome_bind h }

def upsertMembership (f : FeedName) (k : VersionKey) (m : Membership)
    (h : (db.packages.row k).isSome) : Database :=
  { db with
    feedPackages := db.feedPackages.insert (f, k) m
    package_of_member := by
      intro g k' hm
      rw [Table.row_insert] at hm
      split_ifs at hm with hk
      · cases hk
        exact h
      · exact db.package_of_member hm }

@[simp] theorem row_packages_upsertPackage (p : Package) (k : VersionKey) :
    (db.upsertPackage p).packages.row k = if k = p.key then some p else db.packages.row k :=
  Table.row_insert _ _ _ _

def insertPackage (p : Package) : Bool × Database :=
  if (db.packages.row p.key).isSome then (false, db) else (true, db.upsertPackage p)

def insertMembership (f : FeedName) (k : VersionKey) (m : Membership) : Except Error Unit × Database :=
  if (db.feedPackages.row (f, k)).isSome then (.error .packageAlreadyExists, db)
  else if h : (db.packages.row k).isSome then (.ok (), db.upsertMembership f k m h)
  else (.error .database, db)

/-- Both, or neither. -/
def addVersion (p : Package) (f : FeedName) (m : Membership) : Except Error Bool × Database :=
  let (inserted, db') := db.insertPackage p
  match db'.insertMembership f p.key m with
  | (.ok (), db'') => (.ok inserted, db'')
  | (.error e, _) => (.error e, db)

def replaceRows (p : Package) (f : FeedName) (m : Membership) : Database :=
  (db.upsertPackage p).upsertMembership f p.key m (by simp)

/-- The other feeds' verdicts apply to those that hold the version. -/
def holderVerdicts (p : Package) (f : FeedName) (others : List (FeedName × PolicyOutcome)) :
    List (FeedName × PolicyOutcome) :=
  (db.feedsWhere p.key fun g _ => g ≠ f).filterMap fun g => others.find? fun o => o.1 = g

def judged (k : VersionKey) (verdicts : List (FeedName × PolicyOutcome))
    (key : FeedName × VersionKey) (m : Membership) : Membership :=
  match verdicts.find? fun v => key = (v.1, k) with
  | some v => { m with flagged := v.2.violation.isSome, flagReason := v.2.violation }
  | none => m

/-- Record the verdicts on the memberships they are about. -/
def reflag (k : VersionKey) (verdicts : List (FeedName × PolicyOutcome)) : Database :=
  db.modifyMembers fun key m => some (judged k verdicts key m)

def dropFiles (k : VersionKey) : Database :=
  { db with
    packageFiles := db.packageFiles.filter fun e => e.1 ≠ k
    package_of_file := fun e he => db.package_of_file e (List.mem_of_mem_filter he) }

/-- Replace a version that no feed has approved, checked in the transaction. -/
def replacePendingVersion (p : Package) (f : FeedName) (m : Membership) (dropFiles : Bool)
    (others : List (FeedName × PolicyOutcome)) : Except Error (List PackageFile) × Database :=
  let approved := db.approvedIn p.key
  if !approved.isEmpty then (.error (.versionExists (approvedRefusal p approved)), db)
  else
    let verdicts := db.holderVerdicts p f others
    match verdicts.find? fun v => !v.2.allowed with
    | some v =>
      (.error (.policyViolation (v.2.violation.getD "license policy" ++ " in feed '" ++ v.1 ++
        "', which holds this version too")), db)
    | none =>
      let swapped := (db.replaceRows p f m).reflag p.key verdicts
      if dropFiles then (.ok (db.filesFor p.key), swapped.dropFiles p.key)
      else (.ok [], swapped)

/-- Delete the package row, and by the foreign keys all that refers to it. -/
def deletePackageData (k : VersionKey) : Bool × Database :=
  ((db.packages.row k).isSome,
    if (db.packages.row k).isSome then
      { db with
        packages := db.packages.erase k
        feedPackages := db.feedPackages.modify fun key m => if key.2 = k then none else some m
        packageFiles := db.packageFiles.filter fun e => e.1 ≠ k
        symbols := db.symbols.filter fun e => e.2 ≠ k
        key_of_row := by
          intro k' p h
          rw [Table.row_erase] at h
          split_ifs at h
          exact db.key_of_row h
        package_of_member := by
          intro f k' h
          rw [Table.row_erase]
          split_ifs with hk
          · subst hk
            simp at h
          · rw [Table.row_modify] at h
            exact db.package_of_member (Option.isSome_of_isSome_bind h)
        package_of_file := by
          intro e he
          obtain ⟨he, hk⟩ := List.mem_filter.mp he
          rw [Table.row_erase, if_neg (by simpa using hk)]
          exact db.package_of_file e he
        package_of_symbol := by
          intro e he
          obtain ⟨he, hk⟩ := List.mem_filter.mp he
          rw [Table.row_erase, if_neg (by simpa using hk)]
          exact db.package_of_symbol e he
        symbols_nodup := db.symbols_nodup.sublist (List.filter_sublist.map _) }
    else db)

def removeMembership (f : FeedName) (k : VersionKey) : Bool × Database :=
  (db.existsIn f k, db.modifyMembers fun key m => if key = (f, k) then none else some m)

/-- Remove a membership and, when there was one, write its tombstone. -/
def removeMembershipForGood (f : FeedName) (k : VersionKey) : Bool × Database :=
  (db.existsIn f k,
    if db.existsIn f k then
      { (db.removeMembership f k).2 with tombstones := db.tombstones.insert (f, k) () }
    else db)

/-- `UPDATE feed_packages … WHERE feed, lower_id, normalized_version`. -/
def updateMembership (f : FeedName) (k : VersionKey) (change : Membership → Membership) :
    Bool × Database :=
  (db.existsIn f k,
    db.modifyMembers fun key m => some (if key = (f, k) then change m else m))

def approveMembership (f : FeedName) (k : VersionKey) : Bool × Database :=
  db.updateMembership f k fun m => { m with pending := false }

def setListed (f : FeedName) (k : VersionKey) (listed : Bool) : Bool × Database :=
  db.updateMembership f k fun m => { m with listed := listed, listingSet := true }

def setEnabled (f : FeedName) (k : VersionKey) (enabled : Bool) : Bool × Database :=
  db.updateMembership f k fun m => { m with enabled := enabled }

def setPinned (f : FeedName) (k : VersionKey) (pinned : Bool) : Bool × Database :=
  db.updateMembership f k fun m => { m with pinned := pinned }

/-- One change to many memberships in one transaction: all of them, or none
when one is missing. -/
def updateMemberships (f : FeedName) (ks : List VersionKey) (change : MembershipChange) :
    Except Error ℕ × Database :=
  if ks.all fun k => db.existsIn f k then
    (.ok ks.length,
      db.modifyMembers fun key m =>
        some (if key.1 = f && ks.contains key.2 then change.apply m else m))
  else (.error .packageNotFound, db)

def clearTombstone (f : FeedName) (k : VersionKey) : Database :=
  { db with tombstones := db.tombstones.erase (f, k) }

def deleteSymbols (k : VersionKey) : ℕ × Database :=
  (db.symbols.countP fun e => e.2 = k,
    { db with
      symbols := db.symbols.filter fun e => e.2 ≠ k
      package_of_symbol := fun e he => db.package_of_symbol e (List.mem_of_mem_filter he)
      symbols_nodup := db.symbols_nodup.sublist (List.filter_sublist.map _) })

/-- Insert a file row, in the order of its name. -/
def addFile (k : VersionKey) (f : PackageFile) : Except Error Unit × Database :=
  if (db.getFile k f.name).isSome then (.error .packageAlreadyExists, db)
  else if h : (db.packages.row k).isSome then
    (.ok (), { db with
      packageFiles := db.packageFiles.orderedInsert
        (fun a b => toAsciiLowercase a.2.name ≤ toAsciiLowercase b.2.name) (k, f)
      package_of_file := by
        intro e he
        rcases (List.mem_orderedInsert _).mp he with rfl | he
        · exact h
        · exact db.package_of_file e he })
  else (.error .database, db)

def deleteFile (k : VersionKey) (name : String) : Database :=
  { db with
    packageFiles := db.packageFiles.filter fun e =>
      !(e.1 = k && toAsciiLowercase e.2.name = toAsciiLowercase name)
    package_of_file := fun e he => db.package_of_file e (List.mem_of_mem_filter he) }

/-- A claim, not an upsert: whether the row was inserted. -/
def addSymbol (s : SymbolKey) (k : VersionKey) : Except Error Bool × Database :=
  if hs : (db.findSymbol s).isSome then (.ok false, db)
  else if h : (db.packages.row k).isSome then
    (.ok true, { db with
      symbols := (s, k) :: db.symbols
      package_of_symbol := by
        intro e he
        rcases List.mem_cons.mp he with rfl | he
        · exact h
        · exact db.package_of_symbol e he
      symbols_nodup := by
        rw [List.map_cons, List.nodup_cons]
        exact ⟨db.findSymbol_eq_none.mp (by simpa using hs), db.symbols_nodup⟩ })
  else (.error .database, db)

def deleteSymbol (s : SymbolKey) : Database :=
  { db with
    symbols := db.symbols.filter fun e => e.1 ≠ s
    package_of_symbol := fun e he => db.package_of_symbol e (List.mem_of_mem_filter he)
    symbols_nodup := db.symbols_nodup.sublist (List.filter_sublist.map _) }

/-- The number of versions held both under `a` and under `b`. -/
def sharedVersions (a b : FeedName) : ℕ :=
  db.feedPackages.count fun key _ => key.1 = a && (db.feedPackages.row (b, key.2)).isSome

/-- What a table keyed by feed and version has under `key` once the rows of
`src` are filed under `dst`. -/
def renamedRow {V : Type} (T : Table (FeedName × VersionKey) V) (src dst : FeedName) (moved : V → V)
    (key : FeedName × VersionKey) : Option V :=
  if key.1 = dst then (T.row key).orElse fun _ => (T.row (src, key.2)).map moved
  else if key.1 = src then none
  else T.row key

def renameRows {V : Type} (T : Table (FeedName × VersionKey) V) (src dst : FeedName)
    (moved : V → V) : Table (FeedName × VersionKey) V :=
  .ofKeys (T.keys ∪ T.keys.image fun key => (dst, key.2)) (renamedRow T src dst moved)

theorem isSome_of_row_renameRows {V : Type} {T : Table (FeedName × VersionKey) V}
    {src dst f : FeedName} {moved : V → V} {k : VersionKey}
    (h : ((renameRows T src dst moved).row (f, k)).isSome) :
    (T.row (f, k)).isSome ∨ (T.row (src, k)).isSome := by
  simp only [renameRows, Table.row_ofKeys, renamedRow] at h
  split_ifs at h
  · cases hf : T.row (f, k) with
    | some v => simp
    | none => exact Or.inr (by simpa [hf] using h)
  · simp at h
  · exact Or.inl h
  · simp at h

/-- Give the memberships and tombstones of `src` to `dst`; `hold` withholds
the moved versions until they are approved. A version that is a member of
`dst` afterwards has no tombstone there. -/
def renameFeed (src dst : FeedName) (hold : Bool) : Except Error ℕ × Database :=
  if 0 < db.sharedVersions src dst then
    (.error (.badRequest (toString (db.sharedVersions src dst) ++ " version(s) are in both " ++
      quoted src ++ " and " ++ quoted dst ++ "; remove them from one first")), db)
  else
    let members := renameRows db.feedPackages src dst fun m =>
      { m with pending := m.pending || hold }
    (.ok (db.feedPackages.count fun key _ => key.1 = src),
      { db with
        feedPackages := members
        tombstones := (renameRows db.tombstones src dst id).modify fun key _ =>
          if key.1 = src || (key.1 = dst && (members.row key).isSome) then none else some ()
        package_of_member := fun h =>
          (isSome_of_row_renameRows h).elim db.package_of_member db.package_of_member })

end Database

end YaNuget
