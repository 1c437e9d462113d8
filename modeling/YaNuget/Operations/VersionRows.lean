import YaNuget.Operations.TaskDiscipline
import YaNuget.Operations.VersionView

/-!
# The rows of a version and the blobs of its files

What each call may do to the attached files of a version, to who holds it, and
to the blobs that its files name.
-/
namespace YaNuget

open Concurrency

/-- The rows of a version: its package, which feeds hold it, pending or not,
and its attached files. -/
structure VersionRows where
  package : Option Package
  pending : FeedName → Option Bool
  files : List PackageFile

namespace VersionRows

def IsHeld (v : VersionRows) : Prop := ∃ f, (v.pending f).isSome

def Unheld (v : VersionRows) : Prop := ∀ f, v.pending f = none

/-- The version is approved in feed `f`. -/
def Approved (v : VersionRows) (f : FeedName) : Prop := v.pending f = some false

theorem unheld_iff {v : VersionRows} : v.Unheld ↔ ¬ v.IsHeld := by
  simp [Unheld, IsHeld]

theorem Unheld.not_approved {v : VersionRows} (h : v.Unheld) (f : FeedName) : ¬ v.Approved f := by
  simp [Approved, h f]

end VersionRows

namespace Database

variable (db : Database) (k : VersionKey)

def rowsOf : VersionRows := ⟨db.packages.row k, db.pendingIn k, db.filesFor k⟩

theorem mem_approvedIn {f : FeedName} : f ∈ db.approvedIn k ↔ (db.rowsOf k).Approved f := by
  simp [approvedIn, mem_feedsWhere, VersionRows.Approved, rowsOf, pendingIn]

theorem isHeld_iff : (db.rowsOf k).IsHeld ↔ ∃ f, (db.feedPackages.row (f, k)).isSome := by
  simp [VersionRows.IsHeld, rowsOf, pendingIn]

theorem unheld_of_feedCount (h : db.feedCount k = 0) : (db.rowsOf k).Unheld := by
  intro f
  simp [rowsOf, pendingIn, (db.feedCount_eq_zero k).mp h f]

theorem unheld_of_absent (h : db.packages.row k = none) : (db.rowsOf k).Unheld := by
  intro f
  by_contra hf
  have hm : (db.getPackageData k).isSome :=
    db.package_of_pendingIn (Option.isSome_iff_ne_none.mpr hf)
  simp [(db.getPackageData_eq_none k).mpr h] at hm

theorem mem_filesFor {f : PackageFile} : f ∈ db.filesFor k ↔ (k, f) ∈ db.packageFiles := by
  simp [filesFor]

theorem files_of_absent (h : db.packages.row k = none) : db.filesFor k = [] := by
  rw [List.eq_nil_iff_forall_not_mem]
  intro f hf
  have hp := db.package_of_file _ ((db.mem_filesFor k).mp hf)
  simp [h] at hp

end Database

/-- The call is one about the blob that needs its lock. -/
def Call.handles : Call → Digest → Prop
  | .storage (.deleteBlob sha'), sha => sha' = sha
  | .db (.addFile _ f), sha => f.sha256 = sha
  | _, _ => False

/-- The call may let a feed hold version `k`. -/
def Call.holds : Call → VersionKey → Prop
  | .db (.addVersion p _ _), k | .db (.replaceVersion p _ _), k
  | .db (.replacePendingVersion p _ _ _ _), k => p.key = k
  | .db (.addMembership _ k' _), k => k' = k
  | _, _ => False

/-- The call may change the files of version `k`, whoever has approved it. -/
def Call.refiles : Call → VersionKey → Prop
  | .db (.deletePackageData k'), k | .db (.addFile k' _), k | .db (.deleteFile k' _), k => k' = k
  | _, _ => False

section Effects

variable {db : Database} {q : DbCall} {k : VersionKey}

/-- A file that a query leaves was attached before, or is what it attaches. -/
theorem DbCall.mem_packageFiles {e : VersionKey × PackageFile}
    (h : e ∈ (q.run db).2.packageFiles) : e ∈ db.packageFiles ∨ q = .addFile e.1 e.2 := by
  cases q with
  | addVersion p f m =>
    rcases db.addVersion_cases f p m with ⟨_, he⟩ | ⟨_, db', he, -, -, -, same⟩
    · exact Or.inl (by simpa [run, he] using h)
    · exact Or.inl (by simpa [run, he, same.packageFiles] using h)
  | replacePendingVersion p f m dropFiles others =>
    rcases db.replacePendingVersion_cases f p m dropFiles others with
      ⟨_, he⟩ | ⟨_, db', he, -, -, -, -, -, hfiles⟩
    · exact Or.inl (by simpa [run, he] using h)
    · rw [show ((replacePendingVersion p f m dropFiles others).run db).2 = db' by simp [run, he],
        hfiles] at h
      split_ifs at h
      · exact Or.inl (List.mem_of_mem_filter h)
      · exact Or.inl h
  | deletePackageData k' =>
    simp only [run, Database.deletePackageData] at h
    split_ifs at h
    · exact Or.inl (List.mem_of_mem_filter h)
    · exact Or.inl h
  | addMembership f k' m =>
    rcases db.insertMembership_cases f k' m with ⟨_, he⟩ | ⟨_, he, -⟩
    · exact Or.inl (by simpa [run, he] using h)
    · rw [show ((addMembership f k' m).run db).2 = _ from congrArg Prod.snd he] at h
      exact Or.inl h
  | removeMembershipForGood f k' =>
    simp only [run, Database.removeMembershipForGood] at h
    split_ifs at h
    · exact Or.inl h
    · exact Or.inl h
  | updateMemberships f ks change =>
    rcases db.updateMemberships_cases f ks change with ⟨_, he⟩ | ⟨_, db', he, -, same, -⟩
    · exact Or.inl (by simpa [run, he] using h)
    · exact Or.inl (by simpa [run, he, same.packageFiles] using h)
  | renameFeed src dst hold =>
    simp only [run, Database.renameFeed] at h
    split_ifs at h
    · exact Or.inl h
    · exact Or.inl h
  | addFile k' file =>
    rcases db.addFile_cases k' file with ⟨_, he⟩ | ⟨db', he, -, -, -, -, -, hperm, -⟩
    · exact Or.inl (by simpa [run, he] using h)
    · rw [show ((addFile k' file).run db).2 = db' by simp [run, he]] at h
      rcases List.mem_cons.mp (hperm.mem_iff.mp h) with rfl | h
      · exact Or.inr rfl
      · exact Or.inl h
  | deleteFile k' name => exact Or.inl (List.mem_of_mem_filter h)
  | addSymbol s k' =>
    rcases db.addSymbol_cases k' s with ⟨_, he⟩ | ⟨-, he⟩ | ⟨db', he, -, -, -, -, -, hfiles, -⟩
    · exact Or.inl (by simpa [run, he] using h)
    · exact Or.inl (by simpa [run, he] using h)
    · exact Or.inl (by simpa [run, he, hfiles] using h)
  | _ => exact Or.inl h

/-- Files change with a call about them, or with a replacement of a version
that no feed has approved. -/
theorem DbCall.files_of_not_refiles (h : ¬ (Call.db q).refiles k) :
    (q.run db).2.filesFor k = db.filesFor k ∨ db.approvedIn k = [] := by
  cases q with
  | addVersion p f m =>
    rcases db.addVersion_cases f p m with ⟨_, he⟩ | ⟨_, db', he, -, -, -, same⟩
    · exact Or.inl (by simp [run, he])
    · exact Or.inl (by simp [run, he, Database.filesFor, same.packageFiles])
  | replacePendingVersion p f m dropFiles others =>
    rcases db.replacePendingVersion_cases f p m dropFiles others with
      ⟨_, he⟩ | ⟨_, db', he, happroved, -, -, -, -, hfiles⟩
    · exact Or.inl (by simp [run, he])
    · by_cases hk : p.key = k
      · exact Or.inr (hk ▸ happroved)
      · refine Or.inl ?_
        simp only [run, he]
        split_ifs at hfiles
        · exact db.filesFor_of_filter_ne p.key (Ne.symm hk) db' hfiles
        · simp [Database.filesFor, hfiles]
  | deletePackageData k' => exact Or.inl (db.filesFor_deletePackageData k' (Ne.symm h))
  | addMembership f k' m =>
    rcases db.insertMembership_cases f k' m with ⟨_, he⟩ | ⟨_, he, -⟩
    · exact Or.inl (by simp [run, he])
    · exact Or.inl (by simp [run, he]; rfl)
  | removeMembershipForGood f k' => exact Or.inl (by simp [run])
  | updateMemberships f ks change =>
    rcases db.updateMemberships_cases f ks change with ⟨_, he⟩ | ⟨_, db', he, -, same, -⟩
    · exact Or.inl (by simp [run, he])
    · exact Or.inl (by simp [run, he, Database.filesFor, same.packageFiles])
  | renameFeed src dst hold =>
    simp only [run, Database.renameFeed]
    split_ifs
    · exact Or.inl rfl
    · exact Or.inl rfl
  | addFile k' file =>
    rcases db.addFile_cases k' file with ⟨_, he⟩ | ⟨db', he, -, -, -, -, -, -, hfiles⟩
    · exact Or.inl (by simp [run, he])
    · exact Or.inl (by simpa [run, he] using hfiles k (Ne.symm h))
  | deleteFile k' name => exact Or.inl (db.filesFor_deleteFile_of_ne k' name (Ne.symm h))
  | addSymbol s k' =>
    rcases db.addSymbol_cases k' s with ⟨_, he⟩ | ⟨-, he⟩ | ⟨db', he, -, -, -, -, -, hfiles, -⟩
    · exact Or.inl (by simp [run, he])
    · exact Or.inl (by simp [run, he])
    · exact Or.inl (by simp [run, he, Database.filesFor, hfiles])
  | _ => exact Or.inl rfl

/-- Who holds a version held it before, unless the call lets a feed hold it. -/
theorem DbCall.isHeld_before (h : ¬ (Call.db q).holds k)
    (hheld : ((q.run db).2.rowsOf k).IsHeld) : (db.rowsOf k).IsHeld := by
  rw [Database.isHeld_iff] at hheld ⊢
  obtain ⟨f, hf⟩ := hheld
  have kept (hrow : (q.run db).2.feedPackages.row (f, k) = db.feedPackages.row (f, k)) :
      ∃ f, (db.feedPackages.row (f, k)).isSome := ⟨f, hrow ▸ hf⟩
  cases q with
  | addVersion p f' m =>
    have hk : k ≠ p.key := Ne.symm h
    rcases db.addVersion_cases f' p m with ⟨_, he⟩ | ⟨_, db', he, -, -, hm, -⟩
    · exact kept (by simp [run, he])
    · exact kept (by simp [run, he, hm, hk])
  | replaceVersion p f' m =>
    have hk : k ≠ p.key := Ne.symm h
    exact kept (by simp [run, hk])
  | replacePendingVersion p f' m dropFiles others =>
    have hk : k ≠ p.key := Ne.symm h
    exact kept (by simpa [run] using db.row_replacePendingVersion_of_ne f' p m dropFiles others hk)
  | deletePackageData k' =>
    rw [run, Database.row_feedPackages_deletePackageData] at hf
    split_ifs at hf
    · cases hf
    · exact ⟨f, hf⟩
  | addMembership f' k' m =>
    have hk : k ≠ k' := Ne.symm h
    rcases db.insertMembership_cases f' k' m with ⟨_, he⟩ | ⟨hp, he, -⟩
    · exact kept (by simp [run, he])
    · exact kept (by simp [run, he, hk])
  | removeMembership f' k' =>
    rw [run, Database.row_feedPackages_removeMembership] at hf
    split_ifs at hf
    · cases hf
    · exact ⟨f, hf⟩
  | removeMembershipForGood f' k' =>
    rw [run, Database.row_feedPackages_removeMembershipForGood] at hf
    split_ifs at hf
    · cases hf
    · exact ⟨f, hf⟩
  | approveMembership f' k' =>
    rw [run, Database.approveMembership, Database.row_updateMembership] at hf
    exact ⟨f, by simpa [apply_ite Option.isSome] using hf⟩
  | setListed f' k' on =>
    rw [run, Database.setListed, Database.row_updateMembership] at hf
    exact ⟨f, by simpa [apply_ite Option.isSome] using hf⟩
  | setEnabled f' k' on =>
    rw [run, Database.setEnabled, Database.row_updateMembership] at hf
    exact ⟨f, by simpa [apply_ite Option.isSome] using hf⟩
  | setPinned f' k' on =>
    rw [run, Database.setPinned, Database.row_updateMembership] at hf
    exact ⟨f, by simpa [apply_ite Option.isSome] using hf⟩
  | updateMemberships f' ks change =>
    rcases db.updateMemberships_cases f' ks change with ⟨_, he⟩ | ⟨_, db', he, -, -, hm⟩
    · exact kept (by simp [run, he])
    · simp only [run, he, hm] at hf
      exact ⟨f, by simpa [apply_ite Option.isSome] using hf⟩
  | renameFeed src dst hold =>
    simp only [run, Database.renameFeed] at hf
    split_ifs at hf
    · exact ⟨f, hf⟩
    · exact (Database.isSome_of_row_renameRows hf).elim (fun h => ⟨f, h⟩) fun h => ⟨src, h⟩
  | addFile k' file =>
    rcases db.addFile_cases k' file with ⟨_, he⟩ | ⟨db', he, -, -, hm, -⟩
    · exact kept (by simp [run, he])
    · exact kept (by simp [run, he, hm])
  | addSymbol s k' =>
    rcases db.addSymbol_cases k' s with ⟨_, he⟩ | ⟨-, he⟩ | ⟨db', he, -, -, -, hm, -⟩
    · exact kept (by simp [run, he])
    · exact kept (by simp [run, he])
    · exact kept (by simp [run, he, hm])
  | _ => exact ⟨f, hf⟩

/-- A stored blob stays until it is deleted. -/
theorem StorageCall.blobs_kept {c : StorageCall} {s : Storage} {sha : Digest}
    (hc : c ≠ .deleteBlob sha) (h : (s.blobs sha).isSome) : ((c.run s).2.blobs sha).isSome := by
  cases c with
  | deleteBlob sha' =>
    have hne : sha ≠ sha' := fun heq => hc (heq ▸ rfl)
    simpa [run, Function.update_of_ne hne] using h
  | storeBlob sha' bytes =>
    simp only [run]
    split_ifs
    · exact h
    · by_cases hne : sha = sha'
      · subst hne
        simp
      · simpa [Function.update_of_ne hne] using h
  | hardLink k =>
    simp only [run]
    cases s.payload k with
    | none => exact h
    | some bytes => exact h
  | getAux k kind =>
    simp only [run]
    cases s.aux k kind with
    | none => exact h
    | some bytes => exact h
  | _ => exact h

/-- A query that is refused changes nothing. -/
theorem DbCall.run_error {e : Error} (h : (q.run db).1 = .error e) : (q.run db).2 = db := by
  cases q with
  | addVersion p f m =>
    rcases db.addVersion_cases f p m with ⟨_, he⟩ | ⟨_, db', he, -⟩
    · simp [run, he]
    · simp [run, he] at h
  | replacePendingVersion p f m dropFiles others =>
    rcases db.replacePendingVersion_cases f p m dropFiles others with ⟨_, he⟩ | ⟨_, db', he, -⟩
    · simp [run, he]
    · simp [run, he] at h
  | addMembership f k m =>
    rcases db.insertMembership_cases f k m with ⟨_, he⟩ | ⟨_, he, -⟩
    · simp [run, he]
    · simp [run, he] at h
  | updateMemberships f ks change =>
    rcases db.updateMemberships_cases f ks change with ⟨_, he⟩ | ⟨_, db', he, -⟩
    · simp [run, he]
    · simp [run, he] at h
  | renameFeed src dst hold =>
    simp only [run, Database.renameFeed] at h ⊢
    split_ifs at h ⊢
    · rfl
  | addFile k file =>
    rcases db.addFile_cases k file with ⟨_, he⟩ | ⟨db', he, -⟩
    · simp [run, he]
    · simp [run, he] at h
  | addSymbol s k =>
    rcases db.addSymbol_cases k s with ⟨_, he⟩ | ⟨-, he⟩ | ⟨db', he, -⟩
    · simp [run, he]
    · simp [run, he] at h
    · simp [run, he] at h
  | _ => simp [run] at h

variable {c : Call} {o : Bool}

theorem Call.mem_packageFiles {e : VersionKey × PackageFile}
    (h : e ∈ (c.dbAfter o db).packageFiles) : e ∈ db.packageFiles ∨ c = .db (.addFile e.1 e.2) := by
  cases c with
  | db q =>
    cases o with
    | true => exact Or.inl h
    | false => exact (DbCall.mem_packageFiles h).imp_right fun h => congrArg Call.db h
  | _ => exact Or.inl h

theorem Call.files_of_not_refiles (h : ¬ c.refiles k) :
    (c.dbAfter o db).filesFor k = db.filesFor k ∨ db.approvedIn k = [] := by
  cases c with
  | db q =>
    cases o with
    | true => exact Or.inl rfl
    | false => exact DbCall.files_of_not_refiles h
  | _ => exact Or.inl rfl

theorem Call.isHeld_before (h : ¬ c.holds k) (hheld : ((c.dbAfter o db).rowsOf k).IsHeld) :
    (db.rowsOf k).IsHeld := by
  cases c with
  | db q =>
    cases o with
    | true => exact hheld
    | false => exact DbCall.isHeld_before h hheld
  | _ => exact hheld

theorem Call.blobs_kept {s : Storage} {sha : Digest} (hc : c ≠ .storage (.deleteBlob sha))
    (h : (s.blobs sha).isSome) : ((c.storageAfter o s).blobs sha).isSome := by
  cases c with
  | storage c =>
    cases o with
    | true => exact h
    | false => exact StorageCall.blobs_kept (fun heq => hc (congrArg Call.storage heq)) h
  | _ => exact h

end Effects

/-- A query that leaves the packages, the memberships and the files alone. -/
def DbCall.looks : DbCall → Prop
  | .getMembership _ _ | .isTombstoned _ _ | .deleteSymbols _ | .clearTombstone _ _
  | .isServable _ _ | .find _ _ | .getFile _ _ | .findSymbol _ | .addSymbol _ _
  | .deleteSymbol _ => True
  | q => q.reads

/-- A call that leaves the packages, the memberships, the files and the version
and blob locks alone, and deletes no blob. -/
def Call.plain : Call → Prop
  | .db q => q.looks
  | .storage (.deleteBlob _) => False
  | .lockVersion _ | .unlockVersion _ | .lockBlob _ | .unlockBlob _ => False
  | _ => True

/-- A call that changes nothing about symbols. -/
def Call.aside : Call → Prop
  | .symbolsIndexed _ _ => False
  | .db (.findSymbols _) | .db (.deleteSymbols _) | .db (.deletePackageData _)
  | .db (.addSymbol _ _) | .db (.deleteSymbol _) => False
  | .storage (.deleteSymbol _) | .storage (.storeSymbolFile _ _) => False
  | _ => True

/-- A call that changes nothing about symbols or version locks. -/
def Call.minor : Call → Prop
  | .lockVersion _ | .unlockVersion _ => False
  | c => c.aside

theorem Call.aside_of_minor {c : Call} (h : c.minor) : c.aside := by
  cases c with
  | lockVersion | unlockVersion => exact h.elim
  | _ => exact h

/-- A plain call that changes nothing about symbols either. -/
def Call.modest (c : Call) : Prop := c.plain ∧ c.minor

/-- The same packages, memberships and files. -/
structure Database.SameTables (db db' : Database) : Prop where
  packages : db'.packages = db.packages
  members : db'.feedPackages = db.feedPackages
  files : db'.packageFiles = db.packageFiles

theorem Database.SameTables.rowsOf {db db' : Database} (h : db.SameTables db') (k : VersionKey) :
    db'.rowsOf k = db.rowsOf k := by
  obtain ⟨hpackages, hmembers, hfiles⟩ := h
  unfold Database.rowsOf Database.pendingIn Database.filesFor
  rw [hpackages, hmembers, hfiles]

theorem DbCall.sameTables_of_looks {q : DbCall} {db : Database} (h : q.looks) :
    db.SameTables (q.run db).2 := by
  cases q with
  | addSymbol s k =>
    rcases db.addSymbol_cases k s with ⟨_, he⟩ | ⟨-, he⟩ | ⟨db', he, -, -, hp, hm, -, hf, -⟩
    · exact ⟨by simp [run, he], by simp [run, he], by simp [run, he]⟩
    · exact ⟨by simp [run, he], by simp [run, he], by simp [run, he]⟩
    · exact ⟨by simp [run, he, hp], by simp [run, he, hm], by simp [run, he, hf]⟩
  | _ => first | exact ⟨rfl, rfl, rfl⟩ | exact h.elim

theorem Call.sameTables_of_plain {c : Call} {db : Database} (o : Bool) (h : c.plain) :
    db.SameTables (c.dbAfter o db) := by
  cases c with
  | db q =>
    cases o with
    | true => exact ⟨rfl, rfl, rfl⟩
    | false => exact DbCall.sameTables_of_looks h
  | _ => exact ⟨rfl, rfl, rfl⟩

section BlobLocks

variable {T : Type} [DecidableEq T] {t u : T} {c : Call} {o : Bool}

/-- A task takes a free blob lock, releases its own, or leaves the blob locks alone. -/
theorem Store.exec_blobLock {s s' : Store T} {r : c.Answer} (h : Store.exec t c o s = some (r, s')) :
    (∃ sha, c = .lockBlob sha ∧ s.blobLock sha = none ∧
      s' = { s with blobLock := Function.update s.blobLock sha (some t) }) ∨
    (∃ sha, c = .unlockBlob sha ∧ s.blobLock sha = some t ∧
      s' = { s with blobLock := Function.update s.blobLock sha none }) ∨
    s'.blobLock = s.blobLock := by
  cases c with
  | lockBlob sha =>
    simp only [Store.exec, Option.ite_none_right_eq_some, Option.some.injEq, Prod.mk.injEq] at h
    exact Or.inl ⟨sha, rfl, h.1, h.2.2.symm⟩
  | unlockBlob sha =>
    simp only [Store.exec, Option.ite_none_right_eq_some, Option.some.injEq, Prod.mk.injEq] at h
    exact Or.inr (Or.inl ⟨sha, rfl, h.1, h.2.2.symm⟩)
  | lockVersion | unlockVersion | lockSymbol | unlockSymbol =>
    simp only [Store.exec, Option.ite_none_right_eq_some, Option.some.injEq, Prod.mk.injEq] at h
    obtain ⟨-, -, rfl⟩ := h
    simp
  | db q =>
    cases o <;> (simp [Store.exec] at h; obtain ⟨-, rfl⟩ := h; simp)
  | storage q =>
    cases o <;> (simp [Store.exec] at h; obtain ⟨-, rfl⟩ := h; simp)
  | arrive | packageExists | symbolsIndexed | respond =>
    simp [Store.exec] at h
    simp [h]

/-- A blob lock stays with its holder through the steps of others. -/
theorem blobLock_of_perform {w w' : StoreWorld T} {r : c.Answer}
    (h : (server T).perform u c o w = some (r, w')) (hu : u ≠ t) {sha : Digest}
    (hsha : w.state.blobLock sha = some t) : w'.state.blobLock sha = some t := by
  rcases Store.exec_blobLock ((server T).perform_eq_some.mp h).1 with
    ⟨sha', -, hfree, heq⟩ | ⟨sha', -, hheld, heq⟩ | heq
  · have hne : sha ≠ sha' := by
      rintro rfl
      simp [hsha] at hfree
    rw [heq]
    exact (Function.update_of_ne hne ..).trans hsha
  · have hne : sha ≠ sha' := by
      rintro rfl
      rw [hsha] at hheld
      exact hu (Option.some.inj hheld).symm
    rw [heq]
    exact (Function.update_of_ne hne ..).trans hsha
  · rw [heq, hsha]

end BlobLocks

end YaNuget
