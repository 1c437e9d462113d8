import YaNuget.Operations.FilesKept

/-!
# What the sections do to files and blobs

The sections under a version's lock, followed on the rows of the version: what
is purged is held by no feed, what is indexed is held or has no rows, and a
blob is deleted only while no other version names it.
-/
namespace YaNuget

open Concurrency Op Fallible Protocol

variable {T : Type} [DecidableEq T] {stored : Prop} {authorized : T → FeedName → Prop} {t : T}

section Plain

variable (k : VersionKey)

theorem plain_purgeSymbols : (purgeSymbols k).run.Calls Call.plain := by
  refine calls_bind (calls_query trivial) fun symbols => ?_
  refine calls_bind (calls_forM fun sym _ => calls_file trivial) fun _ => ?_
  exact calls_bind (calls_query trivial) fun _ => calls_pure _

theorem modest_storeSidecars (s : Sidecars) : (storeSidecars k s).run.Calls Call.modest := by
  refine calls_bind (calls_file ⟨trivial, trivial⟩) fun _ => ?_
  refine calls_bind (calls_optionForM fun bytes => calls_file ⟨trivial, trivial⟩) fun _ => ?_
  exact calls_optionForM fun bytes => calls_file ⟨trivial, trivial⟩

theorem modest_storePayload (bytes : Content) (s : Sidecars) :
    (storePayload k bytes s).run.Calls Call.modest :=
  calls_bind (calls_file ⟨trivial, trivial⟩) fun _ => modest_storeSidecars k s

theorem modest_keepAside : (keepAside k).run.Calls Call.modest := by
  refine calls_bind (calls_ok (calls_file ⟨trivial, trivial⟩)) fun found => ?_
  cases found with
  | none => exact calls_pure _
  | some _ =>
    refine calls_bind (calls_attempt (calls_file ⟨trivial, trivial⟩)) fun linked => ?_
    cases linked with
    | ok bytes => exact calls_pure _
    | error e => exact calls_pure _

theorem modest_readSidecar (kind : AuxFile) (present : Bool) :
    (readSidecar k kind present).run.Calls Call.modest := by
  cases present with
  | true => exact calls_ok (calls_file ⟨trivial, trivial⟩)
  | false => exact calls_pure _

theorem modest_putBack (backup : Option TempFile) (nuspec readme icon : Option Content) :
    (putBack k backup nuspec readme icon).run.Calls Call.modest := by
  refine calls_bind (calls_optionForM fun backup => calls_ignore (calls_file ⟨trivial, trivial⟩)) fun _ => ?_
  exact calls_optionForM fun nuspec => calls_ignore (modest_storeSidecars k _)

variable (site : Site) (incoming : Incoming site.sha512) (options : IndexOptions)

theorem modest_checkOverwrite (existing : Package) (previous : Membership) :
    (checkOverwrite site incoming options existing previous).run.Calls Call.modest := by
  unfold checkOverwrite
  dsimp only
  split_ifs
  · exact calls_bind (calls_query ⟨trivial, trivial⟩) fun approved => calls_refuseIf
  · exact calls_refuseIf

theorem modest_checkUnshared (sameContent : Bool) :
    (checkUnshared site incoming options sameContent).run.Calls Call.modest :=
  calls_onlyIf (calls_bind (calls_query ⟨trivial, trivial⟩) fun _ => calls_refuseIf)

end Plain

section Blobs

variable {A : Store T → Prop} {sha : Digest}

def OfRows (A : Store T → Prop) : Prop :=
  ∀ s s', A s → s'.db = s.db → s'.versionLock = s.versionLock → A s'

omit [DecidableEq T] in
theorem ofRows_knows (k : VersionKey) (B : VersionRows → Prop) : OfRows (Knows t k B) := by
  rintro s s' ⟨hlock, hB⟩ hdb hversion
  exact ⟨by rw [hversion]; exact hlock, by rw [hdb]; exact hB⟩

omit [DecidableEq T] in
theorem ofRows_true : OfRows (T := T) fun _ => True := fun _ _ _ _ _ => trivial

theorem files_deleteBlob {p : VersionKey → Prop} (hA : Steadfast stored authorized t A) (hrows : OfRows A)
    (hp : ∀ s k, A s → p k → (s.db.rowsOf k).Unheld) :
    Files stored authorized t (fun s => A s ∧ KnowsNamed t sha p s) (file (.deleteBlob sha))
      (fun _ s => A s ∧ Handling t sha s) fun s => A s ∧ Handling t sha s := by
  refine files_file (hA.and (steadfast_knowsNamed p)) ?_ ?_ ?_ ?_
  · rintro w ⟨hw, hlock, hnamed⟩
    refine ⟨?_, fun _ => False.elim, fun _ => False.elim, ?_, by simp⟩
    · rintro _ rfl
      exact hlock
    · rintro sha' hdelete k hheld f hf hsha
      obtain rfl : sha = sha' := by simpa using hdelete
      have hk := hnamed _ ((w.state.db.mem_filesFor k).mp hf) hsha
      exact VersionRows.unheld_iff.mp (hp _ k hw hk) hheld
  · simp [StorageCall.failed]
  · rintro s a ⟨hs, hlock, -⟩ -
    exact ⟨hrows s _ hs rfl rfl, hlock⟩
  · rintro s s' ⟨hs, hlock, -⟩ (rfl | rfl)
    · exact ⟨hs, hlock⟩
    · exact ⟨hrows s _ hs rfl rfl, hlock⟩

theorem named_of_blobReferences {db : Database} (h : db.blobReferences sha = 0) :
    ∀ e ∈ db.packageFiles, e.2.sha256 = sha → False := by
  intro e he hsha
  have hnone := List.countP_eq_zero.mp h e he
  simp [hsha] at hnone

theorem files_blobReferences (hA : Steadfast stored authorized t A) :
    Files stored authorized t (fun s => A s ∧ Handling t sha s) (query (.blobReferences sha))
      (fun n s => (A s ∧ Handling t sha s) ∧
        (n = 0 → ∀ e ∈ s.db.packageFiles, e.2.sha256 = sha → False))
      fun s => A s ∧ Handling t sha s :=
  files_look (hA.and steadfast_handling) trivial fun _ _ _ ha hzero =>
    named_of_blobReferences ((Except.ok.inj ha).trans hzero)

theorem files_deleteUnnamed (hA : Steadfast stored authorized t A) (hrows : OfRows A) :
    Files stored authorized t (fun s => A s ∧ KnowsNamed t sha (fun _ => False) s) (file (.deleteBlob sha))
      (fun _ s => A s ∧ Handling t sha s) fun s => A s ∧ Handling t sha s :=
  files_deleteBlob hA hrows fun _ _ _ => False.elim

theorem files_collectBlob (hA : Steadfast stored authorized t A) (hrows : OfRows A) :
    Files stored authorized t (fun s => A s ∧ Handling t sha s) (collectBlob sha)
      (fun _ s => A s ∧ Handling t sha s) fun s => A s ∧ Handling t sha s := by
  refine Triple.bind (files_blobReferences hA).attempt fun references => ?_
  rcases references with e | n
  · exact Triple.pure fun _ h => h
  · cases n with
    | zero => exact (files_deleteUnnamed hA hrows).ignore.pre fun w h => ⟨h.1.1, h.1.2, h.2 rfl⟩
    | succ n => exact Triple.pure fun _ h => h.1

theorem files_deleteUnreferencedBlobs (hA : Steadfast stored authorized t A) (hrows : OfRows A)
    (files : List PackageFile) :
    Files stored authorized t A (deleteUnreferencedBlobs files) (fun _ => A) A :=
  Triple.forM fun _ _ => files_withBlobLock hA (fun s _ h => hrows s _ h rfl rfl)
    (files_collectBlob hA hrows)

end Blobs

section Purge

variable {k : VersionKey}

abbrev Locks (t : T) (k : VersionKey) : Store T → Prop := Knows t k fun _ => True

omit [DecidableEq T] in
theorem Knows.locks {B : VersionRows → Prop} {s : Store T} (h : Knows t k B s) : Locks t k s :=
  ⟨h.1, trivial⟩

theorem files_ask {q : DbCall} {B : VersionRows → Prop} {B' : q.Answer → VersionRows → Prop}
    (hq : q.looks) (hB : ∀ db a, B (db.rowsOf k) → (q.run db).1 = .ok a → B' a (db.rowsOf k)) :
    Files stored authorized t (Knows t k B) (query q) (fun a => Knows t k (B' a)) (Locks t k) := by
  refine files_query (steadfast_knows B) (fun w _ => .of_plain hq) ?_ fun _ h => h.locks
  rintro s a ⟨hlock, hs⟩ ha
  refine ⟨hlock, ?_⟩
  rw [(DbCall.sameTables_of_looks hq).rowsOf]
  exact hB s.db a hs ha

theorem files_upkeep {α : Type} {x : Op α} (B : VersionRows → Prop) (hx : x.run.Calls Call.plain) :
    Files stored authorized t (Knows t k B) x (fun _ => Knows t k B) (Locks t k) :=
  (files_plain (steadfast_knows B) hx).mono (fun _ h => h) (fun _ _ h => h) fun _ h => h.locks

theorem files_tend {α : Type} {x : Op α} {B : VersionRows → Prop} (hx : x.run.Calls Call.modest) :
    Files stored authorized t (Knows t k B) x (fun _ => Knows t k B) (Locks t k) :=
  files_upkeep B (hx.mono fun _ h => h.1)

theorem feedCount_ok {db : Database} {n : ℕ}
    (h : ((DbCall.feedCount k).run db).1 = .ok n) : n = 0 → (db.rowsOf k).Unheld := by
  rintro rfl
  exact db.unheld_of_feedCount k (Except.ok.inj h)

/-- When no more rows than those of version `k` name a blob, no others do. -/
theorem named_of_references_le {db : Database} {sha : Digest}
    (h : db.blobReferences sha ≤ (db.filesFor k).countP fun f => f.sha256 = sha) :
    ∀ e ∈ db.packageFiles, e.2.sha256 = sha → e.1 = k := by
  have hsplit : db.blobReferences sha = ((db.filesFor k).countP fun f => f.sha256 = sha) +
      (db.packageFiles.filter fun e => e.1 ≠ k).countP fun e => e.2.sha256 = sha := by
    unfold Database.blobReferences Database.filesFor
    rw [List.countP_eq_countP_filter_add _ _ fun e => decide (e.1 = k), List.countP_map]
    simp only [decide_not]
    rfl
  have hnone : ((db.packageFiles.filter fun e => e.1 ≠ k).countP fun e => e.2.sha256 = sha) = 0 := by
    omega
  intro e he hsha
  by_contra hk
  have hcounted := List.countP_eq_zero.mp hnone e (by simpa using ⟨he, hk⟩)
  simp [hsha] at hcounted

/-- No feed holds the version, which still has these files. -/
def VersionRows.Leaves (files : List PackageFile) (v : VersionRows) : Prop :=
  v.Unheld ∧ v.files = files

/-- Delete a blob unless another version names it. -/
theorem files_purgeBlob (files : List PackageFile) (sha : Digest) :
    Files stored authorized t (Knows t k (VersionRows.Leaves files))
      (withBlobLock sha do
        let references ← query (.blobReferences sha)
        onlyIf (references ≤ files.countP fun f => f.sha256 = sha) (file (.deleteBlob sha)))
      (fun _ => Knows t k (VersionRows.Leaves files)) (Knows t k (VersionRows.Leaves files)) := by
  have hA : Steadfast stored authorized t (Knows t k (VersionRows.Leaves files)) := steadfast_knows _
  have hrows : OfRows (Knows t k (VersionRows.Leaves files)) := ofRows_knows k _
  refine files_withBlobLock hA (fun s _ h => hrows s _ h rfl rfl) ?_
  have counted : Files stored authorized t
      (fun s => Knows t k (VersionRows.Leaves files) s ∧ Handling t sha s)
      (query (.blobReferences sha))
      (fun n s => (Knows t k (VersionRows.Leaves files) s ∧ Handling t sha s) ∧
        (n ≤ files.countP (fun f => f.sha256 = sha) →
          ∀ e ∈ s.db.packageFiles, e.2.sha256 = sha → e.1 = k))
      fun s => Knows t k (VersionRows.Leaves files) s ∧ Handling t sha s := by
    refine files_look (hA.and steadfast_handling) trivial fun s n hs hn hle => ?_
    obtain ⟨⟨-, -, hfiles⟩, -⟩ := hs
    have hn' : s.db.blobReferences sha = n := Except.ok.inj hn
    have hfiles' : s.db.filesFor k = files := hfiles
    exact @named_of_references_le k s.db sha (by rwa [hn', hfiles'])
  refine Triple.bind counted fun references => ?_
  unfold onlyIf
  split_ifs with hle
  · have deleted : Files stored authorized t
        (fun s => Knows t k (VersionRows.Leaves files) s ∧ KnowsNamed t sha (· = k) s)
        (file (.deleteBlob sha))
        (fun _ s => Knows t k (VersionRows.Leaves files) s ∧ Handling t sha s)
        fun s => Knows t k (VersionRows.Leaves files) s ∧ Handling t sha s :=
      files_deleteBlob hA hrows fun s k' hs hk => hk ▸ hs.2.1
    exact deleted.pre fun w h => ⟨h.1.1, h.1.2, h.2 hle⟩
  · exact Triple.pure fun _ h => h.1

theorem files_purgeFileBlobs :
    Files stored authorized t (Knows t k VersionRows.Unheld) (purgeFileBlobs k)
      (fun _ => Knows t k VersionRows.Unheld) (Locks t k) := by
  have listed : Files stored authorized t (Knows t k VersionRows.Unheld) (query (.filesFor k))
      (fun files => Knows t k (VersionRows.Leaves files)) (Locks t k) :=
    files_ask trivial fun db files hunheld ha => ⟨hunheld, Except.ok.inj ha⟩
  refine Triple.bind listed fun files => ?_
  exact (Triple.forM fun sha _ => files_purgeBlob files sha).mono (fun _ h => h)
    (fun _ _ h => ⟨h.1, h.2.1⟩) fun _ h => h.locks

/-- The rows of a version that no feed holds, and what they refer to, are deleted. -/
theorem files_deletePackageData :
    Files stored authorized t (Knows t k VersionRows.Unheld) (query (.deletePackageData k))
      (fun _ => Knows t k fun v => v.package = none) (Locks t k) := by
  refine files_query (steadfast_knows _) ?_ ?_ fun _ h => h.locks
  · rintro w ⟨-, hunheld⟩
    refine ⟨fun _ => False.elim, fun _ => False.elim, ?_, (by simp), by simp⟩
    rintro _ rfl f hf
    exact (hunheld.not_approved f hf).elim
  · rintro s a ⟨hlock, -⟩ -
    refine ⟨hlock, ?_⟩
    simp [DbCall.run, Database.rowsOf, Database.row_packages_deletePackageData]

theorem files_purgeGlobalData :
    Files stored authorized t (Knows t k VersionRows.Unheld) (purgeGlobalData k)
      (fun _ => Knows t k fun v => v.package = none) (Locks t k) := by
  refine Triple.bind (files_upkeep _ (plain_purgeSymbols k)) fun _ => ?_
  refine Triple.bind files_purgeFileBlobs fun _ => ?_
  refine Triple.bind (files_upkeep _ (calls_file trivial)) fun _ => ?_
  exact Triple.bind files_deletePackageData fun _ => Triple.pure fun _ h => h

/-- A query that lets no feed hold a version and leaves files alone, under the lock. -/
theorem files_withdraw {q : DbCall} {B : VersionRows → Prop} (hholds : ∀ k', ¬ (Call.db q).holds k')
    (hrefiles : ∀ k', ¬ (Call.db q).refiles k') (B' : VersionRows → Prop)
    (hB : ∀ db, B (db.rowsOf k) → B' ((q.run db).2.rowsOf k)) :
    Files stored authorized t (Knows t k B) (query q) (fun _ => Knows t k B') (Locks t k) := by
  refine files_query (steadfast_knows _) ?_ ?_ fun _ h => h.locks
  · rintro w -
    refine ⟨fun sha h => ?_, fun k' h => (hholds k' h).elim, fun k' h => (hrefiles k' h).elim, (by simp),
      fun k' f h => (hrefiles k' (by rw [h]; rfl)).elim⟩
    cases q with
    | addFile k' f => exact (hrefiles k' rfl).elim
    | _ => exact h.elim
  · rintro s a ⟨hlock, hs⟩ -
    exact ⟨hlock, hB s.db hs⟩

theorem files_purgeLocked (feed : FeedName) :
    Files stored authorized t (Locks t k) (purgeLocked feed k) (fun _ => Locks t k) (Locks t k) := by
  refine Triple.bind (files_withdraw (fun _ => id) (fun _ => id) (fun _ => True)
    fun _ _ => trivial) fun removed => ?_
  have counted : Files stored authorized t (Locks t k) (query (.feedCount k))
      (fun n => Knows t k fun v => n = 0 → v.Unheld) (Locks t k) :=
    files_ask trivial fun db n _ hn => feedCount_ok hn
  refine Triple.bind counted fun holders => ?_
  refine Triple.bind ?_ fun _ => Triple.pure fun _ h => h
  unfold onlyIf
  split_ifs with hzero
  · exact files_purgeGlobalData.mono (fun w h => ⟨h.1, h.2 hzero⟩) (fun _ _ h => h.locks) fun _ h => h
  · exact Triple.pure fun _ h => h.locks

theorem files_purgePlannedLocked (feed : FeedName) :
    Files stored authorized t (Locks t k) (purgePlannedLocked feed k) (fun _ => Locks t k) (Locks t k) := by
  refine Triple.bind (files_upkeep _ (calls_query trivial)) fun m => ?_
  cases m with
  | none => exact Triple.pure fun _ h => h
  | some m =>
    dsimp only
    split_ifs
    · exact Triple.pure fun _ h => h
    · exact files_purgeLocked feed

theorem files_sweepLocked :
    Files stored authorized t (Locks t k) (sweepLocked k) (fun _ => Locks t k) (Locks t k) := by
  have counted : Files stored authorized t (Locks t k) (query (.feedCount k))
      (fun n => Knows t k fun v => n = 0 → v.Unheld) (Locks t k) :=
    files_ask trivial fun db n _ hn => feedCount_ok hn
  refine Triple.bind counted.attempt fun holders => ?_
  rcases holders with e | n
  · exact Triple.pure fun _ h => h
  · cases n with
    | succ n => exact Triple.pure fun _ h => h.locks
    | zero =>
      refine Triple.bind (files_upkeep _ (calls_unwrapOr (calls_query trivial))) fun still => ?_
      unfold onlyIf
      split_ifs
      · exact files_purgeGlobalData.mono (fun w h => ⟨h.1, h.2 rfl⟩) (fun _ _ h => h.locks)
          fun _ h => h
      · exact Triple.pure fun _ h => h.locks

end Purge

section Index

variable {k : VersionKey}

theorem files_hold {q : DbCall} {B : VersionRows → Prop}
    (hB : ∀ db : Database, B (db.rowsOf k) → (db.rowsOf k).IsHeld ∨ db.filesFor k = [])
    (hkey : ∀ k', (Call.db q).holds k' → k' = k) (hrefiles : ∀ k', ¬ (Call.db q).refiles k') :
    Files stored authorized t (Knows t k B) (query q) (fun _ => Locks t k) (Knows t k B) := by
  refine files_query (steadfast_knows _) ?_ ?_ fun _ h => h
  · rintro w ⟨-, hw⟩
    refine ⟨fun sha h => ?_, fun k' h => ?_, fun k' h => (hrefiles k' h).elim, (by simp),
      fun k' f h => (hrefiles k' (by rw [h]; rfl)).elim⟩
    · cases q with
      | addFile k' f => exact (hrefiles k' rfl).elim
      | _ => exact h.elim
    · obtain rfl := hkey k' h
      exact hB _ hw
  · rintro s a ⟨hlock, -⟩ -
    exact ⟨hlock, trivial⟩

def VersionRows.Settled {α : Type} (existing : Option α) (v : VersionRows) : Prop :=
  if existing.isSome then v.IsHeld else v.package = none

theorem files_dropRemains (existing : Option (PackageAt k)) :
    Files stored authorized t (Knows t k fun v => existing = none → v.package = none)
      (dropRemains k existing) (fun existing => Knows t k (VersionRows.Settled existing))
      (Locks t k) := by
  cases existing with
  | none => exact Triple.pure fun _ h => ⟨h.1, h.2 rfl⟩
  | some p =>
    have counted : Files stored authorized t (Locks t k) (query (.feedCount k))
        (fun n => Knows t k fun v => n = 0 ↔ v.Unheld) (Locks t k) :=
      files_ask trivial fun db n _ hn => by
        obtain rfl := Except.ok.inj hn
        refine ⟨db.unheld_of_feedCount k, fun h => (db.feedCount_eq_zero k).mpr fun f => ?_⟩
        simpa [Database.rowsOf, Database.pendingIn] using h f
    refine Triple.bind (counted.pre fun _ h => h.locks) fun holders => ?_
    split_ifs with hzero
    · refine Triple.bind (files_purgeGlobalData.pre fun w h => ⟨h.1, h.2.mp hzero⟩) fun _ => ?_
      exact Triple.pure fun _ h => h
    · refine Triple.pure fun _ h => ⟨h.1, ?_⟩
      by_contra hheld
      exact hzero (h.2.mpr (VersionRows.unheld_iff.mpr hheld))

theorem files_dropStray (feed : FeedName) (existing : Option (PackageAt k))
    (previous : Option Membership) :
    Files stored authorized t (Knows t k (VersionRows.Settled existing)) (dropStray feed k existing previous)
      (fun _ => Knows t k (VersionRows.Settled existing)) (Locks t k) := by
  unfold dropStray
  split_ifs with hstray
  · cases existing with
    | some p => simp at hstray
    | none =>
      refine Triple.bind (files_withdraw (fun _ => id) (fun _ => id)
        (VersionRows.Settled (none : Option (PackageAt k))) fun db h => ?_) fun _ =>
          Triple.pure fun _ h => h
      exact h
  · exact Triple.pure fun _ h => h

variable (site : Site) (feed : FeedName) (incoming : Incoming site.sha512) (options : IndexOptions)

theorem files_indexNew :
    Files stored authorized t (Knows t incoming.package.key fun v => v.package = none)
      (indexNew site feed incoming options) (fun _ => Locks t incoming.package.key)
      (Locks t incoming.package.key) := by
  refine Triple.bind (files_tend (modest_storePayload _ _ _)) fun _ => ?_
  have added : Files stored authorized t (Knows t incoming.package.key fun v => v.package = none)
      (query (.addVersion incoming.package feed (newMembership site incoming options)))
      (fun _ => Locks t incoming.package.key)
      (Knows t incoming.package.key fun v => v.package = none) :=
    files_hold (fun db h => Or.inr (db.files_of_absent _ h)) (fun _ h => h.symm) fun _ => id
  refine Triple.bind added.attempt fun result => ?_
  rcases result with e | inserted
  · refine Triple.bind (files_upkeep _ (calls_unwrapOr (calls_query trivial))) fun holders => ?_
    refine Triple.bind (B := fun _ w => Locks t incoming.package.key w.state) ?_
      fun _ => Triple.throw fun _ h => h
    unfold onlyIf
    split_ifs
    · have deleted : Files stored authorized t (Knows t incoming.package.key fun v => v.package = none)
          (query (.deletePackageData incoming.package.key)) (fun _ => Locks t incoming.package.key)
          (Locks t incoming.package.key) :=
        files_deletePackageData.mono (fun w h => ⟨h.1, w.state.db.unheld_of_absent _ h.2⟩)
          (fun _ _ h => h.locks) fun _ h => h
      refine Triple.bind (Triple.ignore deleted) fun _ => ?_
      exact files_upkeep _ (calls_ignore (calls_file trivial))
    · exact Triple.pure fun _ h => h.locks
  · exact Triple.pure fun _ h => h

theorem files_indexJoin (existing : PackageAt incoming.package.key) (payloadPresent : Bool) :
    Files stored authorized t (Knows t incoming.package.key VersionRows.IsHeld)
      (indexJoin site feed incoming options existing payloadPresent)
      (fun _ => Locks t incoming.package.key) (Locks t incoming.package.key) := by
  refine Triple.bind (files_upkeep _ calls_refuseIf) fun _ => ?_
  refine Triple.bind (files_tend (calls_onlyIf (modest_storePayload _ _ _))) fun _ => ?_
  have added : Files stored authorized t (Knows t incoming.package.key VersionRows.IsHeld)
      (query (.addVersion existing.1 feed (newMembership site incoming options)))
      (fun _ => Locks t incoming.package.key)
      (Knows t incoming.package.key VersionRows.IsHeld) :=
    files_hold (fun db h => Or.inl h) (fun _ h => h.symm.trans existing.2) fun _ => id
  refine Triple.bind (added.mono (fun _ h => h) (fun _ _ h => h) fun _ h => h.locks) fun _ => ?_
  exact Triple.pure fun _ h => h

theorem files_swap (swap : Swap) {p : Package} (hp : p.key = k) (m : Membership) :
    Files stored authorized t (Knows t k VersionRows.IsHeld) (swap.replace p feed m)
      (fun _ => Locks t k) (Locks t k) := by
  have replaced {q : DbCall} (hkey : ∀ k', (Call.db q).holds k' → k' = k)
      (hrefiles : ∀ k', ¬ (Call.db q).refiles k') :
      Files stored authorized t (Knows t k VersionRows.IsHeld) (query q) (fun _ => Locks t k)
        (Locks t k) :=
    (files_hold (fun db h => Or.inl h) hkey hrefiles).mono (fun _ h => h) (fun _ _ h => h)
      fun _ h => h.locks
  cases swap with
  | any =>
    exact Triple.bind (replaced (fun _ h => h.symm.trans hp) fun _ => id) fun _ =>
      Triple.pure fun _ h => h
  | pendingOnly dropFiles others => exact replaced (fun _ h => h.symm.trans hp) fun _ => id

theorem files_overwrite (bytes : Content) (p existing : Package) (m : Membership)
    (sidecars : Sidecars) (swap : Swap) :
    Files stored authorized t (Knows t p.key VersionRows.IsHeld)
      (overwrite feed bytes p existing m sidecars swap) (fun _ => Locks t p.key)
      (Locks t p.key) := by
  refine Triple.bind (files_tend (modest_keepAside _)) fun backup => ?_
  refine Triple.bind (files_tend (modest_readSidecar _ _ _)) fun oldNuspec => ?_
  refine Triple.bind (files_tend (modest_readSidecar _ _ _)) fun oldReadme => ?_
  refine Triple.bind (files_tend (modest_readSidecar _ _ _)) fun oldIcon => ?_
  refine Triple.bind (files_upkeep _ (calls_file trivial)) fun _ => ?_
  have swapped : Files stored authorized t (Knows t p.key VersionRows.IsHeld) (do
      storeSidecars p.key sidecars
      swap.replace p feed m) (fun _ => Locks t p.key) (Locks t p.key) :=
    Triple.bind (files_tend (modest_storeSidecars _ _)) fun _ => files_swap feed swap rfl m
  refine Triple.bind swapped.attempt fun result => ?_
  cases result with
  | ok dropped => exact Triple.pure fun _ h => h
  | error e =>
    exact Triple.bind (files_tend (modest_putBack _ _ _ _ _)) fun _ => Triple.throw fun _ h => h

theorem files_indexOverwrite (existing : PackageAt incoming.package.key) (previous : Membership)
    (payloadPresent : Bool) :
    Files stored authorized t (Knows t incoming.package.key VersionRows.IsHeld)
      (indexOverwrite site feed incoming options existing previous payloadPresent)
      (fun _ => Locks t incoming.package.key) (Locks t incoming.package.key) := by
  refine Triple.bind (files_tend (modest_checkOverwrite site incoming options _ _)) fun _ => ?_
  refine Triple.bind (files_tend (modest_checkUnshared site incoming options _)) fun _ => ?_
  dsimp only
  split_ifs
  · exact Triple.bind (files_swap feed _ existing.2 _) fun _ => Triple.pure fun _ h => h
  · refine Triple.bind (files_overwrite feed _ _ _ _ _ _) fun dropped => ?_
    refine Triple.bind (B := fun _ w => Locks t incoming.package.key w.state) ?_ fun _ => ?_
    · unfold onlyIf
      split_ifs
      · exact files_deleteUnreferencedBlobs (steadfast_knows _) (ofRows_knows _ _) dropped
      · exact Triple.pure fun _ h => h
    · exact Triple.bind (files_upkeep _ (calls_onlyIf (plain_purgeSymbols _))) fun _ =>
        Triple.pure fun _ h => h

theorem files_indexLocked :
    Files stored authorized t (Locks t incoming.package.key) (indexLocked site feed incoming options)
      (fun _ => Locks t incoming.package.key) (Locks t incoming.package.key) := by
  have read : Files stored authorized t (Locks t incoming.package.key)
      (query (.getPackageData incoming.package.key))
      (fun existing => Knows t incoming.package.key fun v => existing = none → v.package = none)
      (Locks t incoming.package.key) :=
    files_ask trivial fun db existing _ ha hnone => by
      obtain rfl := Except.ok.inj ha
      exact (db.getPackageData_eq_none _).mp hnone
  refine Triple.bind read fun existing => ?_
  refine Triple.bind (files_upkeep _ (calls_query trivial)) fun previous => ?_
  refine Triple.bind (files_dropRemains existing) fun existing => ?_
  refine Triple.bind (files_dropStray feed existing previous) fun previous => ?_
  cases existing with
  | none => exact files_indexNew site feed incoming options
  | some existing =>
    refine Triple.bind (files_upkeep _ (calls_call trivial)) fun payloadPresent => ?_
    cases previous with
    | none => exact files_indexJoin site feed incoming options existing payloadPresent
    | some previous =>
      exact files_indexOverwrite site feed incoming options existing previous payloadPresent

end Index

section Transfer

variable {k : VersionKey}

theorem files_transferLocked (source : FeedName) (target : FeedMeta) (mode : Transfer) :
    Files stored authorized t (Locks t k) (transferLocked source target k mode) (fun _ => Locks t k)
      (Locks t k) := by
  refine Triple.bind (files_upkeep _ (calls_query trivial)) fun package => ?_
  cases package with
  | none => exact Triple.throw fun _ h => h
  | some package =>
    refine Triple.bind (files_upkeep _ calls_refuseIf) fun _ => ?_
    have read : Files stored authorized t (Locks t k) (query (.getMembership source k))
        (fun here => Knows t k fun v => here.isSome → v.IsHeld) (Locks t k) :=
      files_ask trivial fun db here _ ha hsome => by
        obtain rfl := Except.ok.inj ha
        exact (db.isHeld_iff k).mpr ⟨source, hsome⟩
    refine Triple.bind read fun here => ?_
    cases here with
    | none => exact Triple.throw fun _ h => h.locks
    | some here =>
      refine Triple.bind (files_upkeep _ (calls_query trivial)) fun present => ?_
      refine Triple.bind (files_upkeep _ calls_refuseIf) fun _ => ?_
      have arrived (m : Membership) : Files stored authorized t
          (Knows t k fun v => (some here).isSome → v.IsHeld) (addToTarget target.name k m)
          (fun _ => Locks t k) (Locks t k) := by
        have added : Files stored authorized t (Knows t k fun v => (some here).isSome → v.IsHeld)
            (query (.addMembership target.name k m)) (fun _ => Locks t k)
            (Knows t k fun v => (some here).isSome → v.IsHeld) :=
          files_hold (fun db h => Or.inl (h rfl)) (fun _ h => h.symm) fun _ => id
        refine Triple.bind added.attempt fun result => ?_
        rcases result with e | ⟨⟩
        · cases e with
          | packageAlreadyExists => exact Triple.pure fun _ h => h.locks
          | _ => exact Triple.throw fun _ h => h.locks
        · exact Triple.pure fun _ h => h
      refine Triple.bind (arrived _) fun arrival => ?_
      refine Triple.bind (B := fun _ w => Locks t k w.state) ?_ fun _ => Triple.pure fun _ h => h
      unfold onlyIf
      split_ifs
      · exact Triple.bind (files_withdraw (fun _ => id) (fun _ => id) (fun _ => True)
          fun _ _ => trivial) fun _ => Triple.pure fun _ h => h
      · exact Triple.pure fun _ h => h

end Transfer

section Attachments

variable {k : VersionKey} {sha : Digest}

/-- Whoever has approved the version, task `t` may change its files. -/
def VersionRows.Open (authorized : T → FeedName → Prop) (t : T) (v : VersionRows) : Prop :=
  ∀ f, v.Approved f → authorized t f

theorem files_checkNotApproved {v : VersionRef} {guard : ApprovalGuard}
    (hguard : ∀ f, (guard.holds f = true → guard.mayOverride f = true) → authorized t f) :
    Files stored authorized t (Locks t v.key) (checkNotApproved v guard)
      (fun _ => Knows t v.key (VersionRows.Open authorized t)) (Locks t v.key) := by
  have read : Files stored authorized t (Locks t v.key) (query (.approvedIn v.key))
      (fun approved => Knows t v.key fun rows => ∀ f, rows.Approved f → f ∈ approved)
      (Locks t v.key) :=
    files_ask trivial fun db approved _ ha f hf => by
      obtain rfl := Except.ok.inj ha
      exact (db.mem_approvedIn v.key).mpr hf
  refine Triple.bind read fun approved => ?_
  dsimp only
  unfold refuseIf onlyIf
  split_ifs with hrefuse
  · exact Triple.bind (Triple.throw fun _ h => h.locks) fun _ => Triple.pure fun _ h => h
  · refine Triple.bind (Triple.pure (B := fun _ w => Knows t v.key _ w.state) fun _ h => h)
      fun _ => Triple.pure fun w h => ⟨h.1, fun f hf => hguard f fun hholds => ?_⟩
    by_contra hmay
    have hmem : f ∈ approved.filter guard.holds := List.mem_filter.mpr ⟨h.2 f hf, hholds⟩
    have hmissing : f ∈ (approved.filter guard.holds).filter fun f => !guard.mayOverride f :=
      List.mem_filter.mpr ⟨hmem, by simpa using hmay⟩
    refine hrefuse ?_
    rw [Bool.and_eq_true, Bool.not_eq_true', Bool.not_eq_true', List.isEmpty_eq_false_iff,
      List.isEmpty_eq_false_iff]
    exact ⟨List.ne_nil_of_mem hmem, List.ne_nil_of_mem hmissing⟩

theorem files_storeBlob {A : Store T → Prop} (bytes : Content) (hA : Steadfast stored authorized t A)
    (hrows : OfRows A) :
    Files stored authorized t (fun s => A s ∧ Handling t sha s) (file (.storeBlob sha bytes))
      (fun _ s => A s ∧ KnowsStored t sha s) fun s => A s ∧ Handling t sha s := by
  refine files_file (hA.and steadfast_handling) (fun w _ => .of_plain trivial) (by simp [StorageCall.failed]) ?_ ?_
  · rintro s a ⟨hs, hlock⟩ -
    refine ⟨hrows s _ hs rfl rfl, hlock, ?_⟩
    simp only [StorageCall.run]
    split_ifs with hsame
    · exact (Option.any_eq_true _ _).mp hsame |>.elim fun bytes h => by simp [h.1]
    · simp
  · rintro s s' ⟨hs, hlock⟩ (rfl | rfl)
    · exact ⟨hs, hlock⟩
    · exact ⟨hrows s _ hs rfl rfl, hlock⟩

/-- Add a row whose blob is stored, to a version whose files may be changed. -/
theorem files_addFile (file : PackageFile) :
    Files stored authorized t
      (fun s => Knows t k (VersionRows.Open authorized t) s ∧ KnowsStored t file.sha256 s)
      (query (.addFile k file))
      (fun _ s => Knows t k (VersionRows.Open authorized t) s ∧ Handling t file.sha256 s)
      fun s => Knows t k (VersionRows.Open authorized t) s ∧ Handling t file.sha256 s := by
  refine files_query ((steadfast_knows _).and steadfast_knowsStored) ?_ ?_
    fun s h => ⟨h.1, h.2.1⟩
  · rintro w ⟨⟨-, hopen⟩, hlock, hstored⟩
    refine ⟨?_, fun _ => False.elim, ?_, (by simp), ?_⟩
    · rintro _ rfl
      exact hlock
    · rintro _ rfl f hf
      exact hopen f hf
    · rintro k' file' hadds
      obtain ⟨-, rfl⟩ : k = k' ∧ file = file' := by simpa using hadds
      exact hstored
  · rintro s a ⟨⟨hversion, hopen⟩, hlock, -⟩ ha
    refine ⟨⟨hversion, ?_⟩, hlock⟩
    rcases s.db.addFile_cases k file with ⟨e, he⟩ | ⟨db', he, -, -, hmembers, -⟩
    · simp [DbCall.run, he] at ha
    · intro f hf
      refine hopen f ?_
      simpa [DbCall.run, he, VersionRows.Approved, Database.rowsOf, Database.pendingIn, hmembers]
        using hf

theorem files_attachRow (name : String) (upload : Finished) :
    Files stored authorized t (Knows t k (VersionRows.Open authorized t))
      (withBlobLock upload.sha256 (attachRow k name upload))
      (fun _ => Knows t k (VersionRows.Open authorized t))
      (Knows t k (VersionRows.Open authorized t)) := by
  have hA : Steadfast stored authorized t (Knows t k (VersionRows.Open authorized t)) := steadfast_knows _
  have hrows : OfRows (Knows t k (VersionRows.Open authorized t)) := ofRows_knows k _
  refine files_withBlobLock hA (fun s _ h => hrows s _ h rfl rfl) ?_
  refine Triple.bind (files_storeBlob upload.bytes hA hrows) fun _ => ?_
  refine Triple.bind (files_addFile ⟨name, upload.sha256, upload.size⟩).attempt fun added => ?_
  rcases added with e | ⟨⟩
  · have counted : Files stored authorized t
        (fun s => Knows t k (VersionRows.Open authorized t) s ∧ Handling t upload.sha256 s)
        (unwrapOr (query (.blobReferences upload.sha256)) 1)
        (fun n s => (Knows t k (VersionRows.Open authorized t) s ∧ Handling t upload.sha256 s) ∧
          (n = 0 → ∀ e ∈ s.db.packageFiles, e.2.sha256 = upload.sha256 → False))
        fun s => Knows t k (VersionRows.Open authorized t) s ∧ Handling t upload.sha256 s := by
      refine Triple.bind (files_blobReferences hA).attempt fun references => ?_
      rcases references with e | n
      · exact Triple.pure fun _ h => ⟨h, by simp⟩
      · exact Triple.pure fun _ h => h
    refine Triple.bind counted fun references => ?_
    refine Triple.bind (B := fun _ w => Knows t k (VersionRows.Open authorized t) w.state ∧
      Handling t upload.sha256 w.state) ?_ fun _ => Triple.throw fun _ h => h
    unfold onlyIf
    split_ifs with hzero
    · exact (files_deleteUnnamed hA hrows).ignore.pre fun w h => ⟨h.1.1, h.1.2, h.2 hzero⟩
    · exact Triple.pure fun _ h => h.1
  · exact Triple.pure fun _ h => h

theorem files_attachLocked {v : VersionRef} {guard : ApprovalGuard}
    (hguard : ∀ f, (guard.holds f = true → guard.mayOverride f = true) → authorized t f)
    (feed : FeedName) (name : String) (upload : Finished) :
    Files stored authorized t (Locks t v.key) (attachLocked feed guard v name upload)
      (fun _ => Locks t v.key) (Locks t v.key) := by
  have here : (versionHere feed v.key).run.Calls Call.plain := by
    refine calls_bind (calls_query trivial) fun here => ?_
    split_ifs
    · exact calls_query trivial
    · exact calls_pure _
  refine Triple.bind (files_upkeep _ here) fun _ => ?_
  refine Triple.bind (files_upkeep _ calls_refuseIf) fun _ => ?_
  refine Triple.bind (files_upkeep _ (calls_query trivial)) fun existing => ?_
  cases existing with
  | some existing =>
    dsimp only
    split_ifs
    · exact Triple.pure fun _ h => h
    · exact Triple.throw fun _ h => h
  | none =>
    refine Triple.bind (files_checkNotApproved hguard) fun _ => ?_
    exact (files_attachRow name upload).mono (fun _ h => h) (fun _ _ h => h.locks) fun _ h => h.locks

theorem files_detachLocked {v : VersionRef} {guard : ApprovalGuard}
    (hguard : ∀ f, (guard.holds f = true → guard.mayOverride f = true) → authorized t f)
    (feed : FeedName) (name : String) :
    Files stored authorized t (Locks t v.key) (detachLocked feed guard v name)
      (fun _ => Locks t v.key) (Locks t v.key) := by
  refine Triple.bind (files_upkeep _ (calls_query trivial)) fun _ => ?_
  refine Triple.bind (files_upkeep _ calls_refuseIf) fun _ => ?_
  refine Triple.bind (files_checkNotApproved hguard) fun _ => ?_
  have deleted : Files stored authorized t (Knows t v.key (VersionRows.Open authorized t))
      (query (.deleteFile v.key name)) (fun _ => Locks t v.key) (Locks t v.key) := by
    refine files_query (steadfast_knows _) ?_ (fun s a hs _ => hs.locks) fun _ h => h.locks
    rintro w ⟨-, hopen⟩
    refine ⟨fun _ => False.elim, fun _ => False.elim, ?_, (by simp), by simp⟩
    rintro _ rfl f hf
    exact hopen f hf
  have row : Files stored authorized t (Knows t v.key (VersionRows.Open authorized t))
      (deleteFile v.key name) (fun _ => Locks t v.key) (Locks t v.key) := by
    refine Triple.bind (files_upkeep _ (calls_query trivial)) fun row => ?_
    cases row with
    | none => exact Triple.pure fun _ h => h.locks
    | some row => exact Triple.bind deleted fun _ => Triple.pure fun _ h => h
  refine Triple.bind row fun row => ?_
  cases row with
  | none => exact Triple.throw fun _ h => h
  | some row =>
    exact files_withBlobLock (steadfast_knows _) (fun s _ h => ofRows_knows _ _ s _ h rfl rfl)
      (files_collectBlob (steadfast_knows _) (ofRows_knows _ _))

end Attachments

end YaNuget
