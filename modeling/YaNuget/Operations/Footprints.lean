import YaNuget.Operations.Sections

/-!
# What the parts of an operation call

Which calls a part can make at all, whatever it is answered. The parts that
run under a version's lock change nothing that another version's lock guards.
-/
namespace YaNuget

open Concurrency Op Fallible

/-- A call allowed to the holder of the locks `ks`, short of an answer. -/
def Call.within (ks : List VersionKey) : Call → Prop
  | .lockVersion _ | .unlockVersion _ | .db (.renameFeed _ _ _) | .symbolsIndexed _ _
  | .respond _ => False
  | c => ∀ k, c.changes k → k ∈ ks

/-- A query that changes nothing, the looks at a tombstone and at a membership
apart. -/
def DbCall.reads : DbCall → Prop
  | .getPackageData _ | .existsIn _ _ | .packageDataExists _ | .feedCount _ | .approvedIn _
  | .filesFor _ | .blobReferences _ | .findSymbols _ => True
  | _ => False

/-- A call that may be made for version `k` at any time: nothing it changes is
looked at when the version is served or replaced. -/
def Call.quiet (k : VersionKey) : Call → Prop
  | .db (.deleteSymbols k') => k' = k
  | .db q => q.reads
  | .storage (.getAux k' _) => k' = k
  | .storage (.deleteBlob _) | .storage (.deleteSymbol _) => True
  | .lockBlob _ | .unlockBlob _ => True
  | _ => False

def Call.approves (ks : List VersionKey) : Call → Prop
  | .db (.approveMembership _ k) => k ∈ ks
  | .db (.updateMemberships _ ks' change) => change = .approve ∧ ∀ k ∈ ks', k ∈ ks
  | .db q => q.reads
  | _ => False

def Call.upkeep (k : VersionKey) : Call → Prop
  | .db (.deleteSymbols k') => k' = k
  | .db q => q.reads
  | .storage (.storePackage k' _) | .storage (.getPackage k') | .storage (.hardLink k')
  | .storage (.storeAux k' _ _) | .storage (.getAux k' _) | .storage (.delete k') => k' = k
  | .storage (.deleteBlob _) | .storage (.deleteSymbol _) => True
  | .lockBlob _ | .unlockBlob _ | .packageExists _ => True
  | _ => False

/-- A call of the removal of the data of version `k` that all feeds share. -/
def Call.purges (k : VersionKey) : Call → Prop
  | .db (.deletePackageData k') => k' = k
  | c => c.upkeep k

def Call.joins (feed : FeedName) (k : VersionKey) : Call → Prop
  | .db (.addVersion p f _) => p.key = k ∧ f = feed
  | c => c.upkeep k

def Call.overwrites (feed : FeedName) (k : VersionKey) (previous : Membership) : Call → Prop
  | .db (.replaceVersion p f m) | .db (.replacePendingVersion p f m _ _) =>
    p.key = k ∧ f = feed ∧ m.listed = previous.listed ∧ m.listingSet = previous.listingSet ∧
      m.enabled = previous.enabled ∧ m.pinned = previous.pinned
  | c => c.upkeep k

/-- A call of a push of version `k` into `feed`. -/
def Call.indexes (feed : FeedName) (k : VersionKey) : Call → Prop
  | .db (.replaceVersion p f _) | .db (.replacePendingVersion p f _ _ _)
  | .db (.addVersion p f _) => p.key = k ∧ f = feed
  | .db (.removeMembership f k') | .db (.getMembership f k') => f = feed ∧ k' = k
  | c => c.purges k

theorem Call.upkeep_of_quiet {k : VersionKey} {c : Call} (h : c.quiet k) : c.upkeep k := by
  cases c with
  | db q => cases q <;> simp_all [Call.quiet, Call.upkeep, DbCall.reads]
  | storage s => cases s <;> simp_all [Call.quiet, Call.upkeep]
  | _ => simp_all [Call.quiet, Call.upkeep]

theorem Call.purges_of_upkeep {k : VersionKey} {c : Call} (h : c.upkeep k) : c.purges k := by
  unfold Call.purges
  split
  · exact h.elim
  · exact h

theorem Call.indexes_of_purges {feed : FeedName} {k : VersionKey} {c : Call} (h : c.purges k) :
    c.indexes feed k := by
  unfold Call.indexes
  split
  · exact h.elim
  · exact h.elim
  · exact h.elim
  · exact h.elim
  · exact h.elim
  · exact h

theorem Call.indexes_of_upkeep {feed : FeedName} {k : VersionKey} {c : Call} (h : c.upkeep k) :
    c.indexes feed k :=
  Call.indexes_of_purges (Call.purges_of_upkeep h)

theorem Call.joins_of_upkeep {feed : FeedName} {k : VersionKey} {c : Call} (h : c.upkeep k) :
    c.joins feed k := by
  unfold Call.joins
  split
  · exact h.elim
  · exact h

theorem Call.indexes_of_joins {feed : FeedName} {k : VersionKey} {c : Call} (h : c.joins feed k) :
    c.indexes feed k := by
  unfold Call.joins at h
  split at h
  · exact h
  · exact Call.indexes_of_upkeep h

theorem Call.overwrites_of_upkeep {feed : FeedName} {k : VersionKey} {previous : Membership}
    {c : Call} (h : c.upkeep k) : c.overwrites feed k previous := by
  unfold Call.overwrites
  split
  · exact h.elim
  · exact h.elim
  · exact h

theorem Call.indexes_of_overwrites {feed : FeedName} {k : VersionKey} {previous : Membership}
    {c : Call} (h : c.overwrites feed k previous) : c.indexes feed k := by
  unfold Call.overwrites at h
  split at h
  · exact ⟨h.1, h.2.1⟩
  · exact ⟨h.1, h.2.1⟩
  · exact Call.indexes_of_upkeep h

theorem Call.within_of_indexes {feed : FeedName} {k : VersionKey} {c : Call}
    (h : c.indexes feed k) : c.within [k] := by
  cases c with
  | db q => cases q <;> simp_all [Call.indexes, Call.purges, Call.upkeep, Call.within, Call.changes,
      DbCall.reads]
  | storage s => cases s <;> simp_all [Call.indexes, Call.purges, Call.upkeep, Call.within,
      Call.changes]
  | _ => simp_all [Call.indexes, Call.purges, Call.upkeep, Call.within, Call.changes]

theorem Call.within_mono {ks ks' : List VersionKey} {c : Call} (h : c.within ks)
    (hks : ∀ k ∈ ks, k ∈ ks') : c.within ks' := by
  cases c with
  | lockVersion | unlockVersion | symbolsIndexed | respond => exact h.elim
  | db q =>
    cases q with
    | renameFeed src dst hold => exact h.elim
    | _ => exact fun k hk => hks k (h k hk)
  | _ => exact fun k hk => hks k (h k hk)

theorem Call.within_of_unchanging {q : DbCall} (h : ∀ k, ¬ (Call.db q).changes k)
    (ks : List VersionKey) : (Call.db q).within ks := by
  cases q with
  | renameFeed src dst hold => exact h ⟨"", ""⟩ trivial
  | _ => exact fun k hk => (h k hk).elim

theorem Call.within_of_approves {ks : List VersionKey} {c : Call} (h : c.approves ks) :
    c.within ks := by
  cases c with
  | db q =>
    cases q with
    | updateMemberships f ks' change =>
      obtain ⟨rfl, hks⟩ := h
      exact hks
    | _ => simp_all [Call.approves, Call.within, Call.changes, DbCall.reads]
  | _ => exact h.elim

theorem Call.within_of_purges {k : VersionKey} {c : Call} (h : c.purges k) : c.within [k] :=
  @Call.within_of_indexes "" k c (Call.indexes_of_purges h)

theorem Call.within_of_reads {q : DbCall} (h : q.reads) (ks : List VersionKey) :
    (Call.db q).within ks := by
  cases q <;> simp_all [Call.within, Call.changes, DbCall.reads]

section Rules

variable {α β : Type} {φ : Call → Prop}

theorem calls_pure (a : α) : (pure a : Op α).run.Calls φ := trivial

theorem calls_throw (e : Error) : (throw e : Op α).run.Calls φ := trivial

theorem calls_query {q : DbCall} (h : φ (.db q)) : (query q).run.Calls φ := ⟨h, fun _ => trivial⟩

theorem calls_read {ks : List VersionKey} {q : DbCall} (h : q.reads) :
    (query q).run.Calls (Call.within ks) :=
  calls_query (Call.within_of_reads h ks)

theorem calls_file {c : StorageCall} (h : φ (.storage c)) : (file c).run.Calls φ :=
  ⟨h, fun _ => trivial⟩

theorem calls_call {c : Call} (h : φ c) : (call c).run.Calls φ := ⟨h, fun _ => trivial⟩

theorem calls_ofResult (x : Except Error α) : (ofResult x).run.Calls φ := trivial

theorem calls_onlyIf {p : Prop} [Decidable p] {x : Op Unit} (h : x.run.Calls φ) :
    (onlyIf p x).run.Calls φ := by
  unfold onlyIf
  split_ifs
  · exact h
  · trivial

theorem calls_refuseIf {p : Prop} [Decidable p] {e : Error} : (refuseIf p e).run.Calls φ :=
  calls_onlyIf trivial

theorem calls_ignore {x : Op α} (hx : x.run.Calls φ) : (ignore x).run.Calls φ :=
  (closed_calls φ).ignore hx

theorem calls_forM {xs : List α} {g : α → Op PUnit} (h : ∀ a ∈ xs, (g a).run.Calls φ) :
    (xs.forM g).run.Calls φ :=
  (closed_calls φ).forM h

theorem calls_ok {x : Op α} (h : x.run.Calls φ) : (ok x).run.Calls φ := by
  refine calls_bind (calls_attempt h) fun result => ?_
  cases result with
  | ok a => trivial
  | error e => trivial

theorem calls_unwrapOr {x : Op α} {a : α} (h : x.run.Calls φ) : (unwrapOr x a).run.Calls φ := by
  refine calls_bind (calls_attempt h) fun result => ?_
  cases result with
  | ok a => trivial
  | error e => trivial

theorem calls_optionForM {x : Option β} {f : β → Op PUnit} (h : ∀ b, (f b).run.Calls φ) :
    (x.forM f).run.Calls φ :=
  (closed_calls φ).optionForM h

theorem calls_withBlobLock {sha : Digest} {body : Op α} (hl : φ (.lockBlob sha))
    (hu : φ (.unlockBlob sha)) (h : body.run.Calls φ) : (withBlobLock sha body).run.Calls φ :=
  calls_bind (calls_call hl) fun _ => calls_bind (calls_attempt h) fun result =>
    calls_bind (calls_call hu) fun _ => calls_ofResult result

theorem calls_withVersionLock {k : VersionKey} {body : Op α} (hl : φ (.lockVersion k))
    (hu : φ (.unlockVersion k)) (h : body.run.Calls φ) : (withVersionLock k body).run.Calls φ :=
  calls_bind (calls_call hl) fun _ => calls_bind (calls_attempt h) fun result =>
    calls_bind (calls_call hu) fun _ => calls_ofResult result

theorem calls_withVersionLocks {ks : List VersionKey} {body : Op α}
    (hl : ∀ k, φ (.lockVersion k)) (hu : ∀ k, φ (.unlockVersion k)) (h : body.run.Calls φ) :
    (withVersionLocks ks body).run.Calls φ := by
  induction ks with
  | nil => exact h
  | cons k ks ih => exact calls_withVersionLock (hl k) (hu k) ih

end Rules

section Upkeep

variable (k : VersionKey)

theorem calls_purgeSymbols : (purgeSymbols k).run.Calls (Call.quiet k) := by
  refine calls_bind (calls_query trivial) fun symbols => ?_
  refine calls_bind (calls_forM fun sym _ => calls_file trivial) fun _ => ?_
  exact calls_bind (calls_query rfl) fun _ => calls_pure _

theorem calls_purgeFileBlobs : (purgeFileBlobs k).run.Calls (Call.quiet k) := by
  refine calls_bind (calls_query trivial) fun files => ?_
  refine calls_forM fun sha _ => calls_withBlobLock trivial trivial ?_
  exact calls_bind (calls_query trivial) fun references => calls_onlyIf (calls_file trivial)

theorem calls_purgeGlobalData : (purgeGlobalData k).run.Calls (Call.purges k) := by
  have quiet {c : Call} (hc : c.quiet k) : c.purges k := Call.purges_of_upkeep (Call.upkeep_of_quiet hc)
  refine calls_bind ((calls_purgeSymbols k).mono fun _ => quiet) fun _ => ?_
  refine calls_bind ((calls_purgeFileBlobs k).mono fun _ => quiet) fun _ => ?_
  refine calls_bind (calls_file rfl) fun _ => ?_
  exact calls_bind (calls_query rfl) fun _ => calls_pure _

theorem calls_deleteUnreferencedBlobs (files : List PackageFile) :
    (deleteUnreferencedBlobs files).run.Calls (Call.quiet k) := by
  refine calls_forM fun sha _ => calls_withBlobLock trivial trivial ?_
  refine calls_bind (calls_attempt (calls_query trivial)) fun references => ?_
  split
  · exact calls_ignore (calls_file trivial)
  · exact calls_pure _

theorem calls_storeSidecars (s : Sidecars) : (storeSidecars k s).run.Calls (Call.upkeep k) := by
  refine calls_bind (calls_file rfl) fun _ => ?_
  refine calls_bind (calls_optionForM fun bytes => calls_file rfl) fun _ => ?_
  exact calls_optionForM fun bytes => calls_file rfl

theorem calls_storePayload (bytes : Content) (s : Sidecars) :
    (storePayload k bytes s).run.Calls (Call.upkeep k) :=
  calls_bind (calls_file rfl) fun _ => calls_storeSidecars k s

theorem calls_keepAside : (keepAside k).run.Calls (Call.upkeep k) := by
  refine calls_bind (calls_ok (calls_file rfl)) fun found => ?_
  cases found with
  | none => exact calls_pure _
  | some _ =>
    refine calls_bind (calls_attempt (calls_file rfl)) fun linked => ?_
    cases linked with
    | ok bytes => exact calls_pure _
    | error e => exact calls_pure _

theorem calls_readSidecar (kind : AuxFile) (present : Bool) :
    (readSidecar k kind present).run.Calls (Call.quiet k) := by
  cases present with
  | true => exact calls_ok (calls_file rfl)
  | false => exact calls_pure _

theorem calls_putBack (backup : Option TempFile) (nuspec readme icon : Option Content) :
    (putBack k backup nuspec readme icon).run.Calls (Call.upkeep k) := by
  refine calls_bind (calls_optionForM fun backup => calls_ignore (calls_file rfl)) fun _ => ?_
  exact calls_optionForM fun nuspec => calls_ignore (calls_storeSidecars k _)

end Upkeep

section Index

variable (site : Site) (feed : FeedName) (incoming : Incoming site.sha512) (options : IndexOptions)

theorem calls_swap {k : VersionKey} {previous m : Membership} (swap : Swap) {p : Package}
    (h : Call.overwrites feed k previous (.db (.replaceVersion p feed m))) :
    (swap.replace p feed m).run.Calls (Call.overwrites feed k previous) := by
  cases swap with
  | any => exact calls_bind (calls_query h) fun _ => calls_pure _
  | pendingOnly dropFiles others => exact calls_query h

theorem calls_overwrite {previous m : Membership} (bytes : Content) (p existing : Package)
    (sidecars : Sidecars) (swap : Swap)
    (h : Call.overwrites feed p.key previous (.db (.replaceVersion p feed m))) :
    (overwrite feed bytes p existing m sidecars swap).run.Calls
      (Call.overwrites feed p.key previous) := by
  have upkeep {α : Type} {x : Op α} (hx : x.run.Calls (Call.upkeep p.key)) :
      x.run.Calls (Call.overwrites feed p.key previous) :=
    hx.mono fun _ => Call.overwrites_of_upkeep
  refine calls_bind (upkeep (calls_keepAside _)) fun backup => ?_
  have sidecar (kind : AuxFile) (present : Bool) :=
    upkeep ((calls_readSidecar p.key kind present).mono fun _ => Call.upkeep_of_quiet)
  refine calls_bind (sidecar _ _) fun oldNuspec => ?_
  refine calls_bind (sidecar _ _) fun oldReadme => calls_bind (sidecar _ _) fun oldIcon => ?_
  refine calls_bind (calls_file rfl) fun _ => ?_
  refine calls_bind (calls_attempt (calls_bind (upkeep (calls_storeSidecars _ _))
    fun _ => calls_swap feed swap h)) fun swapped => ?_
  cases swapped with
  | ok dropped => exact calls_pure _
  | error e => exact calls_bind (upkeep (calls_putBack _ _ _ _ _)) fun _ => calls_throw _

theorem calls_checkOverwrite (existing : Package) (previous : Membership) :
    (checkOverwrite site incoming options existing previous).run.Calls
      (Call.quiet incoming.package.key) := by
  unfold checkOverwrite
  dsimp only
  split_ifs
  · exact calls_bind (calls_query trivial) fun approved => calls_refuseIf
  · exact calls_refuseIf

theorem calls_checkUnshared (sameContent : Bool) :
    (checkUnshared site incoming options sameContent).run.Calls
      (Call.quiet incoming.package.key) :=
  calls_onlyIf (calls_bind (calls_query trivial) fun _ => calls_refuseIf)

theorem calls_indexOverwrite (existing : PackageAt incoming.package.key) (previous : Membership)
    (payloadPresent : Bool) :
    (indexOverwrite site feed incoming options existing previous payloadPresent).run.Calls
      (Call.overwrites feed incoming.package.key previous) := by
  have quiet {α : Type} {x : Op α} (hx : x.run.Calls (Call.quiet incoming.package.key)) :
      x.run.Calls (Call.overwrites feed incoming.package.key previous) :=
    hx.mono fun _ hc => Call.overwrites_of_upkeep (Call.upkeep_of_quiet hc)
  refine calls_bind (quiet (calls_checkOverwrite _ _ _ _ _)) fun _ => ?_
  refine calls_bind (quiet (calls_checkUnshared _ _ _ _)) fun _ => ?_
  dsimp only
  split_ifs
  · exact calls_bind (calls_swap feed _ ⟨existing.2, rfl, rfl, rfl, rfl, rfl⟩) fun _ => calls_pure _
  · refine calls_bind (calls_overwrite feed _ _ _ _ _ ⟨rfl, rfl, rfl, rfl, rfl, rfl⟩)
      fun dropped => ?_
    refine calls_bind (calls_onlyIf (quiet (calls_deleteUnreferencedBlobs _ _))) fun _ => ?_
    exact calls_bind (calls_onlyIf (quiet (calls_purgeSymbols _))) fun _ => calls_pure _

theorem calls_indexNew :
    (indexNew site feed incoming options).run.Calls (Call.indexes feed incoming.package.key) := by
  have stored := calls_storePayload incoming.package.key incoming.bytes incoming.sidecars
  refine calls_bind (stored.mono fun _ => Call.indexes_of_upkeep) fun _ => ?_
  refine calls_bind (calls_attempt (calls_query ⟨rfl, rfl⟩)) fun added => ?_
  cases added with
  | ok _ => exact calls_pure _
  | error e =>
    refine calls_bind (calls_unwrapOr (calls_query trivial)) fun holders => ?_
    refine calls_bind (calls_onlyIf ?_) fun _ => calls_throw e
    exact calls_bind (calls_ignore (calls_query rfl)) fun _ => calls_ignore (calls_file rfl)

theorem calls_indexJoin (existing : PackageAt incoming.package.key) (payloadPresent : Bool) :
    (indexJoin site feed incoming options existing payloadPresent).run.Calls
      (Call.joins feed incoming.package.key) := by
  have stored := calls_storePayload incoming.package.key incoming.bytes incoming.sidecars
  refine calls_bind calls_refuseIf fun _ => ?_
  refine calls_bind (calls_onlyIf (stored.mono fun _ => Call.joins_of_upkeep)) fun _ => ?_
  exact calls_bind (calls_query ⟨existing.2, rfl⟩) fun _ => calls_pure _

theorem calls_dropRemains (k : VersionKey) (existing : Option (PackageAt k)) :
    (dropRemains k existing).run.Calls (Call.purges k) := by
  cases existing with
  | none => exact calls_pure _
  | some existing =>
    refine calls_bind (calls_query trivial) fun holders => ?_
    split_ifs
    · exact calls_bind (calls_purgeGlobalData k) fun _ => calls_pure _
    · exact calls_pure _

theorem calls_dropStray (k : VersionKey) (existing : Option (PackageAt k))
    (previous : Option Membership) :
    (dropStray feed k existing previous).run.Calls (Call.indexes feed k) := by
  unfold dropStray
  split_ifs
  · exact calls_bind (calls_query ⟨rfl, rfl⟩) fun _ => calls_pure _
  · exact calls_pure _

theorem calls_indexLocked :
    (indexLocked site feed incoming options).run.Calls (Call.indexes feed incoming.package.key) := by
  refine calls_bind (calls_query trivial) fun existing => ?_
  refine calls_bind (calls_query ⟨rfl, rfl⟩) fun previous => ?_
  refine calls_bind ((calls_dropRemains _ _).mono fun _ => Call.indexes_of_purges) fun existing => ?_
  refine calls_bind (calls_dropStray feed _ _ _) fun previous => ?_
  cases existing with
  | none => exact calls_indexNew site feed incoming options
  | some existing =>
    refine calls_bind (calls_call trivial) fun payloadPresent => ?_
    cases previous with
    | none =>
      exact (calls_indexJoin site feed incoming options existing payloadPresent).mono
        fun _ => Call.indexes_of_joins
    | some previous =>
      exact (calls_indexOverwrite site feed incoming options existing previous
        payloadPresent).mono fun _ => Call.indexes_of_overwrites

end Index

section Locked

variable (site : Site) (feed : FeedName) (k : VersionKey)

theorem calls_purgeLocked : (purgeLocked feed k).run.Calls (Call.within [k]) := by
  refine calls_bind (calls_query fun k' hk' => by simpa using hk'.symm) fun removed => ?_
  refine calls_bind (calls_read trivial) fun holders => ?_
  refine calls_bind (calls_onlyIf ?_) fun _ => calls_pure _
  exact (calls_purgeGlobalData k).mono fun _ => Call.within_of_purges

theorem calls_purgePlannedLocked : (purgePlannedLocked feed k).run.Calls (Call.within [k]) := by
  refine calls_bind (calls_query fun _ hk => hk.elim) fun m => ?_
  cases m with
  | none => exact calls_pure _
  | some m =>
    dsimp only
    split_ifs
    · exact calls_pure _
    · exact calls_purgeLocked feed k

theorem calls_sweepLocked : (sweepLocked k).run.Calls (Call.within [k]) := by
  refine calls_bind (calls_attempt (calls_read trivial)) fun holders => ?_
  split
  · refine calls_bind (calls_unwrapOr (calls_read trivial)) fun still => calls_onlyIf ?_
    exact (calls_purgeGlobalData k).mono fun _ => Call.within_of_purges
  · exact calls_pure _

theorem calls_checkShownBuilds (versions : List VersionRef) (shown : Shown) {φ : Call → Prop}
    (hbuild : ∀ k, φ (.db (.getPackageData k))) (hfiles : ∀ k, φ (.db (.filesFor k))) :
    (checkShownBuilds site versions shown).run.Calls φ := by
  refine calls_bind (calls_forM fun v _ => ?_) fun _ => calls_forM fun v _ => ?_
  · unfold checkBuild
    split
    · exact calls_pure _
    · refine calls_bind (calls_query (hbuild _)) fun current => ?_
      cases current with
      | none => exact calls_throw _
      | some current => exact calls_refuseIf
  · unfold checkFiles
    split
    · exact calls_pure _
    · exact calls_bind (calls_query (hfiles _)) fun files => calls_refuseIf

theorem calls_orNotFound {φ : Call → Prop} {update : Op Bool} (h : update.run.Calls φ) :
    (orNotFound update).run.Calls φ :=
  calls_bind h fun _ => calls_refuseIf

theorem calls_approveLocked (v : VersionRef) (shown : Shown) :
    (approveLocked site feed v shown).run.Calls (Call.approves [v.key]) := by
  refine calls_bind (calls_checkShownBuilds site _ shown (fun _ => trivial) fun _ => trivial)
    fun _ => ?_
  exact calls_orNotFound (calls_query List.mem_cons_self)

theorem mem_approvalLocks {id : String} {versions : List String} :
    k ∈ approvalLocks id versions ↔ k ∈ versions.map (versionKey id) := by
  simp [approvalLocks]

theorem calls_approveManyLocked (id : String) (versions : List String) (shown : Shown) :
    (approveManyLocked site feed id versions shown).run.Calls
      (Call.approves (approvalLocks id versions).reverse) := by
  refine calls_bind (calls_checkShownBuilds site _ shown (fun _ => trivial) fun _ => trivial)
    fun _ => ?_
  refine calls_bind (calls_query ⟨rfl, fun k hk => ?_⟩) fun _ => calls_pure _
  exact List.mem_reverse.mpr ((mem_approvalLocks k).mpr hk)

theorem calls_transferLocked (target : FeedMeta) (mode : Transfer) :
    (transferLocked feed target k mode).run.Calls (Call.within [k]) := by
  refine calls_bind (calls_read trivial) fun package => ?_
  cases package with
  | none => exact calls_throw _
  | some package =>
    refine calls_bind calls_refuseIf fun _ => ?_
    refine calls_bind (calls_query fun _ hk => hk.elim) fun here => ?_
    cases here with
    | none => exact calls_throw _
    | some here =>
      refine calls_bind (calls_read trivial) fun stored => ?_
      refine calls_bind calls_refuseIf fun _ => ?_
      refine calls_bind ?_ fun arrival => calls_bind (calls_onlyIf ?_) fun _ => calls_pure _
      · refine calls_bind (calls_attempt (calls_query fun k' hk' => by simpa using hk'.symm))
          fun added => ?_
        split
        · exact calls_pure _
        · exact calls_pure _
        · exact calls_throw _
      · exact calls_bind (calls_query fun k' hk' => by simpa using hk'.symm) fun _ => calls_pure _

end Locked

section Operations

variable (site : Site)

/-- The call gives the memberships of one feed to another. -/
def Call.renames : Call → Prop
  | .db (.renameFeed _ _ _) => True
  | _ => False

/-- A call that operations on packages make: none renames a feed, takes in
symbols or answers a download. -/
def Call.operates : Call → Prop
  | .db (.renameFeed _ _ _) | .symbolsIndexed _ _ | .respond _ => False
  | _ => True

theorem Call.not_renames_of_operates {c : Call} (h : c.operates) : ¬ c.renames := by
  intro hc
  unfold Call.renames at hc
  split at hc
  · exact h.elim
  · exact hc.elim

theorem Call.operates_of_within {ks : List VersionKey} {c : Call} (h : c.within ks) :
    c.operates := by
  unfold Call.operates
  split
  · exact h.elim
  · exact h.elim
  · exact h.elim
  · trivial

theorem calls_of_within {α : Type} {k : VersionKey} {x : Op α} (h : x.run.Calls (Call.within [k])) :
    (withVersionLock k x).run.Calls Call.operates :=
  calls_withVersionLock trivial trivial (h.mono fun _ => Call.operates_of_within)

theorem calls_sections : Sections site (fun _ _ => True)
    (fun {α : Type} (x : Op α) => x.run.Calls Call.operates) where
  query _ h := calls_query (Call.operates_of_within (Call.within_of_unchanging
    (DbCall.not_changes_of_unlocked h) []))
  arrive _ _ := calls_call trivial
  purge feed k := calls_of_within (calls_purgeLocked feed k)
  planned feed k := calls_of_within (calls_purgePlannedLocked feed k)
  sweep k := calls_of_within (calls_sweepLocked k)
  index feed incoming options _ := calls_of_within
    ((calls_indexLocked site feed incoming options).mono fun _ => Call.within_of_indexes)
  approve feed v shown := calls_of_within
    ((calls_approveLocked site feed v shown).mono fun _ => Call.within_of_approves)
  approveMany feed id versions shown := calls_withVersionLocks (fun _ => trivial) (fun _ => trivial)
    ((calls_approveManyLocked site feed id versions shown).mono fun _ h =>
      Call.operates_of_within (Call.within_of_approves h))
  transfer source target k mode := calls_of_within
    (calls_transferLocked source k target mode)

theorem calls_operates (op : Operation) : (op.run site).run.Calls Call.operates :=
  (calls_sections site).run (closed_calls _) op fun _ _ _ => trivial

theorem calls_operation (op : Operation) : (op.run site).run.Calls fun c => ¬ c.renames :=
  (calls_operates site op).mono fun _ => Call.not_renames_of_operates

/-- A push that may only be of version `v` touches no other. -/
theorem calls_indexPackage {φ : Call → Prop} (feed : FeedName) (bytes : Content)
    (options : IndexOptions) (v : VersionRef) (hexpect : options.expect = some ⟨v.id, v.normalized⟩)
    (hlock : φ (.lockVersion v.key)) (hunlock : φ (.unlockVersion v.key))
    (hindex : ∀ c, c.indexes feed v.key → φ c) :
    (indexPackage site feed bytes options).run.Calls φ := by
  unfold indexPackage
  cases haccept : accept site bytes options with
  | error e =>
    rw [ofResult_error_bind]
    exact calls_ofResult _
  | ok incoming =>
    have hkey := accept_key site haccept hexpect
    change incoming.package.key = v.key at hkey
    rw [← hkey] at hlock hunlock hindex
    rw [ofResult_ok_bind]
    exact calls_withVersionLock hlock hunlock
      ((calls_indexLocked site feed incoming options).mono hindex)

end Operations

end YaNuget
