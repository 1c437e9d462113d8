import YaNuget.Operations.Indexing

/-!
# Deleting and the admin page

What an admin does to the versions of a feed: flags, approvals, deletes, and
copies or moves into another feed. Flag changes are single statements; an
approval, a delete and a transfer take the version's lock.
-/
namespace YaNuget

open Concurrency Op Policy

/-- A version named in a request, by id and normalized version. -/
structure VersionRef where
  id : String
  normalized : String
  deriving DecidableEq, Repr

def VersionRef.key (v : VersionRef) : VersionKey := versionKey v.id v.normalized

/-- The statement of a flag change, with the error when no such version is in
the feed. -/
def orNotFound (update : Op Bool) : Op Unit := do
  let found ← update
  refuseIf (!found) .packageNotFound

def adminSetEnabled (feed : FeedName) (k : VersionKey) (enabled : Bool) : Op Unit :=
  orNotFound (query (.setEnabled feed k enabled))

def adminSetPinned (feed : FeedName) (k : VersionKey) (pinned : Bool) : Op Unit :=
  orNotFound (query (.setPinned feed k pinned))

def relistPackage (feed : FeedName) (k : VersionKey) : Op Unit :=
  orNotFound (query (.setListed feed k true))

/-- The API's delete, which unlists unless the feed deletes for good. -/
def deletePackage (feed : FeedName) (k : VersionKey) (hardDeleteEnabled : Bool) : Op Unit :=
  if hardDeleteEnabled then orNotFound (purgeVersion feed k)
  else orNotFound (query (.setListed feed k false))

def adminDelete (feed : FeedName) (k : VersionKey) : Op Unit := orNotFound (purgeVersion feed k)

/-- The builds and attached files the admin page showed, by version. -/
structure Shown where
  builds : List (String × Digest)
  files : List (String × Digest)
  deriving DecidableEq, Repr

def shownFor (fields : List (String × Digest)) (normalized : String) : Option Digest :=
  (fields.find? fun field => eqIgnoreAsciiCase field.1 normalized).map Prod.snd

/-- Refuse to approve a version whose build is not the one the page showed. -/
def checkBuild (v : VersionRef) (shown : Shown) : Op Unit :=
  match shownFor shown.builds v.normalized with
  | none => pure ()
  | some hash => do
    match ← query (.getPackageData v.key) with
    | none => throw .packageNotFound
    | some current =>
      refuseIf (current.1.packageHash ≠ hash)
        (.conflict (v.id ++ " " ++ v.normalized ++ " was replaced by a new build after " ++
          "this page was loaded; reload the page and review the new build before approving it"))

/-- Nor one whose attached files are not those it showed. -/
def checkFiles (site : Site) (v : VersionRef) (shown : Shown) : Op Unit :=
  match shownFor shown.files v.normalized with
  | none => pure ()
  | some digest => do
    let files ← query (.filesFor v.key)
    refuseIf (site.filesFingerprint files ≠ digest)
      (.conflict ("the files attached to " ++ v.id ++ " " ++ v.normalized ++ " changed " ++
        "after this page was loaded; reload the page and review them before approving it"))

def checkShownBuilds (site : Site) (versions : List VersionRef) (shown : Shown) : Op Unit := do
  versions.forM fun v => checkBuild v shown
  versions.forM fun v => checkFiles site v shown

/-- The body of an approval; the caller holds the version's lock. -/
def approveLocked (site : Site) (feed : FeedName) (v : VersionRef) (shown : Shown) : Op Unit := do
  checkShownBuilds site [v] shown
  orNotFound (query (.approveMembership feed v.key))

def adminApprove (site : Site) (feed : FeedName) (v : VersionRef) (shown : Shown) : Op Unit :=
  withVersionLock v.key (approveLocked site feed v shown)

/-- The feed a version is copied or moved into. -/
structure FeedMeta where
  name : FeedName
  licensePolicy : LicensePolicyConfig
  requiresApproval : Bool
  deriving DecidableEq, Repr

inductive Transfer where
  | copy
  | move
  deriving DecidableEq, Repr

inductive Arrival where
  | added
  | pending
  | alreadyThere
  deriving DecidableEq, Repr

/-- The membership a version arrives with in the target. -/
def transferredMembership (target : FeedMeta) (mode : Transfer) (outcome : PolicyOutcome)
    (here : Membership) : Membership where
  listed := here.listed
  listingSet := here.listingSet
  enabled := here.enabled
  pending := target.requiresApproval || here.pending
  flagged := outcome.violation.isSome
  flagReason := outcome.violation
  pinned := mode = .move && here.pinned

def addToTarget (target : FeedName) (k : VersionKey) (m : Membership) : Op Arrival := do
  match ← Fallible.attempt (query (.addMembership target k m)) with
  | .ok () => pure (if m.pending then .pending else .added)
  | .error .packageAlreadyExists => pure .alreadyThere
  | .error e => throw e

def transferLocked (source : FeedName) (target : FeedMeta) (k : VersionKey) (mode : Transfer) :
    Op Arrival := do
  match ← query (.getPackageData k) with
  | none => throw .packageNotFound
  | some package => do
    let outcome := evaluateLicense target.licensePolicy package.1
    refuseIf (!outcome.allowed) (.policyViolation (target.name ++ " rejects this package: " ++
      outcome.violation.getD "license policy"))
    match ← query (.getMembership source k) with
    | none => throw .packageNotFound
    | some here => do
      let stored ← query (.packageDataExists k)
      refuseIf (!stored) .packageNotFound
      let arrival ← addToTarget target.name k (transferredMembership target mode outcome here)
      onlyIf (mode = .move) do
        let _ ← query (.removeMembershipForGood source k)
      pure arrival

def transferVersion (source : FeedName) (target : FeedMeta) (k : VersionKey) (mode : Transfer) :
    Op Arrival := do
  call (.arrive target.name k)
  let here ← query (.existsIn source k)
  refuseIf (!here) .packageNotFound
  withVersionLock k (transferLocked source target k mode)

inductive BulkOp where
  | enable
  | disable
  | approve
  | pin
  | unpin
  | delete
  | transfer (mode : Transfer) (target : FeedMeta)
  deriving DecidableEq, Repr

def approvalLocks (id : String) (versions : List String) : List VersionKey :=
  (versions.toFinset.sort (· ≤ ·)).map (versionKey id)

def checkHeld (feed : FeedName) (ks : List VersionKey) : Op Unit :=
  ks.forM fun k => do
    let here ← query (.existsIn feed k)
    refuseIf (!here) .packageNotFound

/-- Refuse the lot up front if the target's policy refuses any of it. -/
def checkTarget (target : FeedMeta) (ks : List VersionKey) : Op Unit :=
  ks.forM fun k => do
    match ← query (.getPackageData k) with
    | none => throw .packageNotFound
    | some package =>
      let outcome := evaluateLicense target.licensePolicy package.1
      refuseIf (!outcome.allowed) (.policyViolation (target.name ++ " rejects " ++ package.1.id ++
        " " ++ k.normalized ++ ": " ++ outcome.violation.getD "license policy"))

def changeMany (feed : FeedName) (ks : List VersionKey) (change : MembershipChange) : Op Unit := do
  let _ ← query (.updateMemberships feed ks change)

/-- The body of a bulk approval; the caller holds the versions' locks. -/
def approveManyLocked (site : Site) (feed : FeedName) (id : String) (versions : List String)
    (shown : Shown) : Op Unit := do
  checkShownBuilds site (versions.map (⟨id, ·⟩)) shown
  changeMany feed (versions.map (versionKey id)) .approve

/-- Apply one action to every version ticked on the admin page. -/
def adminBulk (site : Site) (feed : FeedName) (id : String) (versions : List String)
    (shown : Shown) (op : BulkOp) : Op Unit := do
  let ks := versions.map (versionKey id)
  if versions.isEmpty then pure ()
  else do
    checkHeld feed ks
    match op with
    | .enable => changeMany feed ks (.enabled true)
    | .disable => changeMany feed ks (.enabled false)
    | .pin => changeMany feed ks (.pinned true)
    | .unpin => changeMany feed ks (.pinned false)
    | .approve =>
      withVersionLocks (approvalLocks id versions) (approveManyLocked site feed id versions shown)
    | .delete => ks.forM fun k => do
      let _ ← purgeVersion feed k
    | .transfer mode target => do
      checkTarget target ks
      ks.forM fun k => do
        let _ ← transferVersion feed target k mode

end YaNuget
