import YaNuget.Operations.Admin

/-!
# The mirror and migrations

Both copy versions of an upstream into a feed, and neither may bring back what
was deleted there on purpose. Each looks for the version's tombstone before it
indexes a download. What the upstream answers is a parameter.
-/
namespace YaNuget

open Concurrency Op Policy

/-- The settings of the feed that index a copied version. -/
structure CopyOptions where
  requiresApproval : Bool
  licensePolicy : LicensePolicyConfig
  reservedElsewhere : List ReservedPrefix
  now : ℕ
  deriving DecidableEq, Repr

/-- Index options of a copy: the manifest has to declare what was asked for. -/
def CopyOptions.index (o : CopyOptions) (overwrite : OverwriteMode) (v : VersionRef)
    (unlisted : Bool) : IndexOptions where
  overwrite := overwrite
  pending := o.requiresApproval
  licensePolicy := o.licensePolicy
  expect := some ⟨v.id, v.normalized⟩
  reservedElsewhere := o.reservedElsewhere
  otherLicensePolicies := []
  unlisted := unlisted
  now := o.now

/-- Whether a mirror should fetch the version: the feed lacks it, it was not
deleted from the feed, and it did not just fail. A database error counts as no. -/
def wanted (feed : FeedName) (k : VersionKey) (failedLately : Bool) : Op Bool := do
  let here ← unwrapOr (query (.existsIn feed k)) true
  if here then pure false
  else do
    let deleted ← unwrapOr (query (.isTombstoned feed k)) true
    if deleted then pure false else pure !failedLately

inductive Fetched where
  | mirrored
  | notMirrored
  | downloadFailed (e : Error)
  deriving DecidableEq, Repr

def fetchOne (site : Site) (feed : FeedName) (v : VersionRef) (options : CopyOptions)
    (unlisted : Bool) (download : Except Error Content) : Op Fetched := do
  match download with
  | .error e => pure (.downloadFailed e)
  | .ok bytes => do
    -- A delete may have landed while the download ran.
    let deleted ← unwrapOr (query (.isTombstoned feed v.key)) true
    if deleted then pure .notMirrored
    else do
      let indexed ← Fallible.attempt
        (indexPackage site feed bytes (options.index .disabled v unlisted))
      match indexed with
      | .ok _ => pure .mirrored
      | .error _ => pure .notMirrored

def mirrorVersion (site : Site) (feed : FeedName) (v : VersionRef) (options : CopyOptions)
    (unlisted failedLately : Bool) (download : Except Error Content) : Op Fetched := do
  let fetch ← wanted feed v.key failedLately
  if fetch then fetchOne site feed v options unlisted download else pure .notMirrored

/-- Whether a migration copies a version of the source. -/
def listItem (feed : FeedName) (k : VersionKey) (skipExisting : Bool) : Op Bool := do
  let deleted ← unwrapOr (query (.isTombstoned feed k)) false
  let present ← (if skipExisting then unwrapOr (query (.existsIn feed k)) false else pure false)
  pure !(deleted || present)

/-- Download and index one version, unlisting it if the source has. -/
def migrateOne (site : Site) (feed : FeedName) (v : VersionRef) (options : CopyOptions)
    (overwrite : Bool) (unlisted : Bool) (download : Except Error Content) : Op Unit := do
  match download with
  | .error _ => pure ()
  | .ok bytes => do
    let mode := if overwrite then OverwriteMode.enabled else .disabled
    let indexed ← Fallible.attempt (indexPackage site feed bytes (options.index mode v false))
    match indexed with
    | .ok _ => onlyIf unlisted (Fallible.ignore (query (.setListed feed v.key false)))
    | .error _ => pure ()

/-- One version of a migration run: listed first, and copied later. -/
def migrateVersion (site : Site) (feed : FeedName) (v : VersionRef) (options : CopyOptions)
    (overwrite unlisted : Bool) (download : Except Error Content) : Op Unit := do
  let copy ← listItem feed v.key !overwrite
  onlyIf copy (migrateOne site feed v options overwrite unlisted download)

end YaNuget
