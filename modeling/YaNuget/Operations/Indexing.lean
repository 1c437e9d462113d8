import YaNuget.Operations.Retention

/-!
# Indexing a package

A push stores the payload and its sidecars once for all feeds and records the
feed's membership. Which of three ways it takes depends on what the server
already holds: nothing, the version in other feeds, or the version in this one.
-/
namespace YaNuget

open Concurrency Op Policy

/-- What is read from a `.nupkg`: the manifest and the extracted sidecars. -/
structure Archive where
  id : String
  version : NuGetVersion
  normalized : String
  licenseExpression : Option String
  licenseUrl : Option String
  nuspec : Content
  readme : Except Error (Option Content)
  icon : Except Error (Option Content)

def versionKey (id normalized : String) : VersionKey := ⟨toAsciiLowercase id, normalized⟩

def Archive.key (a : Archive) : VersionKey := versionKey a.id a.normalized

/-- What the operations use that is not part of the store: the SHA-512 of a
payload, the archive and manifest readers, the fingerprint of a version's
files, and the date. -/
structure Site where
  sha512 : Content → Digest
  readArchive : Content → Except Error Archive
  filesFingerprint : List PackageFile → Digest
  today : String

/-- An id prefix, and the feed it is reserved for. -/
structure ReservedPrefix where
  pfx : String
  feed : FeedName
  deriving DecidableEq, Repr

/-- Whether `id` falls under a prefix, ignoring ASCII case. One that ends in a
dot also covers the bare id before it. -/
def idHasPrefix (id pfx : String) : Bool :=
  let id := (toAsciiLowercase id).toList
  let pfx := (toAsciiLowercase pfx).toList
  pfx.isPrefixOf id || (pfx.getLast? == some '.' && id == pfx.dropLast)

def ReservedPrefix.covers (r : ReservedPrefix) (id : String) : Bool := idHasPrefix id r.pfx

/-- The id and version a caller requires the manifest to declare. -/
structure ExpectedIdentity where
  id : String
  normalized : String
  deriving DecidableEq, Repr

structure IndexOptions where
  overwrite : OverwriteMode
  pending : Bool
  licensePolicy : LicensePolicyConfig
  expect : Option ExpectedIdentity
  reservedElsewhere : List ReservedPrefix
  otherLicensePolicies : List (FeedName × LicensePolicyConfig)
  unlisted : Bool
  /-- The time at which the push reads the clock. -/
  now : ℕ
  deriving DecidableEq, Repr

/-- The outcome of a successful push. -/
structure IndexResult where
  key : VersionKey
  pending : Bool
  flagReason : Option String
  deriving DecidableEq, Repr

/-- The small files stored next to a payload. -/
structure Sidecars where
  nuspec : Content
  readme : Option Content
  icon : Option Content
  deriving DecidableEq, Repr

/-- A package accepted for a feed: its bytes with what they were read as. -/
structure Incoming (sha512 : Content → Digest) where
  bytes : Content
  package : Package
  sidecars : Sidecars
  violation : Option String
  hash_eq : package.packageHash = sha512 bytes

section Checks

variable (site : Site)

def buildPackage (a : Archive) (bytes : Content) (readme icon : Option Content) (now : ℕ) :
    Package where
  key := a.key
  id := a.id
  version := a.version
  licenseExpression := a.licenseExpression
  licenseUrl := a.licenseUrl
  hasReadme := readme.isSome
  hasEmbeddedIcon := icon.isSome
  packageSize := bytes.length
  packageHash := site.sha512 bytes
  published := now

/-- The checks before anything is stored: the id's owner, the identity asked
for, and the feed's license policy. -/
def accept (bytes : Content) (options : IndexOptions) : Except Error (Incoming site.sha512) := do
  let a ← site.readArchive bytes
  match options.reservedElsewhere.find? fun r => r.covers a.id with
  | some r =>
    throw (.forbidden ("package id " ++ a.id ++ " is under the prefix " ++ quoted r.pfx ++
      ", reserved for feed " ++ quoted r.feed))
  | none => pure ()
  match options.expect with
  | some want =>
    if !eqIgnoreAsciiCase want.id a.id || want.normalized ≠ a.normalized then
      throw (.invalidPackage ("manifest declares " ++ a.id ++ "/" ++ a.normalized ++ " but " ++
        want.id ++ "/" ++ want.normalized ++ " was requested"))
  | none => pure ()
  let readme ← a.readme
  let icon ← a.icon
  let package := buildPackage site a bytes readme icon options.now
  let outcome := evaluateLicense options.licensePolicy package
  if !outcome.allowed then
    throw (.policyViolation (outcome.violation.getD "license policy"))
  pure ⟨bytes, package, ⟨a.nuspec, readme, icon⟩, outcome.violation, rfl⟩

/-- What is accepted was read from the bytes, and the policy allows it. -/
theorem accept_spec {bytes : Content} {options : IndexOptions} {incoming : Incoming site.sha512}
    (h : accept site bytes options = .ok incoming) :
    ∃ a readme icon, site.readArchive bytes = .ok a ∧ a.readme = .ok readme ∧
      a.icon = .ok icon ∧ incoming.package = buildPackage site a bytes readme icon options.now ∧
      (evaluateLicense options.licensePolicy incoming.package).allowed = true ∧
      incoming.violation = (evaluateLicense options.licensePolicy incoming.package).violation ∧
      ∀ want, options.expect = some want →
        eqIgnoreAsciiCase want.id a.id = true ∧ want.normalized = a.normalized := by
  unfold accept at h
  simp only [bind, Except.bind, pure, Except.pure, throw, throwThe, MonadExceptOf.throw] at h
  cases ha : site.readArchive bytes with
  | error e => simp [ha] at h
  | ok a =>
  cases howner : options.reservedElsewhere.find? fun r => r.covers a.id with
  | some r => simp [ha, howner] at h
  | none =>
  have hidentity : ∀ want, options.expect = some want →
      eqIgnoreAsciiCase want.id a.id = true ∧ want.normalized = a.normalized := by
    intro want hwant
    by_contra hne
    rw [not_and_or, Bool.not_eq_true] at hne
    simp [ha, howner, hwant, hne] at h
  have hpassed : ∀ want, options.expect = some want →
      ¬ (eqIgnoreAsciiCase want.id a.id = false ∨ ¬ want.normalized = a.normalized) := by
    intro want hwant hbad
    obtain ⟨hid, hnormalized⟩ := hidentity want hwant
    simp [hid, hnormalized] at hbad
  cases hreadme : a.readme with
  | error e => cases hwant : options.expect <;> simp [ha, howner, hwant, hreadme, hpassed] at h
  | ok readme =>
  cases hicon : a.icon with
  | error e => cases hwant : options.expect <;> simp [ha, howner, hwant, hreadme, hicon, hpassed] at h
  | ok icon =>
  by_cases hallowed : (evaluateLicense options.licensePolicy
      (buildPackage site a bytes readme icon options.now)).allowed = true
  · obtain rfl : _ = incoming := by
      cases hwant : options.expect with
      | none => simpa [ha, howner, hwant, hreadme, hicon, hallowed] using h
      | some want => simpa [ha, howner, hwant, hreadme, hicon, hallowed, hpassed want hwant] using h
    exact ⟨a, readme, icon, rfl, hreadme, hicon, rfl, hallowed, rfl, hidentity⟩
  · cases hwant : options.expect <;> simp [ha, howner, hwant, hreadme, hicon, hallowed, hpassed] at h

theorem accept_unreserved {bytes : Content} {options : IndexOptions}
    {incoming : Incoming site.sha512} (h : accept site bytes options = .ok incoming) :
    ∀ r ∈ options.reservedElsewhere, r.covers incoming.package.id = false := by
  obtain ⟨a, readme, icon, ha, -, -, hpackage, -⟩ := accept_spec site h
  have hid : incoming.package.id = a.id := by rw [hpackage, buildPackage]
  rw [hid]
  intro r hr
  by_contra hcovers
  have hsome : (options.reservedElsewhere.find? fun r => r.covers a.id).isSome :=
    List.find?_isSome.mpr ⟨r, hr, by simpa using hcovers⟩
  obtain ⟨owner, howner⟩ := Option.isSome_iff_exists.mp hsome
  simp [accept, ha, howner, bind, Except.bind, throw, throwThe, MonadExceptOf.throw] at h

theorem accept_key {bytes : Content} {options : IndexOptions}
    {incoming : Incoming site.sha512} {want : ExpectedIdentity}
    (h : accept site bytes options = .ok incoming) (hexpect : options.expect = some want) :
    incoming.package.key = versionKey want.id want.normalized := by
  obtain ⟨a, readme, icon, -, -, -, hpackage, -, -, hidentity⟩ := accept_spec site h
  obtain ⟨hid, hnormalized⟩ := hidentity want hexpect
  have hlower : toAsciiLowercase want.id = toAsciiLowercase a.id := by
    simpa [eqIgnoreAsciiCase] using hid
  rw [hpackage]
  simp [buildPackage, Archive.key, versionKey, hlower, hnormalized]

def newVersionAdvice (version : NuGetVersion) : String :=
  let (major, minor, patch, revision) := version.core
  if !version.isPrerelease && revision == 0 then
    "Push it as a new version, such as " ++ toString major ++ "." ++ toString minor ++ "." ++
      toString patch ++ "." ++ site.today ++ "."
  else "Push it as a new version."

def taken (p : Package) : Error :=
  .conflict (p.id ++ " " ++ p.key.normalized ++ " is already stored with different content; " ++
    "an id and version name one package across every feed. " ++ newVersionAdvice site p.version)

/-- Why a push of a version the feed already holds is refused. -/
def alreadyHere (p : Package) (state : Membership) (overwrite : OverwriteMode) : String :=
  let condition :=
    if state.pending then " (waiting for approval)"
    else if !state.enabled then " (disabled by an admin)"
    else if !state.listed then
      " (unlisted - which is all a delete does while hard_delete_enabled is off - " ++
        "and still downloadable)"
    else ""
  let rule := match overwrite with
    | .prereleaseOnly =>
      "only pre-release versions may be overwritten (allow_overwrite = \"prerelease-only\")"
    | _ => "overwriting is off (allow_overwrite = false)"
  p.id ++ " " ++ p.key.normalized ++ " already exists in this feed" ++ condition ++ ", and " ++
    rule ++ ". " ++ newVersionAdvice site p.version ++ " Or delete it for good first."

end Checks

def storeSidecars (k : VersionKey) (s : Sidecars) : Op Unit := do
  file (.storeAux k .nuspec s.nuspec)
  s.readme.forM fun bytes => file (.storeAux k .readme bytes)
  s.icon.forM fun bytes => file (.storeAux k .icon bytes)

/-- Move the payload into storage and write its sidecars. -/
def storePayload (k : VersionKey) (bytes : Content) (s : Sidecars) : Op Unit := do
  file (.storePackage k (.incoming bytes))
  storeSidecars k s

def deleteUnreferencedBlobs (files : List PackageFile) : Op Unit :=
  (distinctBlobs files).forM fun sha => withBlobLock sha do
    match ← Fallible.attempt (query (.blobReferences sha)) with
    | .ok 0 => Fallible.ignore (file (.deleteBlob sha))
    | _ => pure ()

/-- How an overwrite swaps the rows: whatever state the version is in, or only
while no feed has approved it, with the other feeds' verdicts. -/
inductive Swap where
  | any
  | pendingOnly (dropFiles : Bool) (others : List (FeedName × PolicyOutcome))

/-- Swap the rows, returning the attached files dropped with them. -/
def Swap.replace (swap : Swap) (p : Package) (feed : FeedName) (m : Membership) :
    Op (List PackageFile) :=
  match swap with
  | .any => do
    query (.replaceVersion p feed m)
    pure []
  | .pendingOnly dropFiles others => query (.replacePendingVersion p feed m dropFiles others)

def keepAside (k : VersionKey) : Op (Option TempFile) := do
  match ← ok (file (.getPackage k)) with
  | none => pure none
  | some () =>
    match ← Fallible.attempt (file (.hardLink k)) with
    | .ok bytes => pure (some (.previous bytes))
    | .error _ => pure none

/-- Put the previous build back after a failed overwrite. -/
def putBack (k : VersionKey) (backup : Option TempFile) (oldNuspec oldReadme oldIcon : Option Content) :
    Op Unit := do
  backup.forM fun backup => Fallible.ignore (file (.storePackage k backup))
  oldNuspec.forM fun nuspec => Fallible.ignore (storeSidecars k ⟨nuspec, oldReadme, oldIcon⟩)

def readSidecar (k : VersionKey) (kind : AuxFile) (present : Bool) : Op (Option Content) :=
  if present then ok (file (.getAux k kind)) else pure none

/-- Replace a stored build with a new one. The payload is stored first and the
rows are swapped after it; the previous build is put back when that fails. -/
def overwrite (feed : FeedName) (bytes : Content) (package existing : Package) (m : Membership)
    (sidecars : Sidecars) (swap : Swap) : Op (List PackageFile) := do
  let k := package.key
  let backup ← keepAside k
  let oldNuspec ← readSidecar k .nuspec true
  let oldReadme ← readSidecar k .readme existing.hasReadme
  let oldIcon ← readSidecar k .icon existing.hasEmbeddedIcon
  file (.storePackage k (.incoming bytes))
  let swapped ← Fallible.attempt do
    storeSidecars k sidecars
    swap.replace package feed m
  match swapped with
  | .ok dropped => pure dropped
  | .error e => do
    putBack k backup oldNuspec oldReadme oldIcon
    throw e

section Index

variable (site : Site) (feed : FeedName) (incoming : Incoming site.sha512) (options : IndexOptions)

def newMembership : Membership :=
  { Membership.active with
    listed := !options.unlisted
    pending := options.pending
    flagged := incoming.violation.isSome
    flagReason := incoming.violation }

def newResult : IndexResult := ⟨incoming.package.key, options.pending, incoming.violation⟩

def indexNew : Op IndexResult := do
  let p := incoming.package
  storePayload p.key incoming.bytes incoming.sidecars
  let added ← Fallible.attempt (query (.addVersion p feed (newMembership site incoming options)))
  match added with
  | .ok _ => pure (newResult site incoming options)
  | .error e => do
    let holders ← unwrapOr (query (.feedCount p.key)) 0
    onlyIf (holders = 0) do
      Fallible.ignore (query (.deletePackageData p.key))
      Fallible.ignore (file (.delete p.key))
    throw e

/-- Another feed holds the version: only the same content may join it. -/
def indexJoin (existing : PackageAt incoming.package.key) (payloadPresent : Bool) :
    Op IndexResult := do
  let p := incoming.package
  refuseIf (existing.1.packageHash ≠ p.packageHash) (taken site p)
  onlyIf (!payloadPresent) (storePayload p.key incoming.bytes incoming.sidecars)
  let _ ← query (.addVersion existing.1 feed (newMembership site incoming options))
  pure (newResult site incoming options)

/-- The membership after an overwrite: the operator's decisions are kept. -/
def replacedMembership (sameContent : Bool) (previous : Membership) : Membership where
  listed := previous.listed
  listingSet := previous.listingSet
  enabled := previous.enabled
  pending := previous.pending || (options.pending && !sameContent)
  flagged := incoming.violation.isSome
  flagReason := incoming.violation
  pinned := previous.pinned

/-- Whether the overwrite policy admits replacing the version. -/
def checkOverwrite (existing : Package) (previous : Membership) : Op Unit := do
  let p := incoming.package
  if options.overwrite = .pendingOnly then
    let approved ← query (.approvedIn p.key)
    refuseIf (!approved.isEmpty) (.versionExists (Database.approvedRefusal existing approved))
  else
    refuseIf (!options.overwrite.allows p.version.isPrerelease)
      (.versionExists (alreadyHere site p previous options.overwrite))

def otherVerdicts (sameContent : Bool) : List (FeedName × PolicyOutcome) :=
  if sameContent then []
  else (options.otherLicensePolicies.filter fun o => o.1 ≠ feed).map fun o =>
    (o.1, evaluateLicense o.2 incoming.package)

def chooseSwap (sameContent : Bool) : Swap :=
  if options.overwrite = .pendingOnly then
    .pendingOnly (!sameContent) (otherVerdicts site feed incoming options sameContent)
  else .any

/-- A version another feed holds too is not replaced by different bytes, unless
every feed that holds it still waits for approval. -/
def checkUnshared (sameContent : Bool) : Op Unit := do
  onlyIf (!sameContent && options.overwrite ≠ .pendingOnly) do
    let holders ← query (.feedCount incoming.package.key)
    refuseIf (1 < holders) (taken site incoming.package)

/-- The version is already in this feed. -/
def indexOverwrite (existing : PackageAt incoming.package.key) (previous : Membership)
    (payloadPresent : Bool) : Op IndexResult := do
  let p := incoming.package
  let sameContent := existing.1.packageHash = p.packageHash
  checkOverwrite site incoming options existing previous
  checkUnshared site incoming options sameContent
  let m := replacedMembership site incoming options sameContent previous
  let result := { newResult site incoming options with pending := m.pending }
  let swap := chooseSwap site feed incoming options sameContent
  if sameContent && payloadPresent then do
    let _ ← swap.replace existing.1 feed m
    pure result
  else do
    let dropped ← overwrite feed incoming.bytes p existing.1 m incoming.sidecars swap
    onlyIf (!dropped.isEmpty) (deleteUnreferencedBlobs dropped)
    onlyIf (!sameContent) (purgeSymbols p.key)
    pure result

/-- Global data that no feed holds is finished off, not adopted. -/
def dropRemains (k : VersionKey) (existing : Option (PackageAt k)) : Op (Option (PackageAt k)) :=
  match existing with
  | none => pure none
  | some existing => do
    let holders ← query (.feedCount k)
    if holders = 0 then do
      purgeGlobalData k
      pure none
    else pure (some existing)

/-- A membership without data cannot serve anything. -/
def dropStray (k : VersionKey) (existing : Option (PackageAt k)) (previous : Option Membership) :
    Op (Option Membership) :=
  if existing.isNone && previous.isSome then do
    let _ ← query (.removeMembership feed k)
    pure none
  else pure previous

/-- The part of a push under the version's lock. -/
def indexLocked : Op IndexResult := do
  let k := incoming.package.key
  let existing ← query (.getPackageData k)
  let previous ← query (.getMembership feed k)
  let existing ← dropRemains k existing
  let previous ← dropStray feed k existing previous
  match existing with
  | none => indexNew site feed incoming options
  | some existing => do
    let payloadPresent ← call (.packageExists k)
    match previous with
    | none => indexJoin site feed incoming options existing payloadPresent
    | some previous => indexOverwrite site feed incoming options existing previous payloadPresent

end Index

def indexPackage (site : Site) (feed : FeedName) (bytes : Content) (options : IndexOptions) :
    Op IndexResult := do
  let incoming ← ofResult (accept site bytes options)
  withVersionLock incoming.package.key (indexLocked site feed incoming options)

/-- A push through the API. Pushing a deleted version back is how it is
un-deleted for the mirror; older versions are pruned as planned afterwards. -/
def pushPackage (site : Site) (feed : FeedName) (bytes : Content) (options : IndexOptions)
    (planned : List VersionKey) : Op Unit := do
  (site.readArchive bytes).toOption.forM fun a => call (.arrive feed a.key)
  let result ← indexPackage site feed bytes options
  Fallible.ignore (query (.clearTombstone feed result.key))
  applyPlan feed planned

end YaNuget
