import YaNuget.Operations.Admin

/-!
# Attached files

Files are attached to a version, whichever feed the request came in on, and
their bytes are blobs shared by content across versions. Each row goes in and
out under the version's lock, and each blob under its own lock inside it. An
approval keeps a version's files as they are, unless it is set aside.
-/
namespace YaNuget

open Concurrency Op

/-- What of a feed's configuration decides whose approval holds files. -/
structure FeedSettings where
  name : FeedName
  requiresApproval : Bool
  allowOverwrite : OverwriteMode
  deriving DecidableEq, Repr

/-- Whether an approval in the feed is a review. -/
def FeedSettings.reviews (m : FeedSettings) : Bool :=
  m.requiresApproval || m.allowOverwrite = .pendingOnly

/-- Whose approvals keep a version's files as they are, and which of them a
request may set aside. -/
structure ApprovalGuard where
  /-- Every approval counts, not only those of the reviewing feeds. -/
  any : Bool
  /-- The configured feeds whose approval is a review. -/
  reviewing : List FeedName
  /-- The feeds whose admin key the request presents. -/
  adminOf : List FeedName
  /-- The feed the request came in on. -/
  feed : FeedName
  deriving DecidableEq, Repr

namespace ApprovalGuard

def forRequest (feeds : List FeedSettings) (own : FeedSettings) (presents : FeedName → Bool) :
    ApprovalGuard where
  any := own.allowOverwrite = .pendingOnly
  reviewing := ((feeds.filter fun m => m.name ≠ own.name && m.reviews).map FeedSettings.name) ++
    if own.reviews then [own.name] else []
  adminOf := ((feeds.filter fun m => m.name ≠ own.name && presents m.name).map FeedSettings.name) ++
    if presents own.name then [own.name] else []
  feed := own.name

def withoutCredentials (keepApproved : Bool) (reviewing : List FeedName) : ApprovalGuard where
  any := keepApproved
  reviewing := reviewing
  adminOf := []
  feed := ""

variable (guard : ApprovalGuard)

/-- Whether an approval in `f` holds the files. -/
def holds (f : FeedName) : Bool := guard.any || guard.reviewing.contains f

/-- Whether the request may set aside an approval in `f`. -/
def mayOverride (f : FeedName) : Bool :=
  guard.adminOf.contains f || (!guard.reviewing.contains f && guard.adminOf.contains guard.feed)

end ApprovalGuard

/-- Refuse to change the files of a version an approval holds, unless the
request sets each such approval aside. -/
def checkNotApproved (v : VersionRef) (guard : ApprovalGuard) : Op (List FeedName) := do
  let approved := (← query (.approvedIn v.key)).filter guard.holds
  let missing := approved.filter fun f => !guard.mayOverride f
  refuseIf (!approved.isEmpty && !missing.isEmpty) (.forbidden (v.id ++ " " ++ v.normalized ++
    " is approved in " ++ ", ".intercalate approved ++ ", and an approved version keeps its " ++
    "files as they were approved; changing them takes the admin key of " ++
    ", ".intercalate missing))
  pure approved

/-- An uploaded file, complete and hashed. -/
structure Finished where
  bytes : Content
  sha256 : Digest
  size : ℕ
  deriving DecidableEq, Repr

/-- How an attach went. -/
inductive Attached where
  | new (file : PackageFile)
  | same (file : PackageFile)
  deriving DecidableEq, Repr

/-- Count the rows that reference a blob, and delete it when there are none.
The caller holds its lock. -/
def collectBlob (sha : Digest) : Op Unit := do
  match ← Fallible.attempt (query (.blobReferences sha)) with
  | .ok 0 => Fallible.ignore (file (.deleteBlob sha))
  | _ => pure ()

/-- Store the blob and write the row that references it. The caller holds the
locks of both. -/
def attachRow (k : VersionKey) (name : String) (upload : Finished) : Op Attached := do
  file (.storeBlob upload.sha256 upload.bytes)
  let row : PackageFile := ⟨name, upload.sha256, upload.size⟩
  match ← Fallible.attempt (query (.addFile k row)) with
  | .ok () => pure (.new row)
  | .error e => do
    let references ← unwrapOr (query (.blobReferences upload.sha256)) 1
    onlyIf (references = 0) (Fallible.ignore (file (.deleteBlob upload.sha256)))
    throw (match e with
      | .packageAlreadyExists => .conflict (name ++ " was attached by another upload just now")
      | e => e)

def versionHere (feed : FeedName) (k : VersionKey) : Op Bool := do
  if ← query (.existsIn feed k) then query (.packageDataExists k) else pure false

/-- The body of an attach; the caller holds the version's lock. -/
def attachLocked (feed : FeedName) (guard : ApprovalGuard) (v : VersionRef) (name : String)
    (upload : Finished) : Op Attached := do
  let here ← versionHere feed v.key
  refuseIf (!here) .packageNotFound
  match ← query (.getFile v.key name) with
  | some existing =>
    if existing.sha256 = upload.sha256 then pure (.same existing)
    else throw (.conflict (v.id ++ " " ++ v.normalized ++ " already has a different file named " ++
      name ++ "; delete it first"))
  | none => do
    let _ ← checkNotApproved v guard
    withBlobLock upload.sha256 (attachRow v.key name upload)

def attachGuarded (feed : FeedName) (guard : ApprovalGuard) (v : VersionRef) (name : String)
    (upload : Finished) : Op Attached :=
  withVersionLock v.key (attachLocked feed guard v name upload)

def deleteFile (k : VersionKey) (name : String) : Op (Option PackageFile) := do
  match ← query (.getFile k name) with
  | none => pure none
  | some row => do
    query (.deleteFile k name)
    pure (some row)

/-- The body of a detach; the caller holds the version's lock. -/
def detachLocked (feed : FeedName) (guard : ApprovalGuard) (v : VersionRef) (name : String) :
    Op Unit := do
  let here ← query (.existsIn feed v.key)
  refuseIf (!here) .packageNotFound
  let _ ← checkNotApproved v guard
  match ← deleteFile v.key name with
  | none => throw .packageNotFound
  | some row => withBlobLock row.sha256 (collectBlob row.sha256)

def detach (feed : FeedName) (guard : ApprovalGuard) (v : VersionRef) (name : String) : Op Unit :=
  withVersionLock v.key (detachLocked feed guard v name)

def sweepUnreferencedBlobs (blobs : List Digest) : Op Unit :=
  blobs.forM fun sha => withBlobLock sha (collectBlob sha)

end YaNuget
