import YaNuget.Store.Calls

/-!
# Retention and purging

Operations are programs over the calls of the store that may end in an error.
A guard is dropped on every way out of its scope, so the lock it stands for is
released whether the body succeeds or fails. What a run only logs or reports
(sizes, counts) is left out.
-/
namespace YaNuget

open Concurrency

/-- An operation of the server. -/
abbrev Op (α : Type) := Fallible Call Call.Answer Error α

namespace Op

variable {α : Type}

def call (c : Call) : Op c.Answer := Fallible.lift (.perform c)

def query (q : DbCall) : Op q.Answer := ExceptT.mk (.perform (Call.db q))

def file (c : StorageCall) : Op c.Answer := ExceptT.mk (.perform (Call.storage c))

def ofResult (x : Except Error α) : Op α := ExceptT.mk (pure x)

@[simp] theorem ofResult_ok_bind {β : Type} (a : α) (f : α → Op β) :
    ofResult (.ok a) >>= f = f a := rfl

@[simp] theorem ofResult_error_bind {β : Type} (e : Error) (f : α → Op β) :
    ofResult (.error e) >>= f = ofResult (.error e) := rfl

def onlyIf (p : Prop) [Decidable p] (x : Op Unit) : Op Unit := if p then x else pure ()

def refuseIf (p : Prop) [Decidable p] (e : Error) : Op Unit := onlyIf p (throw e)

def ok (x : Op α) : Op (Option α) := do
  match ← Fallible.attempt x with
  | .ok a => pure (some a)
  | .error _ => pure none

def unwrapOr (x : Op α) (default : α) : Op α := do
  match ← Fallible.attempt x with
  | .ok a => pure a
  | .error _ => pure default

def withVersionLock (k : VersionKey) (body : Op α) : Op α := do
  call (.lockVersion k)
  let result ← Fallible.attempt body
  call (.unlockVersion k)
  ofResult result

def withBlobLock (sha : Digest) (body : Op α) : Op α := do
  call (.lockBlob sha)
  let result ← Fallible.attempt body
  call (.unlockBlob sha)
  ofResult result

def withVersionLocks (ks : List VersionKey) (body : Op α) : Op α :=
  ks.foldr (fun k rest => withVersionLock k rest) body

end Op

open Op

def distinctBlobs (files : List PackageFile) : List Digest :=
  (files.map PackageFile.sha256).toFinset.sort (· ≤ ·)

/-- Drop every symbol file and mapping of one version. The caller holds its lock. -/
def purgeSymbols (k : VersionKey) : Op Unit := do
  let symbols ← query (.findSymbols k)
  symbols.forM fun sym => file (.deleteSymbol sym)
  let _ ← query (.deleteSymbols k)

/-- Delete the blobs of a version's attached files that no other version
references. The caller holds its lock. -/
def purgeFileBlobs (k : VersionKey) : Op Unit := do
  let files ← query (.filesFor k)
  (distinctBlobs files).forM fun sha => do
    let here := files.countP fun f => f.sha256 = sha
    withBlobLock sha do
      let references ← query (.blobReferences sha)
      onlyIf (references ≤ here) (file (.deleteBlob sha))

/-- Hard-delete the data shared by every feed, files first. The caller holds
the version's lock. -/
def purgeGlobalData (k : VersionKey) : Op Unit := do
  purgeSymbols k
  purgeFileBlobs k
  file (.delete k)
  let _ ← query (.deletePackageData k)

def purgeLocked (feed : FeedName) (k : VersionKey) : Op Bool := do
  let removed ← query (.removeMembershipForGood feed k)
  let holders ← query (.feedCount k)
  onlyIf (holders = 0) (purgeGlobalData k)
  pure removed

def purgeVersion (feed : FeedName) (k : VersionKey) : Op Bool :=
  withVersionLock k (purgeLocked feed k)

def purgePlannedLocked (feed : FeedName) (k : VersionKey) : Op Bool := do
  match ← query (.getMembership feed k) with
  | none => pure false
  | some m => if m.pinned || m.pending || !m.enabled then pure false else purgeLocked feed k

/-- `purgeVersion` for retention: the same, unless the version was pinned, or
stopped being servable, since the plan that chose it was made. -/
def purgePlanned (feed : FeedName) (k : VersionKey) : Op Bool :=
  withVersionLock k (purgePlannedLocked feed k)

/-- Delete the versions of a plan made earlier; a failure is logged and the
rest goes on. -/
def applyPlan (feed : FeedName) (planned : List VersionKey) : Op Unit :=
  planned.forM fun k => Fallible.ignore (purgePlanned feed k)

/-- Remove a version if no feed holds it; the caller holds its lock. -/
def sweepLocked (k : VersionKey) : Op Unit := do
  match ← Fallible.attempt (query (.feedCount k)) with
  | .ok 0 =>
    let still ← unwrapOr (query (.packageDataExists k)) false
    onlyIf still (purgeGlobalData k)
  | _ => pure ()

/-- Finish off the versions whose global data no feed held when they were listed. -/
def sweepOrphans (orphans : List VersionKey) : Op Unit :=
  orphans.forM fun k => Fallible.ignore (withVersionLock k (sweepLocked k))

end YaNuget
