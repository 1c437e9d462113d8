import YaNuget.Operations.Mirror

/-!
# Downloads

Package files are served without the version's lock: whether the version may
be served is checked first, and the row is read on both sides of opening the
file, so that validators go out only with a file they describe. Download
counters are left out.
-/
namespace YaNuget

open Concurrency Op

/-- How a download may be served. -/
inductive Access where
  | preview
  | anyone
  deriving DecidableEq, Repr

/-- The keys a request presents: the feed's preview key, and read access. -/
structure Visitor where
  preview : Bool
  reads : Bool
  deriving DecidableEq, Repr

/-- The version a mirror is asked for, and what it finds upstream. -/
structure MirrorRequest where
  v : VersionRef
  options : CopyOptions
  unlisted : Bool
  failedLately : Bool
  download : Except Error Content

/-- A request for a package or its manifest. What a miss answers depends on
the keys it offers. -/
structure DownloadRequest where
  feed : FeedName
  k : VersionKey
  visitor : Visitor
  isNuspec : Bool
  headers : FileHeaders
  contentCache : CachePolicy
  mirror : Option MirrorRequest
  miss : Error

def Access.cache (contentCache : CachePolicy) : Access → CachePolicy
  | .anyone => contentCache
  | .preview => ⟨true, false⟩

/-- Whether a download may be served, and how. -/
def downloadAccess (feed : FeedName) (k : VersionKey) (visitor : Visitor) : Op (Option Access) := do
  if visitor.preview then
    let held ← query (.getMembership feed k)
    pure ((held.filter Membership.enabled).map fun _ => .preview)
  else
    refuseIf (!visitor.reads) .unauthorized
    let servable ← query (.isServable feed k)
    pure (if servable then some .anyone else none)

def openForServing (c : StorageCall) : Op c.Answer := do
  match ← Fallible.attempt (file c) with
  | .ok bytes => pure bytes
  | .error _ => throw .packageNotFound

def findIfAny (feed : FeedName) (k : VersionKey) : Op (Option (PackageAt k)) := do
  let row ← ok (query (.find feed k))
  pure row.join

/-- The row both reads found: what the bytes opened between them are taken for. -/
def settledRow {k : VersionKey} (before after : Option (PackageAt k)) (isNuspec : Bool) (size : ℕ) :
    Option (PackageAt k) :=
  match before, after with
  | some b, some a =>
    if b.1.packageHash = a.1.packageHash ∧ b.1.published = a.1.published ∧
        (isNuspec ∨ a.1.packageSize = size) then some a
    else none
  | _, _ => none

/-- The validators of a package, or of the manifest in it. -/
def packageMeta (httpDate : ℕ → String) (isNuspec : Bool) (cache : CachePolicy)
    (row : Option Package) : FileMeta where
  etag := row.map fun p => if isNuspec then p.packageHash ++ "-nuspec" else p.packageHash
  cache := cache
  lastModified := row.map fun p => httpDate p.published

def lookForContent (k : VersionKey) (isNuspec : Bool) : Op Unit :=
  if isNuspec then file (.auxContent k .nuspec) else file (.getPackage k)

def openContent (k : VersionKey) (isNuspec : Bool) : Op Content :=
  if isNuspec then openForServing (.openAux k .nuspec) else openForServing (.openPackage k)

def serveVersion (httpDate : ℕ → String) (d : DownloadRequest) (access : Access) : Op Unit := do
  lookForContent d.k d.isNuspec
  let before ← findIfAny d.feed d.k
  let bytes ← openContent d.k d.isNuspec
  let after ← findIfAny d.feed d.k
  let size ← file (.metadata bytes)
  let row := settledRow before after d.isNuspec size
  call (.respond (serveOpenFile bytes d.headers
    (packageMeta httpDate d.isNuspec (access.cache d.contentCache) (row.map Subtype.val))))

/-- Whether a download may be served, after a read-through mirror if not. -/
def admitDownload (site : Site) (d : DownloadRequest) : Op Access := do
  refuseIf (!d.visitor.preview && !d.visitor.reads) .unauthorized
  match ← downloadAccess d.feed d.k d.visitor with
  | some access => pure access
  | none => do
    d.mirror.forM fun m => do
      let _ ← mirrorVersion site d.feed m.v m.options m.unlisted m.failedLately m.download
    match ← downloadAccess d.feed d.k d.visitor with
    | some access => pure access
    | none => throw d.miss

def downloadPackage (site : Site) (httpDate : ℕ → String) (d : DownloadRequest) : Op Unit := do
  let access ← admitDownload site d
  serveVersion httpDate d access

/-- A request for a package's embedded icon. -/
structure IconRequest where
  feed : FeedName
  k : VersionKey
  reads : Bool
  headers : FileHeaders
  contentCache : CachePolicy

/-- The file starts with these bytes, given as characters of their values. -/
def startsWith (bytes : Content) (magic : List ℕ) : Bool :=
  (magic.map fun n => UInt8.ofNat n).isPrefixOf bytes

/-- Identify a raster image from its magic bytes. -/
def sniffImage (bytes : Content) : Option String :=
  if startsWith bytes [0x89, 0x50, 0x4E, 0x47, 0x0D, 0x0A, 0x1A, 0x0A] then some "image/png"
  else if startsWith bytes [0xFF, 0xD8, 0xFF] then some "image/jpeg"
  else if startsWith bytes [0x47, 0x49, 0x46, 0x38, 0x37, 0x61] ||
      startsWith bytes [0x47, 0x49, 0x46, 0x38, 0x39, 0x61] then some "image/gif"
  else if 12 ≤ bytes.length && startsWith bytes [0x52, 0x49, 0x46, 0x46] &&
      startsWith (bytes.drop 8) [0x57, 0x45, 0x42, 0x50] then some "image/webp"
  else if startsWith bytes [0x42, 0x4D] then some "image/bmp"
  else if startsWith bytes [0, 0, 1, 0] then some "image/x-icon"
  else none

/-- Serve a package's embedded icon. -/
def packageIcon (d : IconRequest) : Op Unit := do
  refuseIf (!d.reads) .unauthorized
  match ← query (.find d.feed d.k) with
  | none => throw .packageNotFound
  | some package => do
    let etag := quotedTag (package.1.packageHash ++ "-icon")
    let cacheControl := d.contentCache.headerValue
    if ifNoneMatchHits d.headers etag then
      call (.respond ⟨some etag, cacheControl, none, .notModified⟩)
    else
      let bytes ← file (.getAux d.k .icon)
      refuseIf (sniffImage bytes).isNone .packageNotFound
      call (.respond ⟨some etag, cacheControl, none, .whole bytes⟩)

end YaNuget
