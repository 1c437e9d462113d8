import Mathlib.Logic.Function.Basic
import YaNuget.Packages.Nuspec
import YaNuget.Versions.NuGetVersion

/-!
# The upstream cache

Packages of an upstream feed are downloaded into a directory and served from
there afterwards. A file is named by the hash the feed states for the package,
or by where the package came from and what it is.
-/
namespace YaNuget.Internalize

open Versions

abbrev Bytes := List UInt8

def utf8 (t : Text) : Bytes := t.flatMap String.utf8EncodeChar

def hex (bytes : Bytes) : Text :=
  bytes.flatMap fun b => [(b.toNat / 16).digitChar, (b.toNat % 16).digitChar]

theorem hex_injective {xs ys : Bytes} (h : hex xs = hex ys) : xs = ys := by
  have digit : ∀ m < 16, ∀ n < 16, Nat.digitChar m = Nat.digitChar n → m = n := by decide
  induction xs generalizing ys with
  | nil =>
    cases ys with
    | nil => rfl
    | cons y ys => simp [hex] at h
  | cons x xs ih =>
    cases ys with
    | nil => simp [hex] at h
    | cons y ys =>
      simp only [hex, List.flatMap_cons, List.cons_append, List.nil_append, List.cons.injEq] at h
      obtain ⟨hhigh, hlow, hrest⟩ := h
      have hx := x.toNat_lt
      have hy := y.toNat_lt
      have hdiv := digit _ (by omega) _ (by omega) hhigh
      have hmod := digit _ (by omega) _ (by omega) hlow
      have hxy : x = y := UInt8.toNat_inj.mp (by omega)
      rw [hxy, ih hrest]

/-- What comes from other packages. -/
structure Libraries where
  sha256 : Bytes → Bytes
  sha512 : Bytes → Bytes
  /-- The manifest of an archive, as the XML reader reports it. -/
  readArchive : Bytes → Except String Manifest.Xml

inductive UpstreamError where
  | http (message : String)
  | refused (message : String)
  | invalid (message : String)
  | status (message : String)
  | notFound (message : String)
  | integrity (message : String)
  | io (message : String)
  deriving DecidableEq, Repr

inductive HashAlgorithm where
  | sha256
  | sha512
  deriving DecidableEq, Repr

def HashAlgorithm.asStr : HashAlgorithm → String
  | .sha256 => "sha256"
  | .sha512 => "sha512"

/-- The hash a feed states for a package. -/
structure PackageHash where
  algorithm : HashAlgorithm
  digest : Bytes
  deriving DecidableEq, Repr

/-- One version of a package, as the feed describes it. -/
structure PackageInfo where
  id : Text
  version : Versions.NuGetVersion
  listed : Bool
  hash : Option PackageHash
  size : Option ℕ
  deriving DecidableEq, Repr

/-- A package in the cache, by the name of its file. -/
structure CachedPackage where
  path : Text
  size : ℕ
  sha512 : Text
  /-- Whether it matched a hash the feed stated. -/
  verified : Bool
  deriving DecidableEq, Repr

/-- A client for one upstream feed. -/
structure Upstream where
  source : Text
  maxPackageBytes : ℕ
  deriving DecidableEq, Repr

/-- One call of `fetch`. -/
structure Fetch where
  upstream : Upstream
  info : PackageInfo
  deriving DecidableEq, Repr

/-- The files of the cache directory, by name. -/
abbrev Dir := Text → Option Bytes

/-- A step on files that can fail. -/
inductive IoStep where
  | createDir | hashCached | removeCached | create
  | write (chunk : ℕ)
  | flush | sync | readArchive | rename | removePart
  deriving DecidableEq, Repr

structure Response where
  status : ℕ
  /-- The status with its reason, for messages. -/
  shown : String
  contentLength : Option ℕ
  /-- The body, up to its end or to where the transfer breaks off. -/
  chunks : List (Except String Bytes)

/-- What one fetch meets: its process, the files and the upstream's answer. -/
structure Meets where
  pid : ℕ
  /-- How many parts the process has named before. -/
  parts : ℕ
  /-- The cached file, if there is one, can be looked up. -/
  metadata : Bool
  /-- The steps that fail, with their errors. -/
  io : IoStep → Option String
  response : Except UpstreamError Response

variable (L : Libraries)

def digestFor (algorithm : HashAlgorithm) (sha512 sha256 : Bytes) : Bytes :=
  match algorithm with
  | .sha512 => sha512
  | .sha256 => sha256

def hashFile (file : Bytes) (also : Option HashAlgorithm) : Bytes × Bytes :=
  (L.sha512 file, L.sha256 (if also = some .sha256 then file else []))

/-- The name of the package, for messages. -/
def PackageInfo.what (info : PackageInfo) : String :=
  s!"package {String.ofList info.id} {String.ofList info.version.normalized}"

def Fetch.cacheName (f : Fetch) : Text :=
  match f.info.hash with
  | some h => h.algorithm.asStr.toList ++ '-' :: (hex h.digest ++ ".nupkg".toList)
  | none =>
    let key := f.upstream.source ++ '\n' :: (Text.lower f.info.id ++
      '\n' :: Text.lower f.info.version.normalized)
    "unverified-".toList ++ (hex (L.sha256 (utf8 key)) ++ ".nupkg".toList)

/-- The name of the file that is downloaded to, of a process and of one fetch. -/
def Fetch.partName (f : Fetch) (pid parts : ℕ) : Text :=
  '.' :: (f.cacheName L ++ '.' :: (Text.decimal pid ++
    '-' :: (Text.decimal parts ++ ".part".toList)))

def okStatus (resp : Response) (what : String) : Except UpstreamError Unit :=
  if 200 ≤ resp.status ∧ resp.status < 300 then .ok ()
  else if resp.status = 404 then .error (.notFound s!"upstream {what}: not found")
  else
    let hint := if resp.status = 401 ∨ resp.status = 403 then
      "; check the upstream credentials (they are sent to the upstream's own origin only)" else ""
    .error (.status s!"upstream {what} answered {resp.shown}{hint}")

section Download

variable (f : Fetch) (e : Meets)

def tooLarge : UpstreamError :=
  .integrity (s!"{f.info.what} is larger than " ++
    s!"upstream.max_package_bytes ({f.upstream.maxPackageBytes})")

/-- Write the body to the part, chunk by chunk. An error comes with what the part then holds. -/
def receive : ℕ → Bytes → List (Except String Bytes) → Except (Bytes × UpstreamError) Bytes
  | _, written, [] => .ok written
  | _, written, .error err :: _ => .error (written, .http s!"{f.info.what}: {err}")
  | n, written, .ok chunk :: rest =>
    if f.upstream.maxPackageBytes < written.length + chunk.length then
      .error (written, tooLarge f)
    else
      match e.io (.write n) with
      | some err => .error (written, .io err)
      | none => receive (n + 1) (written ++ chunk) rest

/-- The size and the hash of what was received are the ones the feed states. -/
def verify (body : Bytes) : Except UpstreamError CachedPackage :=
  match f.info.size.filter (· ≠ body.length) with
  | some expected => .error (.integrity
      s!"{f.info.what} is {body.length} bytes, but the feed says {expected}")
  | none =>
    let got (h : PackageHash) := digestFor h.algorithm (L.sha512 body) (L.sha256 body)
    match f.info.hash.filter fun h => got h ≠ h.digest with
    | some h => .error (.integrity
        s!"{f.info.what} does not match the feed's {h.algorithm.asStr} hash")
    | none => .ok
        ⟨f.partName L e.pid e.parts, body.length, hex (L.sha512 body), f.info.hash.isSome⟩

/-- Download into the part. An error comes with what the part then holds, if it was created. -/
def download : Except (Option Bytes × UpstreamError) (Bytes × CachedPackage) :=
  match e.response with
  | .error err => .error (none, err)
  | .ok resp =>
    match okStatus resp f.info.what with
    | .error err => .error (none, err)
    | .ok () =>
      if resp.contentLength.any (f.upstream.maxPackageBytes < ·) then .error (none, tooLarge f)
      else
        match e.io .create with
        | some err => .error (none, .io err)
        | none =>
          match receive f e 0 [] resp.chunks with
          | .error (written, err) => .error (some written, err)
          | .ok body =>
            match (e.io .flush).or (e.io .sync) with
            | some err => .error (some body, .io err)
            | none =>
              match verify L f e body with
              | .error err => .error (some body, err)
              | .ok downloaded => .ok (body, downloaded)

/-- The manifest must name the id and the version that were asked for. -/
def checkIdentity (file : Bytes) : Except UpstreamError Unit :=
  let bad (m : String) : Except UpstreamError Unit := .error (.integrity s!"{f.info.what}: {m}")
  match e.io .readArchive with
  | some err => bad err
  | none =>
    match L.readArchive file with
    | .error err => bad err
    | .ok xml =>
      match Manifest.parseNuspec xml with
      | .error err => bad err
      | .ok nuspec =>
        match Versions.NuGetVersion.parse nuspec.version with
        | .error err => bad ("its manifest's version does not parse: " ++
            s!"invalid NuGet version: {String.ofList err.original}")
        | .ok version =>
          if Text.lower nuspec.id ≠ Text.lower f.info.id ∨ version.cmp f.info.version ≠ .eq then
            bad s!"its manifest says {String.ofList nuspec.id} {String.ofList version.normalized}"
          else .ok ()

def removePart (d : Dir) : Dir :=
  if (e.io .removePart).isSome then d else Function.update d (f.partName L e.pid e.parts) none

/-- Download the package and move it to its name in the cache. -/
def fetchNew (d : Dir) : Dir × Except UpstreamError CachedPackage :=
  let part := f.partName L e.pid e.parts
  match download L f e with
  | .error (none, err) => (removePart L f e d, .error err)
  | .error (some written, err) =>
    (removePart L f e (Function.update d part (some written)), .error err)
  | .ok (file, downloaded) =>
    let d := Function.update d part (some file)
    match checkIdentity L f e file with
    | .error err => (removePart L f e d, .error err)
    | .ok () =>
      match e.io .rename with
      | some err => (d, .error (.io err))
      | none => (Function.update (Function.update d part none) (f.cacheName L) (some file),
          .ok { downloaded with path := f.cacheName L })

/-- The package, from the cache or downloaded into it. -/
def fetch (d : Dir) : Dir × Except UpstreamError CachedPackage :=
  match e.io .createDir with
  | some err => (d, .error (.io err))
  | none =>
    match if e.metadata then d (f.cacheName L) else none with
    | none => fetchNew L f e d
    | some cached =>
      match e.io .hashCached with
      | some err => (d, .error (.io err))
      | none =>
        let (sha512, other) := hashFile L cached (f.info.hash.map (·.algorithm))
        if f.info.hash.any fun h => digestFor h.algorithm sha512 other ≠ h.digest then
          match e.io .removeCached with
          | some err => (d, .error (.io err))
          | none => fetchNew L f e (Function.update d (f.cacheName L) none)
        else (d, .ok ⟨f.cacheName L, cached.length, hex sha512, f.info.hash.isSome⟩)

end Download

/-- One fetch after the other, each with the directory after it and what it returns. -/
def fetches : Dir → List (Fetch × Meets) → List (Fetch × Dir × Except UpstreamError CachedPackage)
  | _, [] => []
  | d, (f, e) :: rest => (f, fetch L f e d) :: fetches (fetch L f e d).1 rest

end YaNuget.Internalize
