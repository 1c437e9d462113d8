import YaNuget.Internalize.Naming

/-!
# Internalized packages

The downloads that a package's scripts asked for are fetched, checked against
the checksums the scripts declare, and attached to the package. Its prelude
maps each URL, by its SHA-256, to the attached file.
-/
namespace YaNuget.Internalize

open Versions

/-- What comes from other packages. -/
structure Tools where
  md5 : Bytes → Bytes
  sha1 : Bytes → Bytes
  sha256 : Bytes → Bytes
  sha512 : Bytes → Bytes
  scheme : Url → Text
  pathSegments : Url → Option (List Text)
  /-- The URL without credentials, for messages. -/
  redact : Url → String

inductive Helper where
  | getChocolateyWebFile
  | getWebFile
  | getFtpFile
  | installChocolateyPackage
  | installChocolateyZipPackage
  | installChocolateyVsixPackage
  | installChocolateyPowershellCommand
  | installChocolateyInstallPackage
  | getChocolateyUnzip
  deriving DecidableEq, Repr

def Helper.asStr : Helper → String
  | getChocolateyWebFile => "Get-ChocolateyWebFile"
  | getWebFile => "Get-WebFile"
  | getFtpFile => "Get-FtpFile"
  | installChocolateyPackage => "Install-ChocolateyPackage"
  | installChocolateyZipPackage => "Install-ChocolateyZipPackage"
  | installChocolateyVsixPackage => "Install-ChocolateyVsixPackage"
  | installChocolateyPowershellCommand => "Install-ChocolateyPowershellCommand"
  | installChocolateyInstallPackage => "Install-ChocolateyInstallPackage"
  | getChocolateyUnzip => "Get-ChocolateyUnzip"

inductive ChecksumType where
  | md5 | sha1 | sha256 | sha512
  deriving DecidableEq, Repr

namespace ChecksumType

def asStr : ChecksumType → String
  | md5 => "md5"
  | sha1 => "sha1"
  | sha256 => "sha256"
  | sha512 => "sha512"

/-- A match proves that the file is the one the author meant. -/
def isStrong (kind : ChecksumType) : Bool := kind = sha256 || kind = sha512

end ChecksumType

/-- A checksum a script declared, in lower-case hex. -/
structure Checksum where
  kind : ChecksumType
  hex : Text
  deriving DecidableEq, Repr

/-- Where in the guest a call came from. -/
inductive Origin where
  | package
  | extension (name : Text)
  | other (caller : Option Text)
  deriving DecidableEq, Repr

/-- One recorded call of the package. -/
structure Call where
  helper : Helper
  url : Option Url
  url64 : Option Url
  checksum : Option Checksum
  checksum64 : Option Checksum
  fileType : Option Text
  origin : Origin
  deriving DecidableEq, Repr

/-- The call's URLs, each with its checksum. -/
def Call.downloads (call : Call) : List (Option Url × Option Checksum) :=
  [(call.url, call.checksum), (call.url64, call.checksum64)]

/-- What the sandbox brought back: how the install ended, and the calls or why they were
rejected. -/
structure Capture where
  exitCode : Option ℤ
  timedOut : Bool
  calls : Except (List String) (List Call)

/-- One download a script asked for. -/
structure Wanted where
  url : Url
  checksum : Option Checksum
  /-- The helper that asked, none for a download that an override adds. -/
  helper : Option Helper
  fileType : Option Text
  /-- Where to fetch it instead. -/
  fetchFrom : Option Url
  deriving DecidableEq, Repr

def Wanted.source (w : Wanted) : Url := w.fetchFrom.getD w.url

inductive ChecksumStatus where
  | verified
  | trustOnFirstUse
  deriving DecidableEq, Repr

inductive Status where
  | internalized
  | unchanged
  | needsOverride
  | failed
  deriving DecidableEq, Repr

/-- Whether the script's own checksum vouched for the file. -/
structure ReportChecksum where
  status : ChecksumStatus
  algorithm : Option String
  deriving DecidableEq, Repr

/-- One captured download. -/
structure Download where
  url : Url
  helper : String
  file : Option Text
  size : Option ℕ
  sha256 : Option Text
  checksum : ReportChecksum
  deriving DecidableEq, Repr

/-- One package's report while the run fills it in. -/
structure Draft where
  id : Text
  version : Text
  downloads : List Download := []
  warnings : List String := []
  overridden : List String := []
  /-- Why the package failed. -/
  failures : List String := []
  /-- Why a person has to provide the package. -/
  overrides : List String := []

def pushOnce (list : List String) (item : String) : List String :=
  if item ∈ list then list else list ++ [item]

namespace Draft

variable (d : Draft) (why : String)

def fail : Draft := { d with failures := pushOnce d.failures why }
def needsOverride : Draft := { d with overrides := pushOnce d.overrides why }
def warn : Draft := { d with warnings := pushOnce d.warnings why }
def noteOverridden : Draft := { d with overridden := pushOnce d.overridden why }
def download (entry : Download) : Draft := { d with downloads := d.downloads ++ [entry] }

/-- A failure over an override, an override over the rest. -/
def status : Status :=
  if !d.failures.isEmpty then .failed
  else if !d.overrides.isEmpty then .needsOverride
  else if d.downloads.isEmpty then .unchanged
  else .internalized

end Draft

/-- A download an override adds. -/
structure ExtraDownload where
  url : Url
  sha256 : Option Text
  fileType : Option Text

structure Override where
  script : Option String
  packageParameters : Option String
  downloads : List ExtraDownload
  /-- Captured URLs, each with where to fetch it from. -/
  rewrites : List (Url × Url)

def successCodes : List ℤ := [0, 1641, 3010]

/-- Whether the install may have stopped before a script asked for everything. -/
def Capture.incomplete (raw : Capture) (timeoutSecs : ℕ) : Option String :=
  if raw.timedOut then
    some s!"the install did not finish within sandbox.timeout_secs ({timeoutSecs} s)"
  else
    match raw.exitCode with
    | some code => if code ∈ successCodes then none
        else some s!"the install failed with exit code {code}"
    | none => some "the install did not report an exit code"

def Capture.noteIncomplete (raw : Capture) (timeoutSecs : ℕ) (draft : Draft) : Draft :=
  match raw.incomplete timeoutSecs with
  | some why => draft.needsOverride why
  | none => draft

/-- A call from anywhere but the package's own scripts cannot be redirected. -/
def noteOrigin (draft : Draft) (call : Call) : Draft :=
  match call.origin with
  | .package => draft
  | .extension name => draft.needsOverride
      (s!"{call.helper.asStr} was called from inside the extension {String.ofList name}, " ++
        "which the prelude cannot redirect")
  | .other caller =>
    let shown := (caller.map String.ofList).getD "the caller is unknown"
    draft.needsOverride
      (s!"{call.helper.asStr} was called from outside the package's scripts " ++ s!"({shown})")

def addWanted (wanted : List Wanted) (w : Wanted) : List Wanted :=
  if wanted.any fun x => x.url = w.url ∧ x.checksum = w.checksum then wanted else wanted ++ [w]

def addUrl (call : Call) (wanted : List Wanted) (d : Option Url × Option Checksum) :
    List Wanted :=
  match d.1 with
  | none => wanted
  | some url => addWanted wanted ⟨url, d.2, some call.helper, call.fileType, none⟩

/-- A helper that works on a local file has nothing to fetch. -/
def addCall (state : Draft × List Wanted) (call : Call) : Draft × List Wanted :=
  if call.downloads.all (·.1.isNone) then state
  else (noteOrigin state.1 call, call.downloads.foldl (addUrl call) state.2)

/-- Fetch what was captured for a URL from elsewhere. -/
def applyRewrite (state : Draft × List Wanted) (rewrite : Url × Url) : Draft × List Wanted :=
  let (draft, wanted) := state
  let hit := wanted.any (·.url = rewrite.1)
  (if hit then draft.noteOverridden
      s!"{String.ofList rewrite.1} fetched from {String.ofList rewrite.2}"
    else draft.warn (s!"the override's rewrite of {String.ofList rewrite.1} matches no " ++
      "captured URL; it may be stale"),
    wanted.map fun w => if w.url = rewrite.1 then { w with fetchFrom := some rewrite.2 } else w)

def applyDownload (state : Draft × List Wanted) (extra : ExtraDownload) : Draft × List Wanted :=
  let (draft, wanted) := state
  if wanted.any (·.url = extra.url) then
    (draft.warn (s!"the override's download {String.ofList extra.url} was captured anyway; " ++
      "it may be stale"), wanted)
  else
    (draft.noteOverridden s!"download {String.ofList extra.url} added",
      wanted ++ [⟨extra.url, extra.sha256.map (⟨.sha256, ·⟩), none, extra.fileType, none⟩])

def Override.apply (o : Override) (root : Bool) (state : Draft × List Wanted) :
    Draft × List Wanted :=
  let draft := match o.script with
    | some name => state.1.noteOverridden s!"chocolateyInstall.ps1 replaced by {name}"
    | none => state.1
  let draft := match o.packageParameters with
    | some p => if root then draft.noteOverridden s!"package parameters {p.quote}"
      else draft.warn (s!"the override's package parameters {p.quote} were not passed: the " ++
        "package was installed as a dependency, and only the root gets --params")
    | none => draft
  o.downloads.foldl applyDownload (o.rewrites.foldl applyRewrite (draft, state.2))

/-- Apply a capture to the draft of a package, and return the downloads it asked for. -/
def assess (capture : Except String Capture) (timeoutSecs : ℕ) (o : Option Override)
    (root : Bool) (draft : Draft) : Draft × List Wanted :=
  match capture with
  | .error err => (draft.fail s!"the capture failed: {err}", [])
  | .ok raw =>
    let draft := raw.noteIncomplete timeoutSecs draft
    match raw.calls with
    | .error reasons => (reasons.foldl (fun d reason =>
        d.needsOverride s!"the capture is not usable: {reason}") draft, [])
    | .ok calls =>
      let state := calls.foldl addCall (draft, [])
      match o with
      | none => state
      | some o => o.apply root state

section Fetch

variable (T : Tools)

/-- The digest of a file, in lower-case hex. -/
def checksumOf (kind : ChecksumType) (file : Bytes) : Text :=
  match kind with
  | .md5 => hex (T.md5 file)
  | .sha1 => hex (T.sha1 file)
  | .sha256 => hex (T.sha256 file)
  | .sha512 => hex (T.sha512 file)

/-- A whole file as the host sent it, and what may name it. -/
structure Transfer where
  body : Bytes
  finalUrl : Option Url
  contentDisposition : Option Text

/-- What a download meets: the file that the cache holds under the declared SHA-256, and the
answer of the host. -/
structure Answer where
  cached : Option Transfer
  transfer : Except String Transfer

structure Downloaded where
  /-- What is at its path. -/
  file : Bytes
  size : ℕ
  sha256 : Text
  checksum : ReportChecksum
  finalUrl : Option Url
  contentDisposition : Option Text
  head : Bytes

def headBytes : ℕ := 16

def reportChecksum (declared : Option Checksum) : ReportChecksum where
  status := if declared.any (·.kind.isStrong) then .verified else .trustOnFirstUse
  algorithm := declared.map (·.kind.asStr)

def downloadedOf (t : Transfer) (declared : Option Checksum) : Downloaded where
  file := t.body
  size := t.body.length
  sha256 := checksumOf T .sha256 t.body
  checksum := reportChecksum declared
  finalUrl := t.finalUrl
  contentDisposition := t.contentDisposition
  head := t.body.take headBytes

/-- The file a declared SHA-256 names, if the cache holds it and it still has that hash. -/
def cachedFile (declared : Option Checksum) (cached : Option Transfer) : Option Downloaded :=
  match declared.filter (·.kind = .sha256), cached with
  | some sum, some t =>
    if checksumOf T .sha256 t.body = sum.hex then some (downloadedOf T t declared) else none
  | _, _ => none

/-- The file at a URL, from the cache or from the host. A declared checksum must match. -/
def Downloader.fetch (maxBytes : ℕ) (url : Url) (declared : Option Checksum) (answer : Answer) :
    Except String Downloaded :=
  match cachedFile T declared answer.cached with
  | some found => .ok found
  | none =>
    match answer.transfer with
    | .error err => .error err
    | .ok t =>
      if maxBytes < t.body.length then
        .error (s!"{T.redact url} is larger than downloads.max_file_bytes " ++
          s!"({maxBytes} bytes)")
      else
        match declared.filter fun sum => checksumOf T sum.kind t.body ≠ sum.hex with
        | some sum => .error (s!"{T.redact url}: the file's {sum.kind.asStr} is " ++
            s!"{String.ofList (checksumOf T sum.kind t.body)}, and the script declares " ++
            s!"{String.ofList sum.hex}")
        | none => .ok (downloadedOf T t declared)

/-- A downloaded file and the name it is attached under. -/
structure Attachment where
  name : Text
  /-- What is at its path. -/
  file : Bytes
  size : ℕ
  sha256 : Text
  deriving DecidableEq, Repr

/-- One package while its downloads are recorded. -/
structure Recording where
  draft : Draft
  names : Names := []
  attachments : List Attachment := []

/-- What the name of a file is made from. -/
def sourceOf (draft : Draft) (w : Wanted) (file : Downloaded) : Source where
  url := w.url
  finalUrl := file.finalUrl
  contentDisposition := file.contentDisposition
  fileType := w.fileType
  kind := Kind.sniff file.head
  sha256 := file.sha256
  fallback := draft.id ++ '-' :: draft.version

def downloadEntry (w : Wanted) (file : Downloaded) (name : Option Text) : Download where
  url := w.url
  helper := (w.helper.map Helper.asStr).getD "override"
  file := name
  size := some file.size
  sha256 := some file.sha256
  checksum := file.checksum

def attachment (name : Text) (file : Downloaded) : Attachment :=
  ⟨name, file.file, file.size, file.sha256⟩

/-- A file that several downloads share is attached once. -/
def attach (attachments : List Attachment) (a : Attachment) : List Attachment :=
  if attachments.any (·.name = a.name) then attachments else attachments ++ [a]

/-- Record what became of one download. -/
def record (allowed : List Text) (r : Recording) (w : Wanted) (got : Except String Downloaded) :
    Recording :=
  match got with
  | .error err => { r with draft := r.draft.fail err }
  | .ok file =>
    let plain := T.scheme w.source = "http".toList || file.finalUrl.any (T.scheme · = "http".toList)
    let draft := if plain && file.checksum.status ≠ .verified then
        r.draft.warn (s!"{String.ofList w.source} came over plain HTTP without a SHA-256 or " ++
          "SHA-512 to verify it, so anyone on the way could have changed it")
      else r.draft
    match r.names.name T.pathSegments (sourceOf r.draft w file) allowed with
    | (.ok name, names) =>
      ⟨draft.download (downloadEntry w file (some name)), names,
        attach r.attachments (attachment name file)⟩
    | (.error why, names) =>
      ⟨(draft.needsOverride s!"{String.ofList w.url} is not attached: {why}").download
        (downloadEntry w file none), names, r.attachments⟩

/-- Download what the package asked for, in its order; `answers` is what each download meets. -/
def fetchWanted (maxBytes : ℕ) (answers : ℕ → Answer) (wanted : List Wanted) :
    List (Wanted × Except String Downloaded) :=
  wanted.zipIdx.map fun (w, n) =>
    (w, Downloader.fetch T maxBytes w.source w.checksum (answers n))

def recordAll (allowed : List Text) (draft : Draft)
    (results : List (Wanted × Except String Downloaded)) : Recording :=
  results.foldl (fun r (w, got) => record T allowed r w got) { draft := draft }

end Fetch

/-- A character that needs no escaping in a URL path or a PowerShell string. -/
def isPlain (c : Char) : Bool := c.isAlphanum || c ∈ ['.', '_', '-', '/']

/-- Where the package's files are under the feed. -/
def filesDir (id version : Text) : Except String Text :=
  match Versions.NuGetVersion.parse version with
  | .error err => .error (s!"version {(String.ofList version).quote}: invalid NuGet version: " ++
      String.ofList err.original)
  | .ok v =>
    let version := Text.lower v.normalized
    let dir := "files/".toList ++ (Text.lower id ++ '/' :: (version ++ ['/']))
    if dir.all isPlain then .ok dir
    else .error (s!"{String.ofList id} {String.ofList version} cannot be put in a file URL " ++
      "as it is")

/-- The attached files by the key of their URL, each with its path under the feed and its
SHA-256. -/
abbrev FileMap := List (Text × Text × Text)

def FileMap.insert (map : FileMap) (key : Text) (value : Text × Text) : FileMap :=
  (key, value) :: map.filter (·.1 ≠ key)

section Render

variable (T : Tools)

def urlKey (url : Url) : Text := hex (T.sha256 (utf8 url))

/-- A download without a file is left out, so that the install stops at it. -/
def mapDownload (dir : Text) (map : FileMap) (d : Download) : Except String FileMap :=
  match d.file, d.sha256 with
  | some file, some sha256 =>
    if !file.all isPlain || '/' ∈ file then
      .error (s!"the attached file name {(String.ofList file).quote} cannot be put in a URL " ++
        "as it is")
    else if sha256.length ≠ 64 || !sha256.all fun c => c.isDigit || c.toLower ∈ "abcdef".toList then
      .error s!"{String.ofList file} has no SHA-256 to pin it by"
    else .ok (map.insert (urlKey T d.url) (dir ++ file, Text.lower sha256))
  | _, _ => .ok map

/-- The files of the prelude, none when there is nothing to redirect. -/
def render (id version : Text) (downloads : List Download) : Except String (Option FileMap) := do
  let dir ← filesDir id version
  let map ← downloads.foldlM (mapDownload T dir) []
  pure (if map.isEmpty then none else some map)

end Render

end YaNuget.Internalize
