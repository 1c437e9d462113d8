import Mathlib.Data.List.Sort
import YaNuget.Concurrency.Machine
import YaNuget.Data.Words
import YaNuget.Internalize.Naming
import YaNuget.Listings.PageUrls
import YaNuget.Packages.Rewrite
import YaNuget.Store.Records
import YaNuget.Versions.NuGetVersion

/-!
# The inbox

Files dropped into `{feed}/{id}/{version}` are attached to that version once a
checksum file beside them names their SHA-256. The scan of the inbox runs
against an uploader, who owns every directory below the inbox and changes them
at any step. Directories and files are reached through handles, which stay what
they were opened as whatever becomes of the name.
-/
namespace YaNuget.Inbox

open Concurrency

/-- What stands at a name: a file by its inode, a directory, or a link, a pipe, a device or a
socket. A handle is what it was opened as. -/
inductive Node where
  | file (inode : ℕ)
  | dir (id : ℕ)
  | other
  deriving DecidableEq, Repr

/-- What stands at a name, looked at without following a link. -/
inductive Kind where
  | file | dir | other | missing
  deriving DecidableEq, Repr

def Kind.ofNode : Option Node → Kind
  | some (.file _) => file
  | some (.dir _) => dir
  | some .other => other
  | none => missing

structure Disk where
  /-- The names in each directory. -/
  entries : ℕ → List (Text × Node)
  /-- The bytes of each inode in use, which an open handle keeps when the last name is gone. -/
  bytes : ℕ → Option Content
  links : ℕ → ℕ

namespace Disk

variable (disk : Disk)

def at? (d : ℕ) (name : Text) : Option Node := (disk.entries d).lookup name

def content : Node → Option Content
  | .file inode => disk.bytes inode
  | _ => none

def create (d : ℕ) (name : Text) (inode : ℕ) : Disk where
  entries := Function.update disk.entries d ((name, .file inode) :: disk.entries d)
  bytes := Function.update disk.bytes inode (some [])
  links := Function.update disk.links inode 1

def append (inode : ℕ) (more : Content) : Disk :=
  { disk with bytes := Function.update disk.bytes inode ((disk.bytes inode).map (· ++ more)) }

/-- Take a name away from what it stands for. -/
def unlink (d : ℕ) (name : Text) : Disk :=
  { disk with
    entries := Function.update disk.entries d ((disk.entries d).filter (·.1 ≠ name))
    links := match disk.at? d name with
      | some (.file inode) => Function.update disk.links inode (disk.links inode - 1)
      | _ => disk.links }

/-- Move what stands at `name` to `target`, over what stands there. -/
def rename (d : ℕ) (name target : Text) : Disk :=
  match disk.at? d name with
  | none => disk
  | some node =>
    let moved := (disk.unlink d target).unlink d name
    { moved with
      entries := Function.update moved.entries d ((target, node) :: moved.entries d)
      links := match node with
        | .file inode => Function.update moved.links inode (moved.links inode + 1)
        | _ => moved.links }

end Disk

/-- A file whose checksum file has arrived. -/
structure Candidate where
  feed : Text
  id : Text
  /-- The version directory's name, as found. -/
  version : Text
  v : Versions.NuGetVersion
  name : Text

/-- An attach, with where its file was found and the bytes of the staged copy. -/
structure Attachment where
  dir : ℕ
  name : Text
  bytes : Content
  sha256 : Text

/-- A name that the scan removed, and the bytes of the file that stood there. -/
structure Removal where
  dir : ℕ
  name : Text
  content : Option Content

/-- What the scan saw when it last looked at a name, and whether that has changed since. -/
structure Watch where
  node : Node
  content : Option Content
  touched : Bool

structure State where
  disk : Disk
  /-- The server's copy of the file that is being imported. -/
  staging : Option Content
  attached : List Attachment
  /-- What the scan has removed, and what it has seen at each name. No step depends on these. -/
  removed : List Removal
  watches : ℕ → Text → Option Watch

/-- The inbox as it is before the first scan. -/
def State.initial (disk : Disk) : State := ⟨disk, none, [], [], fun _ _ => none⟩

namespace Watch

/-- What was seen is still there. -/
def stands (w : Watch) (disk : Disk) (d : ℕ) (name : Text) : Bool :=
  decide (disk.at? d name = some w.node ∧ disk.content w.node = w.content)

/-- The watch once the inbox has changed. -/
def recheck (w : Watch) (disk : Disk) (d : ℕ) (name : Text) : Watch :=
  { w with touched := w.touched || !w.stands disk d name }

end Watch

namespace State

variable (s : State)

/-- The inbox changes. -/
def withDisk (disk : Disk) : State :=
  { s with
    disk := disk
    watches := fun d name => (s.watches d name).map fun w => w.recheck disk d name }

def look (d : ℕ) (name : Text) (node : Node) : State :=
  { s with
    watches := Function.update s.watches d (Function.update (s.watches d) name
      (some ⟨node, s.disk.content node, false⟩)) }

end State

/-- Why a call or an import failed, and whether that is the server's fault. -/
structure Failure where
  text : String
  server : Bool
  deriving DecidableEq, Repr

def badRequest (why : String) : Failure := ⟨"invalid request: " ++ why, false⟩

def packageNotFound : Failure := ⟨"package not found", false⟩

def payloadTooLarge (why : String) : Failure := ⟨"payload too large: " ++ why, false⟩

def ioFailure (why : String) : Failure := ⟨why, true⟩

structure Metadata where
  isFile : Bool
  nlink : ℕ
  len : ℕ
  deriving DecidableEq, Repr

/-- The calls that may fail. -/
inductive Request where
  | openRoot
  | openDir (d : ℕ) (name : Text)
  | openFile (d : ℕ) (name : Text)
  | metadata (h : Node)
  | read (h : Node) (offset n : ℕ)
  | remove (d : ℕ) (name : Text)
  | createNew (d : ℕ) (name : Text)
  | writeAll (h : Node) (text : Text)
  | existsIn (c : Candidate)
  | createStagingDir
  | admission (size : ℕ)
  | createStaged
  | writeStaged (chunk : Content)
  | syncStaged
  /-- The store takes the staged copy of the file found in `d`, or has it already. -/
  | attach (c : Candidate) (d : ℕ) (sha256 : Text) (size : ℕ)

abbrev Request.Answer : Request → Type
  | openRoot | openDir _ _ => ℕ
  | openFile _ _ | createNew _ _ => Node
  | metadata _ => Metadata
  | read _ _ _ => Content
  | existsIn _ => Bool
  | _ => Unit

inductive Call where
  | request (r : Request)
  | readDir (d : ℕ)
  | kind (d : ℕ) (name : Text)
  | now
  /-- Whatever the uploader does to the inbox in one step. -/
  | upload (change : Disk → Disk)

abbrev Call.Answer : Call → Type
  | request r => Except Failure r.Answer
  | readDir _ => List Text
  | kind _ _ => Kind
  | now => String
  | upload _ => Unit

/-- What is left open at a call: whether it fails, the names that a reading of a directory meets
while they come and go, how much a read returns, and what the database and the clock say. -/
structure Choice where
  fails : Option Failure
  names : List Text
  count : ℕ
  yes : Bool
  inode : ℕ
  time : String

/-- The inbox itself, as the operator has configured it. -/
def root : ℕ := 0

/-- A request that does not fail for a reason of its own. -/
def State.answer (s : State) (o : Choice) :
    (r : Request) → Option (Except Failure r.Answer × State)
  | .openRoot => some (.ok root, s)
  | .openDir d name =>
    match s.disk.at? d name with
    | some (.dir id) => some (.ok id, s)
    | _ => some (.error (ioFailure "Not a directory"), s)
  | .openFile d name =>
    match s.disk.at? d name with
    | none => some (.error (ioFailure "No such file or directory"), s)
    | some node =>
      -- A pipe is opened without waiting for a writer, a link is not opened.
      if node = .other ∧ !o.yes then
        some (.error (ioFailure "Too many levels of symbolic links"), s)
      else some (.ok node, s.look d name node)
  | .metadata h =>
    match h with
    | .file inode =>
      some (.ok ⟨true, s.disk.links inode, ((s.disk.bytes inode).getD []).length⟩, s)
    | _ => some (.ok ⟨false, 1, 0⟩, s)
  | .read h offset n =>
    -- A read returns nothing only at the end of the file.
    let bytes := (s.disk.content h).getD []
    some (.ok ((bytes.drop offset).take (min n (o.count + 1))), s)
  | .remove d name =>
    match s.disk.at? d name with
    | none => some (.error (ioFailure "No such file or directory"), s)
    | some (.dir _) => some (.error (ioFailure "Is a directory"), s)
    | some node =>
      some (.ok (), { s.withDisk (s.disk.unlink d name) with
        removed := ⟨d, name, s.disk.content node⟩ :: s.removed })
  | .createNew d name =>
    if (s.disk.at? d name).isSome then some (.error (ioFailure "File exists"), s)
    else if (s.disk.bytes o.inode).isSome then none
    else some (.ok (.file o.inode), s.withDisk (s.disk.create d name o.inode))
  | .writeAll h text =>
    match h with
    | .file inode => some (.ok (), s.withDisk (s.disk.append inode (Rewriting.utf8 text)))
    | _ => some (.error (ioFailure "Bad file descriptor"), s)
  | .existsIn _ => some (.ok o.yes, s)
  | .createStagingDir => some (.ok (), s)
  | .admission _ => some (.ok (), s)
  | .createStaged => some (.ok (), { s with staging := some [] })
  | .writeStaged chunk => some (.ok (), { s with staging := s.staging.map (· ++ chunk) })
  | .syncStaged => some (.ok (), s)
  | .attach c d sha256 _ => s.staging.map fun bytes =>
      (.ok (), { s with attached := ⟨d, c.name, bytes, sha256⟩ :: s.attached })

def exec (o : Choice) (s : State) : (c : Call) → Option (c.Answer × State)
  | .request r =>
    match o.fails with
    | some e => some (.error e, s)
    | none => s.answer o r
  | .readDir _ => some (o.names, s)
  | .kind d name =>
    match o.fails, s.disk.at? d name with
    | none, some node => some (Kind.ofNode (some node), s.look d name node)
    | _, _ => some (.missing, s)
  | .now => some (o.time, s)
  | .upload change => some ((), s.withDisk (change s.disk))

inductive Party where
  | scanner | uploader
  deriving DecidableEq, Repr

/-- The scan and the uploader at work on one inbox. -/
def machine : Machine Party Call Call.Answer Choice State where
  exec _ c o s := exec o s c

abbrev Op := Fallible Call Call.Answer Failure

def ask (c : Call) : Op c.Answer := Fallible.lift (Program.perform c)

/-- A call that may fail, which ends the operation. -/
def request (r : Request) : Op r.Answer :=
  ExceptT.mk (Program.perform (R := Call.Answer) (.request r))

/-- What the scan is configured with. -/
structure Site where
  feeds : List Text
  /-- The extensions a file may have in a feed. -/
  allowedExtensions : Text → List Text
  maxFileSize : Option ℕ
  /-- In hex. -/
  sha256 : Content → Text

/-- What one scan did. -/
structure ScanReport where
  imported : ℕ
  failed : ℕ
  deriving DecidableEq, Repr

def ofExcept {α : Type} (result : Except Failure α) : Op α := ExceptT.mk (.done result)

/-- The names in a directory, sorted. -/
def names (d : ℕ) : Op (List Text) := do
  let entries ← ask (.readDir d)
  pure ((entries.filter fun n => n ≠ ".".toList ∧ n ≠ "..".toList).insertionSort (· ≤ ·))

def collect {α β : Type} (g : α → Op (List β)) : List α → Op (List β)
  | [] => pure []
  | x :: xs => do
    let found ← g x
    let more ← collect g xs
    pure (found ++ more)

/-- What is found in a subdirectory, if it can be opened. -/
def within {α : Type} (d : ℕ) (name : Text) (g : ℕ → Op (List α)) : Op (List α) := do
  match ← Fallible.attempt (request (.openDir d name)) with
  | .ok sub => g sub
  | .error _ => pure []

def stripSuffix (suffix t : Text) : Option Text :=
  if suffix.isSuffixOf t then some (t.take (t.length - suffix.length)) else none

def markerOf (name : Text) : Text := name ++ ".sha256".toList

def reportOf (name : Text) : Text := name ++ ".error".toList

/-- The file of a checksum file, unless it is not there or the report of an earlier failure is. -/
def waiting (dir : ℕ) (feed id version : Text) (v : Versions.NuGetVersion) (entry : Text) :
    Op (List Candidate) := do
  match stripSuffix ".sha256".toList entry with
  | none => pure []
  | some name =>
    if (← ask (.kind dir name)) ≠ .file then pure []
    else
      let report ← ask (.kind dir (reportOf name))
      if report = .file ∨ report = .dir then pure []
      else pure [⟨feed, id, version, v, name⟩]

/-- Every file in the inbox that is waiting to be imported into one of the feeds. -/
def candidates (feeds : List Text) : Op (List Candidate) := do
  let root ← request .openRoot
  collect (fun feed =>
    if !feeds.contains feed then pure []
    else within root feed fun feedDir => do
      collect (fun id =>
        match Listings.validatePackageId id with
        | .error _ => pure []
        | .ok () => within feedDir id fun idDir => do
          collect (fun version =>
            match Versions.NuGetVersion.parse version with
            | .error _ => pure []
            | .ok v => within idDir version fun versionDir => do
              collect (waiting versionDir feed id version v) (← names versionDir))
            (← names idDir))
        (← names feedDir)) (← names root)

/-- The version directory of a candidate, opened again from the inbox. -/
def Candidate.openDir (c : Candidate) : Op ℕ := do
  let root ← request .openRoot
  let feedDir ← request (.openDir root c.feed)
  let idDir ← request (.openDir feedDir c.id)
  request (.openDir idDir c.version)

/-- Open a name for reading, refusing anything but a regular file. -/
def openRegular (dir : ℕ) (name : Text) : Op Node := do
  let notAFile := badRequest (String.ofList name ++ " is not a regular file")
  match ← Fallible.attempt (request (.openFile dir name)) with
  | .error e =>
    match ← ask (.kind dir name) with
    | .missing => throw (badRequest (String.ofList name ++ " is gone"))
    | .file => throw e
    | .dir | .other => throw notAFile
  | .ok file =>
    let found ← request (.metadata file)
    if found.isFile then pure file else throw notAFile

def bufferSize : ℕ := 256 * 1024

/-- Read through a handle until it ends or `limit` bytes are there, and pass each piece on. No
read returns more than is left of them, so `fuel` lasts if it is as much. -/
def drain (h : Node) (each : Content → Op Unit) (limit : ℕ) : ℕ → Content → Op Content
  | 0, got => pure got
  | fuel + 1, got =>
    if limit ≤ got.length then pure got
    else do
      let chunk ← request (.read h got.length (min (limit - got.length) bufferSize))
      if chunk.isEmpty then pure got
      else
        each chunk
        drain h each limit fuel (got ++ chunk)

def isHexDigit (c : Char) : Bool :=
  c.isDigit || ('a' ≤ c && c ≤ 'f') || ('A' ≤ c && c ≤ 'F')

def parseMarker (raw : Text) : Except Failure Text :=
  let hex := Text.lower (((Words.pieces isWhitespace raw).headD []).dropWhile (· = '﻿'))
  if Text.byteLen hex = 64 && hex.all isHexDigit then .ok hex
  else .error (badRequest "the checksum file must start with the file's SHA-256 in hex")

def maxMarkerBytes : ℕ := 4096

def readText (raw : Content) : Except Failure Text :=
  match Rewriting.fromUtf8 raw with
  | some text => parseMarker text
  | none => .error (badRequest "the checksum file is not text")

def readMarker (h : Node) : Op Text := do
  match ← Fallible.attempt (drain h (fun _ => pure ()) maxMarkerBytes maxMarkerBytes []) with
  | .ok raw => ofExcept (readText raw)
  | .error _ => throw (badRequest "the checksum file is not text")

/-- Copy the first `len` bytes to a new staged file, and return them with their hash. -/
def copyHashed (site : Site) (h : Node) (len : ℕ) : Op (ℕ × Text) := do
  request .createStaged
  let copied ← drain h (fun chunk => request (.writeStaged chunk)) len len []
  request .syncStaged
  pure (copied.length, site.sha256 copied)

def refuseIf (refused : Bool) (e : Failure) : Op Unit := if refused then throw e else pure ()

def validateFileName (name : Text) (allowed : List Text) : Except Failure Unit :=
  match Internalize.fileNameProblem name allowed with
  | none => .ok ()
  | some why => .error (badRequest
      ("invalid file name " ++ reprStr (String.ofList name) ++ ": " ++ why))

/-- Attach a file whose checksum file has arrived, and remove both. -/
def importFile (site : Site) (c : Candidate) (dir : ℕ) : Op Unit := do
  let name := c.name
  let marker := markerOf name
  ofExcept (validateFileName name (site.allowedExtensions c.feed))
  let expected ← readMarker (← openRegular dir marker)
  let source ← openRegular dir name
  let found ← request (.metadata source)
  refuseIf (found.nlink ≠ 1) (badRequest (String.ofList name ++
    " has other hard links; upload it as a file of its own"))
  let known ← request (.existsIn c)
  refuseIf (!known) packageNotFound
  site.maxFileSize.forM fun limit => refuseIf (limit < found.len) (payloadTooLarge
    s!"{found.len} bytes is over the {limit}-byte limit for files")
  request .createStagingDir
  request (.admission found.len)
  let (copied, actual) ← copyHashed site source found.len
  refuseIf (actual ≠ expected) (badRequest ("checksum mismatch: " ++ String.ofList name ++
    " does not have the SHA-256 in " ++ String.ofList marker))
  request (.attach c dir actual copied)
  Fallible.ignore (request (.remove dir name))
  Fallible.ignore (request (.remove dir marker))

/-- Leave a report next to a file that could not be imported. -/
def writeReport (dir : ℕ) (report : Text) (e : Failure) : Op Unit := do
  if (← ask (.kind dir report)) = .other then
    Fallible.ignore (request (.remove dir report))
  let why := if e.server then "the server could not import it; its log says why" else e.text
  let now ← ask .now
  Fallible.ignore do
    let h ← request (.createNew dir report)
    request (.writeAll h
      (now ++ ": not imported: " ++ why ++ "
Remove this file to try again.
").toList)

/-- Import the candidates that are still there. -/
def importEach (site : Site) : List Candidate → ScanReport → Op ScanReport
  | [], report => pure report
  | c :: rest, report => do
    match ← Fallible.attempt c.openDir with
    | .error _ => importEach site rest report
    | .ok dir =>
      match ← Fallible.attempt (importFile site c dir) with
      | .ok () => importEach site rest { report with imported := report.imported + 1 }
      | .error e => do
        writeReport dir (reportOf c.name) e
        importEach site rest { report with failed := report.failed + 1 }

/-- Import every file whose checksum file has arrived. -/
def scan (site : Site) : Op ScanReport := do
  match ← Fallible.attempt (candidates site.feeds) with
  | .error _ => pure ⟨0, 0⟩
  | .ok found => importEach site found ⟨0, 0⟩

def scans (site : Site) : ℕ → Op Unit
  | 0 => pure ()
  | n + 1 => do
    let _ ← scan site
    scans site n

/-- What the uploader does, one step after the other. -/
def uploads (changes : List (Disk → Disk)) : Op Unit :=
  changes.forM fun change => ask (.upload change)

/-- The inbox before a number of scans, while the uploader is at work. -/
def working (site : Site) (disk : Disk) (n : ℕ) (changes : List (Disk → Disk)) :
    Config Party Call Call.Answer Choice State where
  world := ⟨State.initial disk, []⟩
  threads
    | .scanner => (scans site n).run >>= fun _ => .done ()
    | .uploader => (uploads changes).run >>= fun _ => .done ()

end YaNuget.Inbox
