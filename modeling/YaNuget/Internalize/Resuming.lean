import YaNuget.Internalize.Assess

/-!
# Downloads that break off

A file is streamed to disk while it is hashed. A transfer that breaks off is
resumed where it stopped when the host takes ranges, and else started over. What
is put together so is a whole file of the host as far as every part that is
appended belongs to a file that begins with what is stored, and ends where that
file does when it does not break off itself.
-/
namespace YaNuget.Internalize.Resuming

abbrev HeaderValue := Bytes

/-- A header value as text, none when it holds anything but visible characters. -/
def toStr (v : HeaderValue) : Option Text :=
  if v.all fun b => (32 ≤ b.toNat ∧ b.toNat < 127) ∨ b.toNat = 9 then
    some (v.map fun b => Char.ofNat b.toNat)
  else none

structure Response where
  status : ℕ
  /-- Where it came from after redirects. -/
  url : Url
  contentLength : Option ℕ
  acceptRanges : Option HeaderValue
  contentRange : Option HeaderValue
  etag : Option HeaderValue
  lastModified : Option HeaderValue
  contentDisposition : Option HeaderValue
  chunks : List Bytes
  /-- Why the body broke off, none when it ended. -/
  broke : Option String

def Response.validator (r : Response) : Option HeaderValue :=
  (r.etag.filter fun e => !(utf8 "W/".toList).isPrefixOf e).or r.lastModified

def Response.takesRanges (r : Response) : Bool :=
  (r.acceptRanges.bind toStr).any fun v => Text.lower v = "bytes".toList

def rangeStart (contentRange : Option HeaderValue) : Option ℕ :=
  ((contentRange.bind toStr).filter ("bytes ".toList.isPrefixOf ·)).bind fun v =>
    Text.parseU64 (trim ((v.drop 6).takeWhile (· != '-')))

/-- Whether the `Content-Range` of a `206` starts where the file left off. -/
def startsAt (contentRange : Option HeaderValue) (offset : ℕ) : Bool :=
  rangeStart contentRange = some offset

inductive DownloadError where
  | http (err : UpstreamError)
  | checksumMismatch (url : String) (algorithm : String) (declared actual : Text)
  | tooLarge (message : String)
  | status (message : String)
  | io (message : String)

/-- What the disk does: each part is why it fails, if it does. -/
structure Disk where
  create : Option String
  /-- Emptying the file, at an attempt. -/
  truncate : ℕ → Option String
  /-- Writing a chunk, at an attempt and after a number of bytes. -/
  write : ℕ → ℕ → Option String
  sync : Option String
  rename : Option String

/-- A download, and where it runs. -/
structure Setup where
  T : Tools
  maxBytes : ℕ
  resumeAttempts : ℕ
  statusText : ℕ → String
  disk : Disk
  url : Url
  declared : Option Checksum

/-- What the download has so far. -/
structure Progress where
  /-- What the partial file holds. -/
  file : Bytes
  /-- What the hashes were fed. -/
  hashed : Bytes
  written : ℕ
  head : Bytes
  validator : Option HeaderValue
  finalUrl : Url
  contentDisposition : Option Text

def keepHead (head bytes : Bytes) : Bytes := head ++ bytes.take (headBytes - head.length)

/-- The range that is asked for, and the validator that it is asked for under. -/
def Progress.request (p : Progress) : Option (Text × HeaderValue) :=
  if 0 < p.written then
    p.validator.map fun v => ("bytes=".toList ++ (Text.decimal p.written ++ ['-']), v)
  else none

/-- Whether the response is taken for the rest of the file. -/
def Progress.resumed (p : Progress) (r : Response) : Bool :=
  0 < p.written && r.status = 206 && startsAt r.contentRange p.written

/-- What each attempt meets, by what it asks for. -/
abbrev Answers := ℕ → Option (Text × HeaderValue) → Except UpstreamError Response

namespace Setup

variable (s : Setup)

def shown : String := s.T.redact s.url

def tooLarge : DownloadError :=
  .tooLarge (s!"{s.shown} is larger than downloads.max_file_bytes " ++ s!"({s.maxBytes} bytes)")

def start : Progress := ⟨[], [], 0, [], none, s.url, none⟩

/-- Start over when the host sends the whole file again. -/
def restart (n : ℕ) (p : Progress) : Except DownloadError Progress :=
  if 0 < p.written then
    match s.disk.truncate n with
    | some err => .error (.io err)
    | none => .ok { p with file := [], hashed := [], written := 0, head := [] }
  else .ok p

/-- Go on with the response, or begin the file with it. -/
def takeUp (n : ℕ) (p : Progress) (r : Response) : Except DownloadError Progress :=
  if p.resumed r then .ok p
  else if r.status ≠ 200 then .error (.status s!"{s.shown} answered {s.statusText r.status}")
  else do
    let p ← s.restart n p
    if r.contentLength.any (s.maxBytes < ·) then .error s.tooLarge
    else
      .ok { p with
        validator := if r.takesRanges then r.validator else none
        finalUrl := r.url
        contentDisposition := r.contentDisposition.bind toStr }

/-- Store the chunks of a body. -/
def receive (n : ℕ) : List Bytes → Progress → Except DownloadError Progress
  | [], p => .ok p
  | chunk :: rest, p =>
    if s.maxBytes < p.written + chunk.length then .error s.tooLarge
    else
      match s.disk.write n p.written with
      | some err => .error (.io err)
      | none => receive n rest { p with
          file := p.file ++ chunk
          hashed := p.hashed ++ chunk
          written := p.written + chunk.length
          head := keepHead p.head chunk }

/-- One attempt: what the download has after it, and why it broke off, if it did. -/
def attempt (answers : Answers) (n : ℕ) (p : Progress) :
    Except DownloadError (Progress × Option String) :=
  match answers n p.request with
  | .error err => .error (.http err)
  | .ok r => do
    let p ← s.takeUp n p r
    let p ← s.receive n r.chunks p
    pure (p, r.broke)

/-- Attempt number `n`, and as many more as are left. -/
def run (answers : Answers) : (left n : ℕ) → Progress → Except DownloadError Progress
  | left, n, p =>
    match s.attempt answers n p with
    | .error err => .error err
    | .ok (p, none) => .ok p
    | .ok (p, some why) =>
      match left with
      | 0 => .error (.http (.http (s!"{s.shown} broke off after {p.written} bytes, " ++
          s!"{n} times: {why}")))
      | left + 1 => run answers left (n + 1) p

/-- Check the declared checksum, and keep the file under its SHA-256. -/
def finish (p : Progress) : Except DownloadError Downloaded :=
  match s.disk.sync with
  | some err => .error (.io err)
  | none =>
    match s.declared.filter fun sum => checksumOf s.T sum.kind p.hashed ≠ sum.hex with
    | some sum => .error (.checksumMismatch s.shown sum.kind.asStr sum.hex
        (checksumOf s.T sum.kind p.hashed))
    | none =>
      match s.disk.rename with
      | some err => .error (.io err)
      | none => .ok {
          file := p.file
          size := p.written
          sha256 := checksumOf s.T .sha256 p.hashed
          checksum := reportChecksum s.declared
          finalUrl := some p.finalUrl
          contentDisposition := p.contentDisposition
          head := p.head }

def download (answers : Answers) : Except DownloadError Downloaded :=
  match s.disk.create with
  | some err => .error (.io err)
  | none => do
    let p ← s.run answers s.resumeAttempts 1 s.start
    s.finish p

end Setup

end YaNuget.Internalize.Resuming
