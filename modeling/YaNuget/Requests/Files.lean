import YaNuget.Store.Policy
import YaNuget.Store.Records
import Mathlib.Algebra.Group.Nat.Even

/-!
# Serving a stored file

The answer to a request for a file that is already open: all of it, a range of
it, or only its validators. Content types and the offered file name are left
out; the entity tag and the other headers are kept as they are sent.
-/
namespace YaNuget

open Policy

/-- The headers a file is served by, as text. -/
structure FileHeaders where
  range : Option String
  ifRange : Option String
  ifNoneMatch : Option String
  deriving DecidableEq, Repr

structure CachePolicy where
  isPrivate : Bool
  immutable : Bool
  deriving DecidableEq, Repr

def CachePolicy.headerValue : CachePolicy → String
  | ⟨false, true⟩ => "public, max-age=31536000, immutable"
  | ⟨true, true⟩ => "private, max-age=31536000, immutable"
  | ⟨false, false⟩ => "public, no-cache"
  | ⟨true, false⟩ => "private, no-cache"

/-- What a served file is, beyond its bytes. -/
structure FileMeta where
  etag : Option String
  cache : CachePolicy
  lastModified : Option String
  deriving DecidableEq, Repr

/-- What of a file is sent. -/
inductive Sent where
  | notModified
  | whole (body : Content)
  | part (start stop total : ℕ) (body : Content)
  | unsatisfiable (total : ℕ)
  deriving DecidableEq, Repr

structure FileResponse where
  etag : Option String
  cacheControl : String
  lastModified : Option String
  sent : Sent
  deriving DecidableEq, Repr

/-- The bytes sent are those of the file, or the stated range of them. -/
def Sent.IsOf (bytes : Content) : Sent → Prop
  | .whole body => body = bytes
  | .part start stop total body =>
    total = bytes.length ∧ start ≤ stop ∧ stop < total ∧
      body = (bytes.drop start).take (stop - start + 1)
  | .notModified | .unsatisfiable _ => True

inductive RangeResult where
  | none
  | satisfiable (start stop : ℕ)
  | unsatisfiable
  deriving DecidableEq, Repr

def rangePos (s : String) : Option ℕ :=
  if s.isEmpty || !s.toList.all Char.isDigit then .none
  else
    let n := s.toList.foldl (fun n c => n * 10 + (c.toNat - '0'.toNat)) 0
    if n < 2 ^ 64 then some n else .none

def splitOnce (sep : Char) (s : String) : Option (String × String) :=
  let start := s.toList.takeWhile (· ≠ sep)
  match s.toList.drop start.length with
  | [] => .none
  | _ :: rest => some (String.ofList start, String.ofList rest)

def stripPrefix (s pfx : String) : Option String :=
  if pfx.toList.isPrefixOf s.toList then some (String.ofList (s.toList.drop pfx.toList.length))
  else .none

/-- A single range of a file of `total` bytes, both ends included. -/
def rangeOf (spec : String × String) (total : ℕ) : RangeResult :=
  if total = 0 then .unsatisfiable
  else
    let last := total - 1
    let start := Policy.trim spec.1
    let stop := Policy.trim spec.2
    if start.isEmpty then
      match rangePos stop with
      | some 0 => .unsatisfiable
      | some n => .satisfiable (total - n) last
      | .none => .none
    else if stop.isEmpty then
      match rangePos start with
      | some start => if start ≤ last then .satisfiable start last else .unsatisfiable
      | .none => .none
    else
      match rangePos start, rangePos stop with
      | some start, some stop =>
        if start > stop then .none
        else if start ≤ last then .satisfiable start (min stop last)
        else .unsatisfiable
      | _, _ => .none

/-- Anything that is not one range of bytes is ignored. -/
def parseRange (headers : FileHeaders) (total : ℕ) : RangeResult :=
  match headers.range.bind (stripPrefix · "bytes=") with
  | .none => .none
  | some spec =>
    if spec.toList.contains ',' then .none
    else
      match splitOnce '-' spec with
      | .none => .none
      | some spec => rangeOf spec total

/-- Whether a range may be honoured given the request's `If-Range`. -/
def ifRangeHolds (headers : FileHeaders) (etag lastModified : Option String) : Bool :=
  match headers.ifRange with
  | .none => true
  | some value =>
    let value := Policy.trim value
    if "\"".toList.isPrefixOf value.toList then etag = some value
    else if "W/".toList.isPrefixOf value.toList then false
    else lastModified = some value

/-- Whether `If-None-Match` names the tag, by weak comparison. -/
def ifNoneMatchHits (headers : FileHeaders) (etag : String) : Bool :=
  match headers.ifNoneMatch with
  | .none => false
  | some raw => (raw.toList.splitOn ',').any fun candidate =>
    let c := Policy.trim (String.ofList candidate)
    let c := (stripPrefix c "W/").getD c
    c = "*" || c = etag

/-- An entity tag as it is sent. -/
def quotedTag (tag : String) : String := "\"" ++ tag ++ "\""

/-- Serve an open file, whose bytes are `bytes`. -/
def serveOpenFile (bytes : Content) (headers : FileHeaders) (about : FileMeta) : FileResponse :=
  let total := bytes.length
  let etag := about.etag.map quotedTag
  let cacheControl := about.cache.headerValue
  if etag.any (ifNoneMatchHits headers) then ⟨etag, cacheControl, .none, .notModified⟩
  else
    let range := if ifRangeHolds headers etag about.lastModified then parseRange headers total
      else .none
    let sent := match range with
      | .none => Sent.whole bytes
      | .satisfiable start stop =>
        .part start stop total ((bytes.drop start).take (stop - start + 1))
      | .unsatisfiable => .unsatisfiable total
    ⟨etag, cacheControl, about.lastModified, sent⟩

theorem rangeOf_satisfiable {spec : String × String} {total start stop : ℕ}
    (h : rangeOf spec total = .satisfiable start stop) : start ≤ stop ∧ stop < total := by
  unfold rangeOf at h
  split_ifs at h with hempty
  dsimp only at h
  split_ifs at h
  · split at h
    · cases h
    · rename_i n hn _
      have hpos : 0 < n := Nat.pos_of_ne_zero hn
      cases h
      omega
    · cases h
  · split at h
    · split_ifs at h
      cases h
      omega
    · cases h
  · split at h
    · split_ifs at h
      cases h
      omega
    · cases h

theorem parseRange_satisfiable {headers : FileHeaders} {total start stop : ℕ}
    (h : parseRange headers total = .satisfiable start stop) : start ≤ stop ∧ stop < total := by
  unfold parseRange at h
  split at h
  · cases h
  · split_ifs at h
    split at h
    · cases h
    · exact rangeOf_satisfiable h

@[simp] theorem serveOpenFile_etag (bytes : Content) (headers : FileHeaders) (about : FileMeta) :
    (serveOpenFile bytes headers about).etag = about.etag.map quotedTag := by
  unfold serveOpenFile
  dsimp only
  split_ifs <;> rfl

theorem serveOpenFile_isOf (bytes : Content) (headers : FileHeaders) (about : FileMeta) :
    (serveOpenFile bytes headers about).sent.IsOf bytes := by
  unfold serveOpenFile
  dsimp only
  split_ifs with hmatch hrange
  · trivial
  · cases hparse : parseRange headers bytes.length with
    | none => rfl
    | satisfiable start stop =>
      obtain ⟨hle, hlt⟩ := parseRange_satisfiable hparse
      exact ⟨rfl, hle, hlt, rfl⟩
    | unsatisfiable => trivial
  · rfl

end YaNuget
