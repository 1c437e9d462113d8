import YaNuget.Data.Text

/-!
# NuGet versions

A version has up to four numbers, a pre-release label of dot-separated
identifiers, and build metadata that comparison ignores. New versions are read
as strictly as NuGet reads them; stored ones as they were once accepted.
-/
namespace YaNuget.Versions

/-- The string that is no version. -/
structure VersionParseError where
  original : Text
  deriving DecidableEq, Repr

structure NuGetVersion where
  major : ℕ
  minor : ℕ
  patch : ℕ
  revision : ℕ
  /-- The identifiers of the pre-release label, none for a release. -/
  pre : List Text
  metadata : Option Text
  original : Text
  deriving DecidableEq, Repr

/-- The longest version accepted, in bytes of its full string. -/
def maxVersionChars : ℕ := 64

def maxInputChars : ℕ := 256

def isPreChar (c : Char) : Bool := c.isAlphanum || c == '-'

/-- An identifier is non-empty and made of `[0-9A-Za-z-]`. -/
def validIdentifier (allowLeadingZeros : Bool) (id : Text) : Bool :=
  !id.isEmpty && id.all isPreChar &&
    (allowLeadingZeros || !id.all Char.isDigit || id == ['0'] || id.head? != some '0')

def validIdentifiers (s : Text) (allowLeadingZeros : Bool) : Bool :=
  (s.splitOn '.').all (validIdentifier allowLeadingZeros)

/-- A number of the core: digits, at most `i32::MAX`. -/
def parseComponent (part : Text) : Option ℕ :=
  if part.isEmpty || !part.all Char.isDigit then none
  else
    let digits := part.dropWhile (· = '0')
    if digits.isEmpty then some 0
    else (Text.parseU64 digits).bind fun n => if n ≤ 2 ^ 31 - 1 then some n else none

/-- One to four numbers with dots between them; those left out are zero. -/
def parseCore (component : Text → Option ℕ) (core : Text) : Option (ℕ × ℕ × ℕ × ℕ) :=
  match core.splitOn '.' with
  | [a] => do pure (← component a, 0, 0, 0)
  | [a, b] => do pure (← component a, ← component b, 0, 0)
  | [a, b, c] => do pure (← component a, ← component b, ← component c, 0)
  | [a, b, c, d] => do pure (← component a, ← component b, ← component c, ← component d)
  | _ => none

def cutAt (sep : Char) (s : Text) : Text × Option Text :=
  match Text.splitOnce sep s with
  | some (before, after) => (before, some after)
  | none => (s, none)

namespace NuGetVersion

def isPrerelease (v : NuGetVersion) : Bool := !v.pre.isEmpty

def core (v : NuGetVersion) : ℕ × ℕ × ℕ × ℕ := (v.major, v.minor, v.patch, v.revision)

def coreString (v : NuGetVersion) : Text :=
  ['.'].intercalate (if v.revision > 0
    then [Text.decimal v.major, Text.decimal v.minor, Text.decimal v.patch,
      Text.decimal v.revision]
    else [Text.decimal v.major, Text.decimal v.minor, Text.decimal v.patch])

/-- The identity of the version, in URLs, paths and the database. -/
def normalized (v : NuGetVersion) : Text :=
  v.coreString ++ if v.pre.isEmpty then [] else '-' :: Text.lower (['.'].intercalate v.pre)

/-- The version as it is displayed. -/
def toFullString (v : NuGetVersion) : Text :=
  v.coreString ++ (if v.pre.isEmpty then [] else '-' :: ['.'].intercalate v.pre) ++
    match v.metadata with
    | none => []
    | some metadata => '+' :: metadata

def parse (input : Text) : Except VersionParseError NuGetVersion :=
  let original := trim input
  let err : Except VersionParseError NuGetVersion := .error ⟨original⟩
  if original.isEmpty || maxInputChars < Text.byteLen original then err
  else
    let (s, metadata) := cutAt '+' original
    if metadata.any (!validIdentifiers · true) then err
    else
      let (core, preStr) := cutAt '-' s
      match parseCore parseComponent core with
      | none => err
      | some (major, minor, patch, revision) =>
        if preStr.any (!validIdentifiers · false) then err
        else
          let version : NuGetVersion :=
            ⟨major, minor, patch, revision, preStr.elim [] (·.splitOn '.'), metadata, original⟩
          if maxVersionChars < Text.byteLen version.toFullString then err else .ok version

/-- Read a version that was stored, also by the rules that were in force then. -/
def parseStored (input : Text) : Except VersionParseError NuGetVersion :=
  match parse input with
  | .ok version => .ok version
  | .error _ =>
    let original := trim input
    let err : Except VersionParseError NuGetVersion := .error ⟨original⟩
    let s := if original.head? = some 'v' ∨ original.head? = some 'V' then original.tail
      else original
    if s.isEmpty then err
    else
      let (s, metadata) := cutAt '+' s
      if metadata = some [] then err
      else
        let (core, preStr) := cutAt '-' s
        match parseCore Text.parseU64 core with
        | none => err
        | some (major, minor, patch, revision) =>
          let pre := preStr.elim [] (·.splitOn '.')
          if pre.any fun id => id.isEmpty || !id.all isPreChar then err
          else .ok ⟨major, minor, patch, revision, pre, metadata, original⟩

end NuGetVersion

def compareIdentifier (a b : Text) : Ordering :=
  match Text.parseU64 a, Text.parseU64 b with
  | some na, some nb => compare na nb
  | some _, none => .lt
  | none, some _ => .gt
  | none, none => compare (Text.lower a) (Text.lower b)

def comparePreIdentifiers (a b : List Text) : Ordering :=
  ((List.zipWith compareIdentifier a b).find? (· ≠ .eq)).getD (compare a.length b.length)

/-- What a version feeds a hasher, in order. -/
inductive Hashed where
  | core (core : ℕ × ℕ × ℕ × ℕ)
  | length (n : ℕ)
  | number (n : ℕ)
  | label (id : Text)
  deriving DecidableEq, Repr

def hashIdentifier (id : Text) : Hashed :=
  match Text.parseU64 id with
  | some n => .number n
  | none => .label (Text.lower id)

namespace NuGetVersion

variable (a b : NuGetVersion)

def cmpCore : Ordering :=
  (compare a.major b.major).then <| (compare a.minor b.minor).then <|
    (compare a.patch b.patch).then <| compare a.revision b.revision

def cmpPre : Ordering :=
  match a.pre.isEmpty, b.pre.isEmpty with
  | true, true => .eq
  | true, false => .gt
  | false, true => .lt
  | false, false => comparePreIdentifiers a.pre b.pre

def cmp : Ordering := (cmpCore a b).then (cmpPre a b)

def hash (v : NuGetVersion) : List Hashed :=
  .core v.core :: .length v.pre.length :: v.pre.map hashIdentifier

end NuGetVersion

end YaNuget.Versions
