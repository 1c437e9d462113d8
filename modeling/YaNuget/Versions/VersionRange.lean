import YaNuget.Versions.Identity

/-!
# Version ranges

A dependency gives the versions it accepts in the notation of intervals, or as
a bare version that is the least one. The best match of a range is the lowest
version in it if the range has a lower bound, and else the highest.
-/
namespace YaNuget.Versions

open Orderings

/-- One end of a range. -/
structure Bound where
  version : NuGetVersion
  inclusive : Bool
  deriving DecidableEq, Repr

/-- A range of versions, open at an end without a bound. -/
structure VersionRange where
  min : Option Bound
  max : Option Bound
  deriving DecidableEq, Repr

/-- The string that is no range, and why. -/
structure RangeParseError where
  input : Text
  reason : String
  deriving DecidableEq, Repr

/-- The longest range accepted, in bytes. -/
def maxRangeChars : ℕ := 2 * 256 + 8

namespace VersionRange

def any : VersionRange := ⟨none, none⟩

def exact (version : NuGetVersion) : VersionRange := ⟨some ⟨version, true⟩, some ⟨version, true⟩⟩

def atLeast (version : NuGetVersion) : VersionRange := ⟨some ⟨version, true⟩, none⟩

def isEmpty (r : VersionRange) : Bool :=
  match r.min, r.max with
  | some lo, some hi =>
    match NuGetVersion.cmp lo.version hi.version with
    | .gt => true
    | .eq => !(lo.inclusive && hi.inclusive)
    | .lt => false
  | _, _ => false

/-- The version on one side of the comma, if there is one. -/
def parseBound (input v : Text) (inclusive : Bool) : Except RangeParseError (Option Bound) :=
  if v.isEmpty then .ok none
  else
    match NuGetVersion.parse (trim v) with
    | .error _ => .error ⟨input, "not a valid version inside it"⟩
    | .ok version => .ok (some ⟨version, inclusive⟩)

/-- What stands between the brackets. -/
def parseInner (input inner : Text) (minInclusive maxInclusive : Bool) :
    Except RangeParseError VersionRange :=
  match Text.splitOnce ',' inner with
  | none =>
    if !(minInclusive && maxInclusive) then
      .error ⟨input, "a single version must be written [x]"⟩
    else
      match NuGetVersion.parse (trim inner) with
      | .error _ => .error ⟨input, "not a valid version inside it"⟩
      | .ok version => .ok (exact version)
  | some (lo, hi) =>
    if ',' ∈ hi then .error ⟨input, "more than two versions"⟩
    else if (trim lo).isEmpty && (trim hi).isEmpty then
      .error ⟨input, "no version on either side"⟩
    else do
      let min ← parseBound input (trim lo) minInclusive
      let max ← parseBound input (trim hi) maxInclusive
      if (min.isNone && minInclusive) || (max.isNone && maxInclusive) then
        .error ⟨input, "an open end must use a parenthesis"⟩
      else .ok ⟨min, max⟩

def parse (input : Text) : Except RangeParseError VersionRange :=
  let s := trim input
  if maxRangeChars < Text.byteLen s then .error ⟨input, "too long"⟩
  else
    match s with
    | [] => .ok any
    | opening :: rest =>
      if opening ≠ '[' ∧ opening ≠ '(' then
        if s.any (['*', ',', '[', ']', '(', ')'].contains ·) then
          .error ⟨input, "floating versions and stray brackets are not ranges"⟩
        else
          match NuGetVersion.parse (trim s) with
          | .error _ => .error ⟨input, "not a valid version inside it"⟩
          | .ok version => .ok (atLeast version)
      else
        -- an opening bracket alone has nothing to close it
        let closing := rest.getLast?
        if closing ≠ some ']' ∧ closing ≠ some ')' then
          .error ⟨input, "an opening bracket needs a closing one"⟩
        else
          let inner := rest.dropLast
          if inner.any (['[', ']', '(', ')', '*'].contains ·) then
            .error ⟨input, "brackets or a floating version inside the range"⟩
          else do
            let range ← parseInner input inner (opening = '[') (closing = some ']')
            if range.isEmpty then .error ⟨input, "no version satisfies it"⟩ else .ok range

variable (r : VersionRange)

def contains (version : NuGetVersion) : Bool :=
  (match r.min with
    | none => true
    | some b =>
      if b.inclusive then (NuGetVersion.cmp version b.version).isGE
      else (NuGetVersion.cmp version b.version).isGT) &&
  match r.max with
    | none => true
    | some b =>
      if b.inclusive then (NuGetVersion.cmp version b.version).isLE
      else (NuGetVersion.cmp version b.version).isLT

/-- A bound is a pre-release, which lets pre-releases in. -/
def hasPrereleaseBound : Bool :=
  ([r.min, r.max].filterMap id).any (·.version.isPrerelease)

/-- The pre-release rule. -/
def allows (allowPrerelease : Bool) (version : NuGetVersion) : Bool :=
  allowPrerelease || r.hasPrereleaseBound || !version.isPrerelease

/-- The version that a dependency on the range resolves to. -/
def bestMatch (available : List NuGetVersion) (allowPrerelease : Bool) : Option NuGetVersion :=
  let candidates := available.filter fun v => r.contains v && r.allows allowPrerelease v
  if r.min.isSome then least NuGetVersion.cmp candidates
  else greatest NuGetVersion.cmp candidates

/-- The range with both of its ends written out. -/
def interval : Text :=
  (if r.min.any (·.inclusive) then '[' else '(') ::
    (r.min.elim [] (·.version.normalized) ++ ',' :: ' ' :: r.max.elim [] (·.version.normalized) ++
      [if r.max.any (·.inclusive) then ']' else ')'])

def normalized : Text :=
  match r.min, r.max with
  | none, none => []
  | some lo, some hi =>
    if lo.inclusive && hi.inclusive && NuGetVersion.cmp lo.version hi.version = .eq then
      '[' :: (lo.version.normalized ++ [']'])
    else r.interval
  | _, _ => r.interval

end VersionRange

end YaNuget.Versions
