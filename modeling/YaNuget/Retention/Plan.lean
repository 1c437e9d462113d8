import YaNuget.Data.Sorting
import YaNuget.Versions.Order

/-!
# What retention removes

The versions of one package that a feed's policy removes: those beyond the
newest ones of their channel, and those that came to the feed too long ago. The
newest version that clients can get stays, whatever the policy says.
-/
namespace YaNuget.Retention

open Versions Orderings Sorting

/-- What retention reads of a package. -/
structure Package where
  id : Text
  version : Versions.NuGetVersion
  deriving DecidableEq, Repr

def canonicalId (id : Text) : Text := Text.lower id

def Package.lowerId (p : Package) : Text := canonicalId p.id

def Package.normalizedVersion (p : Package) : Text := p.version.normalized

def Package.isPrerelease (p : Package) : Bool := p.version.isPrerelease

/-- `id` falls under the package-id `pfx`; one that ends in a dot also covers the bare id. -/
def idHasPrefix (id pfx : Text) : Bool :=
  (Text.lower pfx).isPrefixOf (Text.lower id) ||
    pfx.getLast? = some '.' && Text.lower id = Text.lower pfx.dropLast

/-! Time is counted in nanoseconds; instants and durations have limits. -/

def nanosPerSecond : ℤ := 1000000000

/-- Seconds of the first instant, 1 January of the year -262143. -/
def minSeconds : ℤ := -8334601228800

/-- Seconds of the last instant, 31 December of the year 262142. -/
def maxSeconds : ℤ := 8210266876799

/-- An instant of UTC. -/
structure Instant where
  nanos : ℤ
  earliest : minSeconds * nanosPerSecond ≤ nanos
  latest : nanos < (maxSeconds + 1) * nanosPerSecond
  deriving DecidableEq

/-- The instant that timestamps count from. -/
def Instant.epoch : Instant := ⟨0, by decide, by decide⟩

/-- `Duration::try_days` of a number of days read as an `i64`, in nanoseconds. A duration is at
most `i64::MAX` milliseconds. -/
def tryDays (days : ℕ) : Option ℤ :=
  if 2 ^ 63 ≤ days then none
  else if 2 ^ 63 ≤ days * 86400 then none
  else if (2 ^ 63 - 1) / 1000 < days * 86400 then none
  else some ((days * 86400 : ℕ) * nanosPerSecond)

def Instant.checkedSub (now : Instant) (duration : ℤ) : Option Instant :=
  if h : minSeconds * nanosPerSecond ≤ now.nanos - duration ∧
      now.nanos - duration < (maxSeconds + 1) * nanosPerSecond then
    some ⟨now.nanos - duration, h.1, h.2⟩
  else none

structure RetentionPolicy where
  keepLatestStable : Option ℕ
  keepLatestPrerelease : Option ℕ
  maxAgeDays : Option ℕ
  /-- Ids under one of these prefixes are never pruned. -/
  excludeIdPrefixes : List Text
  deriving DecidableEq, Repr

namespace RetentionPolicy

variable (policy : RetentionPolicy)

def hasLimits : Bool :=
  policy.keepLatestStable.isSome || policy.keepLatestPrerelease.isSome || policy.maxAgeDays.isSome

def excludes (id : Text) : Bool := policy.excludeIdPrefixes.any (idHasPrefix id)

/-- How many of the newest versions of a channel are kept. -/
def keep (prerelease : Bool) : Option ℕ :=
  if prerelease then policy.keepLatestPrerelease else policy.keepLatestStable

/-- What was added before this instant is too old. A cutoff out of range prunes nothing. -/
def cutoff (now : Instant) : Option Instant := (policy.maxAgeDays.bind tryDays).bind now.checkedSub

end RetentionPolicy

/-- Why a version is pruned. Both halves can hold at once. -/
structure PruneReason where
  beyondNewest : Option (ℕ × Bool)
  olderThanDays : Option ℕ
  deriving DecidableEq, Repr

structure Pruned where
  version : Versions.NuGetVersion
  reason : PruneReason
  deriving DecidableEq, Repr

/-- One version as retention sees it. -/
structure Candidate where
  package : Package
  pinned : Bool
  /-- Enabled and approved. -/
  servable : Bool
  added : Instant
  deriving DecidableEq

def Candidate.version (c : Candidate) : Versions.NuGetVersion := c.package.version

def Candidate.isPrerelease (c : Candidate) : Bool := c.package.isPrerelease

/-- Newer versions come first. -/
def newestFirst (a b : Candidate) : Ordering := NuGetVersion.cmp b.version a.version

section Plan

variable (versions : List Candidate)

def newest (prerelease : Bool) : Option Versions.NuGetVersion :=
  greatest NuGetVersion.cmp
    ((versions.filter fun c => c.servable && c.isPrerelease = prerelease).map Candidate.version)

def protectedVersion : Option Versions.NuGetVersion :=
  (newest versions false).or (newest versions true)

def ranked (prerelease : Bool) : List Candidate :=
  versions.filter fun c => c.servable && !c.pinned && c.isPrerelease = prerelease

def channel (prerelease : Bool) : List Candidate := sortBy newestFirst (ranked versions prerelease)

def isProtected (c : Candidate) : Bool :=
  (protectedVersion versions).any (NuGetVersion.cmp · c.version = .eq)

variable (policy : RetentionPolicy) (now : Instant)

def reasonOf (prerelease : Bool) (rank : ℕ) (c : Candidate) : PruneReason where
  beyondNewest := ((policy.keep prerelease).filter (· ≤ rank)).map fun n => (n, prerelease)
  olderThanDays :=
    if (policy.cutoff now).any (c.added.nanos < ·.nanos) then policy.maxAgeDays else none

/-- Whether the version at `rank` of its channel is pruned, and why. -/
def prunedAt (prerelease : Bool) (rank : ℕ) (c : Candidate) : Option Pruned :=
  if isProtected versions c then none
  else
    let reason := reasonOf policy now prerelease rank c
    if reason.beyondNewest.isSome || reason.olderThanDays.isSome then some ⟨c.version, reason⟩
    else none

def pruneChannel (prerelease : Bool) : List Pruned :=
  (channel versions prerelease).zipIdx.filterMap fun e =>
    prunedAt versions policy now prerelease e.2 e.1

end Plan

/-- Which versions of a single package to prune, and why. -/
def prunePlan (versions : List Candidate) (policy : RetentionPolicy) (now : Instant) : List Pruned :=
  match versions with
  | [] => []
  | first :: _ =>
    if !policy.hasLimits then []
    else if policy.excludes first.package.id then []
    else pruneChannel versions policy now false ++ pruneChannel versions policy now true

structure FeedVersion where
  package : Package
  enabled : Bool
  pending : Bool
  pinned : Bool
  added : Instant
  deriving DecidableEq

def FeedVersion.isServable (v : FeedVersion) : Bool := v.enabled && !v.pending

def FeedVersion.candidate (v : FeedVersion) : Candidate :=
  ⟨v.package, v.pinned, v.isServable, v.added⟩

def planFor (versions : List FeedVersion) (policy : RetentionPolicy) (now : Instant) : List Pruned :=
  prunePlan (versions.map FeedVersion.candidate) policy now

section Membership

variable {versions : List Candidate} {policy : RetentionPolicy} {now : Instant} {p : Pruned}

theorem mem_pruneChannel {prerelease : Bool} : p ∈ pruneChannel versions policy now prerelease ↔
    ∃ rank c, (channel versions prerelease)[rank]? = some c ∧
      prunedAt versions policy now prerelease rank c = some p := by
  unfold pruneChannel
  rw [List.mem_filterMap]
  constructor
  · rintro ⟨⟨c, rank⟩, hmem, hp⟩
    exact ⟨rank, c, List.mem_zipIdx_iff_getElem?.mp hmem, hp⟩
  · rintro ⟨rank, c, hget, hp⟩
    exact ⟨(c, rank), List.mem_zipIdx_iff_getElem?.mpr hget, hp⟩

theorem prunedAt_eq_some {prerelease : Bool} {rank : ℕ} {c : Candidate} :
    prunedAt versions policy now prerelease rank c = some p ↔ isProtected versions c = false ∧
      ((reasonOf policy now prerelease rank c).beyondNewest.isSome ∨
        (reasonOf policy now prerelease rank c).olderThanDays.isSome) ∧
      p = ⟨c.version, reasonOf policy now prerelease rank c⟩ := by
  unfold prunedAt
  by_cases h : isProtected versions c
  · simp [h]
  · simp only [h, Bool.false_eq_true, if_false, Bool.or_eq_true, true_and,
      Option.ite_none_right_eq_some, Option.some.injEq]
    rw [@eq_comm _ p]

end Membership

end YaNuget.Retention
