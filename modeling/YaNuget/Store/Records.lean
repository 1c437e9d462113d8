import Mathlib.Data.Nat.Notation

/-!
# The records of the package store

What the server stores about a version, as far as the modelled code reads it.
Descriptive metadata (authors, tags, urls, download counters) is left out; so
are a membership's `added` time and a file's `uploaded` time.
-/
namespace YaNuget

/-- The bytes of a file. -/
abbrev Content := List UInt8

/-- A hash as text: base64 for a package, lower-case hex for a blob. -/
abbrev Digest := String

abbrev FeedName := String

/-- A version as every table and lock keys it: the lower-cased id and the
normalized version string. -/
structure VersionKey where
  lowerId : String
  normalized : String
  deriving DecidableEq, Repr

/-- The parts of a parsed version that the modelled code looks at. -/
structure NuGetVersion where
  core : ℕ × ℕ × ℕ × ℕ
  isPrerelease : Bool
  deriving DecidableEq, Repr

structure Package where
  key : VersionKey
  id : String
  version : NuGetVersion
  licenseExpression : Option String
  licenseUrl : Option String
  hasReadme : Bool
  hasEmbeddedIcon : Bool
  packageSize : ℕ
  packageHash : Digest
  published : ℕ
  deriving DecidableEq, Repr

abbrev PackageAt (k : VersionKey) := { p : Package // p.key = k }

/-- One version's membership of a single feed. The feed and the version are
its key in the table. -/
structure Membership where
  listed : Bool
  listingSet : Bool
  enabled : Bool
  pending : Bool
  flagged : Bool
  flagReason : Option String
  pinned : Bool
  deriving DecidableEq, Repr

/-- A listed, enabled membership that is neither pending nor flagged. -/
def Membership.active : Membership where
  listed := true
  listingSet := false
  enabled := true
  pending := false
  flagged := false
  flagReason := none
  pinned := false

structure PackageFile where
  name : String
  sha256 : Digest
  size : ℕ
  deriving DecidableEq, Repr

/-- A symbol file's address: its SSQP key and file name. -/
structure SymbolKey where
  key : String
  filename : String
  deriving DecidableEq, Repr

inductive AuxFile where
  | nuspec
  | readme
  | icon
  deriving DecidableEq, Repr

/-- Overwrite policy for re-pushing an existing id and version. -/
inductive OverwriteMode where
  | disabled
  | enabled
  | prereleaseOnly
  | pendingOnly
  deriving DecidableEq, Repr

/-- Whether a push may overwrite a version with the given pre-release status,
whatever state it is in. -/
def OverwriteMode.allows : OverwriteMode → Bool → Bool
  | .disabled, _ => false
  | .pendingOnly, _ => false
  | .enabled, _ => true
  | .prereleaseOnly, isPrerelease => isPrerelease

/-- Whether a version that has been served can never change under this mode. -/
def OverwriteMode.servedVersionsAreImmutable : OverwriteMode → Bool
  | .disabled | .pendingOnly => true
  | .enabled | .prereleaseOnly => false

theorem OverwriteMode.not_allows_of_immutable {mode : OverwriteMode}
    (h : mode.servedVersionsAreImmutable = true) (isPrerelease : Bool) :
    mode.allows isPrerelease = false := by
  cases mode <;> simp_all [servedVersionsAreImmutable, allows]

/-- A flag change applied to many memberships at once. -/
inductive MembershipChange where
  | enabled (on : Bool)
  | pinned (on : Bool)
  | approve
  deriving DecidableEq, Repr

def MembershipChange.apply : MembershipChange → Membership → Membership
  | .enabled on, m => { m with enabled := on }
  | .pinned on, m => { m with pinned := on }
  | .approve, m => { m with pending := false }

inductive Error where
  | packageNotFound
  | packageAlreadyExists
  | versionExists (message : String)
  | invalidPackage (message : String)
  | policyViolation (message : String)
  | conflict (message : String)
  | forbidden (message : String)
  | badRequest (message : String)
  | unauthorized
  | database
  | io
  deriving DecidableEq, Repr

end YaNuget
