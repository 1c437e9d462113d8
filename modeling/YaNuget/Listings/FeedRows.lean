import YaNuget.Data.Chunks
import YaNuget.Versions.Identity

/-!
# The versions a feed lists

A feed's versions as the queries of its listings read them. A statement says
which rows it wants and not in which order, so each query meets the rows in an
order of its own; versions are put in order after they were read.
-/
namespace YaNuget.Listings

open Std Versions Sorting

/-- A version of a package with its membership in a feed. -/
structure FeedRow where
  feed : String
  id : Text
  version : Versions.NuGetVersion
  /-- The version was read from the text it was stored as. -/
  stored : ∃ text, Versions.NuGetVersion.parseStored text = .ok version
  isPrerelease : Bool
  isSemver2 : Bool
  listed : Bool
  enabled : Bool
  pending : Bool
  downloads : ℕ

def canonicalId (id : Text) : Text := Text.lower id

namespace FeedRow

variable (r : FeedRow)

def lowerId : Text := canonicalId r.id

def normalizedVersion : Text := r.version.normalized

def key : String × Text × Text := (r.feed, r.lowerId, r.normalizedVersion)

def byVersion (a b : FeedRow) : Ordering := a.version.cmp b.version

instance : TransCmp byVersion :=
  have versions : TransCmp Versions.NuGetVersion.cmp := inferInstance
  { eq_swap := versions.eq_swap
    isLE_trans := versions.isLE_trans }

theorem isStored : r.version.IsStored := by
  obtain ⟨text, h⟩ := r.stored
  exact Versions.NuGetVersion.of_parseStored h

end FeedRow

/-- Rows that a database can hold: one under each key. -/
def Keyed (rows : List FeedRow) : Prop := (rows.map FeedRow.key).Nodup

theorem Keyed.perm {rows rows' : List FeedRow} (h : Keyed rows) (hperm : rows'.Perm rows) :
    Keyed rows' := (hperm.map _).nodup_iff.mpr h

theorem Keyed.eq {rows : List FeedRow} (h : Keyed rows) {r r' : FeedRow} (hr : r ∈ rows)
    (hr' : r' ∈ rows) (hkey : r.key = r'.key) : r = r' :=
  List.inj_on_of_nodup_map h hr hr' hkey

section Queries

variable (rows : List FeedRow) (feed : String)

/-- The versions of a package, without those that are disabled or pending. -/
def findVersionsFiltered (lowerId : Text) (includePrerelease includeSemver2 listedOnly : Bool) :
    List FeedRow :=
  sortBy FeedRow.byVersion (rows.filter fun r =>
    r.feed == feed && r.lowerId == lowerId && r.enabled && !r.pending &&
      (!listedOnly || r.listed) && (includePrerelease || !r.isPrerelease) &&
      (includeSemver2 || !r.isSemver2))

def findVersions (id : Text) (includeUnlisted : Bool) : List FeedRow :=
  findVersionsFiltered rows feed (canonicalId id) true true !includeUnlisted

end Queries

def writtenVersion (major patch : ℕ) (pre : List Text) : Versions.NuGetVersion :=
  let v : Versions.NuGetVersion := ⟨major, 0, patch, 0, pre, none, []⟩
  { v with original := v.toFullString }

theorem parseStored_written {major patch : ℕ} {pre : List Text} (hmajor : major < 2 ^ 64)
    (hpatch : patch < 2 ^ 64) (hpre : ∀ id ∈ pre, IsIdentifier id) :
    ∃ text, Versions.NuGetVersion.parseStored text = .ok (writtenVersion major patch pre) := by
  have hstored : Versions.NuGetVersion.IsStored ⟨major, 0, patch, 0, pre, none, []⟩ := by
    have hzero : 0 < 2 ^ 64 := by decide
    exact ⟨Versions.NuGetVersion.forall_components ⟨hmajor, hzero, hpatch, hzero⟩, hpre⟩
  exact ⟨_, Versions.NuGetVersion.parseStored_toFullString hstored rfl⟩

def sampleRow (v : Versions.NuGetVersion)
    (h : ∃ text, Versions.NuGetVersion.parseStored text = .ok v) : FeedRow :=
  ⟨"default", "Pkg".toList, v, h, v.isPrerelease, false, true, true, false, 1⟩

/-- `1.0.0-01`, as older releases stored it. -/
def leadingZero : FeedRow :=
  sampleRow (writtenVersion 1 0 ["01".toList])
    (parseStored_written (by decide) (by decide) (by simp [IsIdentifier, isPreChar]))

/-- `1.0.0-1`, the same version to a client. -/
def withoutZero : FeedRow :=
  sampleRow (writtenVersion 1 0 ["1".toList])
    (parseStored_written (by decide) (by decide) (by simp [IsIdentifier, isPreChar]))

theorem keyed_zeros : Keyed [leadingZero, withoutZero] := by
  have hne : leadingZero.key ≠ withoutZero.key := by decide
  simp [Keyed, hne]

end YaNuget.Listings
