import YaNuget.Retention.PlanPolicy
import YaNuget.Versions.Identity
import Mathlib.Data.List.Dedup
import Mathlib.Data.List.Forall2
import Mathlib.Logic.Function.Basic

/-!
# Previews and sweeps of a feed

A preview reads many packages with one statement and plans them one by one; a
sweep reads one package, plans it, and deletes what is planned before it goes on
to the next. Neither statement says in which order its rows come.
-/
namespace YaNuget.Retention

open Std Versions Orderings Sorting

abbrev RowKey := Text × Text

instance lawfulBEqRowKey : LawfulBEq RowKey := inferInstance

namespace FeedVersion

def lowerId (v : FeedVersion) : Text := v.package.lowerId

def version (v : FeedVersion) : Versions.NuGetVersion := v.package.version

def key (v : FeedVersion) : RowKey := (v.lowerId, v.package.normalizedVersion)

def isPrunable (v : FeedVersion) : Bool := !(v.pinned || v.pending || !v.enabled)

end FeedVersion

/-- The characters of package ids. -/
def isIdChar (c : Char) : Bool := c.isAlphanum || c = '_' || c = '.' || c = '-'

/-- The rows of a feed, each with its package. -/
structure Feed where
  rows : List FeedVersion
  keyed : rows.Pairwise fun v w => v.key ≠ w.key
  ids : ∀ v ∈ rows, v.package.id.all isIdChar = true
  stored : ∀ v ∈ rows, v.version.IsStored

/-- How the database answers statements without an order: with each row once. -/
structure Engine where
  ofId : List FeedVersion → Text → List FeedVersion
  ofIds : List FeedVersion → List Text → List FeedVersion
  ofId_perm rows id : (ofId rows id).Perm (rows.filter fun v => v.lowerId = id)
  ofIds_perm rows ids : (ofIds rows ids).Perm (rows.filter fun v => ids.any (· = v.lowerId))

section Queries

variable (engine : Engine) (rows : List FeedVersion)

/-- `slice::chunks`, where `current` has been collected of the first chunk. -/
def chunksFrom {α : Type} (size : ℕ) : List α → List α → List (List α)
  | current, [] => if current.isEmpty then [] else [current]
  | current, a :: rest =>
    if size ≤ current.length + 1 then (current ++ [a]) :: chunksFrom size [] rest
    else chunksFrom size (current ++ [a]) rest

def chunks {α : Type} (size : ℕ) (l : List α) : List (List α) := chunksFrom size [] l

/-- How many ids a statement is given at most. -/
def idChunk : ℕ := 400

def byVersion (v w : FeedVersion) : Ordering := NuGetVersion.cmp v.version w.version

instance : TransCmp byVersion where
  eq_swap {v w} := (OrientedCmp.eq_swap : NuGetVersion.cmp v.version w.version = _)
  isLE_trans {u _ w} huv hvw :=
    (TransCmp.isLE_trans huv hvw : (NuGetVersion.cmp u.version w.version).isLE)

def byIdThenVersion (v w : FeedVersion) : Ordering :=
  (compare v.lowerId w.lowerId).then (byVersion v w)

def findAllVersions (id : Text) : List FeedVersion :=
  sortBy byVersion (engine.ofId rows (canonicalId id))

def findAllVersionsOf (ids : List Text) : List FeedVersion :=
  sortBy byIdThenVersion
    ((chunks idChunk ids).flatMap fun chunk => engine.ofIds rows (chunk.map canonicalId))

def lowerIds : List Text := sortBy compare (rows.map FeedVersion.lowerId).dedup

/-- One id as published for each package: the last of them in the order of text. -/
def allPackageIds : List Text :=
  (lowerIds rows).filterMap fun id =>
    greatest compare ((rows.filter fun v => v.lowerId = id).map fun v => v.package.id)

end Queries

/-- One version the next cleanup would delete. -/
structure Planned where
  id : Text
  version : Versions.NuGetVersion
  added : Instant
  reason : PruneReason
  deriving DecidableEq

def Planned.key (p : Planned) : RowKey := (canonicalId p.id, p.version.normalized)

structure Preview where
  planned : List Planned
  /-- The pinned versions that are kept regardless. -/
  pinned : List (Text × Versions.NuGetVersion)
  deriving DecidableEq

section Preview

variable (engine : Engine) (policy : RetentionPolicy) (now : Instant) (rows : List FeedVersion)

def planned (versions : List FeedVersion) : List Planned :=
  (planFor versions policy now).filterMap fun p =>
    (versions.find? fun v => NuGetVersion.cmp v.version p.version = .eq).map fun v =>
      ⟨v.package.id, p.version, v.added, p.reason⟩

def pinnedOf (versions : List FeedVersion) : List (Text × Versions.NuGetVersion) :=
  (versions.filter FeedVersion.pinned).map fun v => (v.package.id, v.version)

/-- How many packages a preview reads at once. -/
def previewChunk : ℕ := 200

def chunkVersions (chunk : List Text) : List (List FeedVersion) :=
  let lower := chunk.map canonicalId
  let found := findAllVersionsOf engine rows lower
  lower.map fun id => found.filter fun v => v.lowerId = id

def preview : Preview :=
  let versions := (chunks previewChunk (allPackageIds rows)).flatMap (chunkVersions engine rows)
  ⟨versions.flatMap (planned policy now), versions.flatMap pinnedOf⟩

end Preview

section Sweep

variable (engine : Engine) (policy : RetentionPolicy) (now : Instant)

/-- Delete one planned version from the feed, unless it was pinned or withheld since. -/
def deletePlanned (rows : List FeedVersion) (key : RowKey) : List FeedVersion :=
  match rows.find? fun v => v.key = key with
  | none => rows
  | some v => if v.isPrunable then rows.filter fun v => v.key ≠ key else rows

def prunePackage (rows : List FeedVersion) (id : Text) : List FeedVersion :=
  if policy.hasLimits then
    (planFor (findAllVersions engine rows id) policy now).foldl
      (fun rows p => deletePlanned rows (canonicalId id, p.version.normalized)) rows
  else rows

def pruneAll (rows : List FeedVersion) : List FeedVersion :=
  if policy.hasLimits then
    (allPackageIds rows).foldl (prunePackage engine policy now) rows
  else rows

end Sweep

section Chunks

variable {α : Type}

theorem flatten_chunksFrom (size : ℕ) (current l : List α) :
    (chunksFrom size current l).flatten = current ++ l := by
  induction l generalizing current with
  | nil => cases current <;> simp [chunksFrom]
  | cons a rest ih =>
    unfold chunksFrom
    split_ifs
    · rw [List.flatten_cons, ih]
      simp
    · rw [ih]
      simp

@[simp] theorem flatten_chunks (size : ℕ) (l : List α) : (chunks size l).flatten = l :=
  flatten_chunksFrom size [] l

theorem canonicalId_canonicalId (id : Text) : canonicalId (canonicalId id) = canonicalId id :=
  Text.lower_lower id

theorem canonicalId_lowerId (v : FeedVersion) : canonicalId v.lowerId = v.lowerId :=
  canonicalId_canonicalId v.package.id

end Chunks

section Ids

variable {rows : List FeedVersion} {id : Text}

theorem mem_lowerIds : id ∈ lowerIds rows ↔ ∃ v ∈ rows, v.lowerId = id := by
  simp [lowerIds]

theorem nodup_lowerIds : (lowerIds rows).Nodup :=
  ((perm_sortBy _).nodup_iff).mpr (List.nodup_dedup _)

theorem canonicalId_of_mem (h : id ∈ lowerIds rows) : canonicalId id = id := by
  obtain ⟨v, -, rfl⟩ := mem_lowerIds.mp h
  exact canonicalId_lowerId v

theorem map_allPackageIds (rows : List FeedVersion) :
    (allPackageIds rows).map canonicalId = lowerIds rows := by
  unfold allPackageIds
  rw [List.map_filterMap]
  calc (lowerIds rows).filterMap _ = (lowerIds rows).filterMap some := by
        apply List.filterMap_congr
        intro id hid
        obtain ⟨v, hv, rfl⟩ := mem_lowerIds.mp hid
        cases hbest : greatest compare
            ((rows.filter fun w => w.lowerId = v.lowerId).map fun w => w.package.id) with
        | none =>
          rw [greatest_eq_none, List.map_eq_nil_iff] at hbest
          have hmem : v ∈ rows.filter fun w => w.lowerId = v.lowerId := by simp [hv]
          simp [hbest] at hmem
        | some best =>
          obtain ⟨w, hw, rfl⟩ := List.mem_map.mp (greatest_spec hbest).1
          have hsame : w.lowerId = v.lowerId := by simpa using List.of_mem_filter hw
          exact congrArg some hsame
    _ = lowerIds rows := List.filterMap_some

end Ids

/-- Lists that match item by item are a function's values, where no item is there twice. -/
theorem exists_map_of_forall₂ {α β : Type} [DecidableEq α] [Inhabited β] {R : α → β → Prop}
    {as : List α} {bs : List β} (h : List.Forall₂ R as bs) (hnodup : as.Nodup) :
    ∃ f : α → β, (∀ a ∈ as, R a (f a)) ∧ bs = as.map f := by
  induction h with
  | nil => exact ⟨fun _ => default, by simp, rfl⟩
  | @cons a b as bs hab _ ih =>
    obtain ⟨hnew, hnodup⟩ := List.nodup_cons.mp hnodup
    obtain ⟨f, hf, rfl⟩ := ih hnodup
    have hother : ∀ a' ∈ as, Function.update f a b a' = f a' := by
      intro a' ha'
      have hne : a' ≠ a := by
        rintro rfl
        exact hnew ha'
      exact Function.update_of_ne hne b f
    refine ⟨Function.update f a b, ?_, ?_⟩
    · intro a' ha'
      rcases List.mem_cons.mp ha' with rfl | ha'
      · simpa using hab
      · rw [hother a' ha']
        exact hf a' ha'
    · rw [List.map_cons, Function.update_self]
      exact congrArg (b :: ·) (List.map_congr_left hother).symm

section Listings

variable {engine : Engine} {rows : List FeedVersion} {id : Text}

def IsListing (rows : List FeedVersion) (id : Text) (versions : List FeedVersion) : Prop :=
  versions.Perm (rows.filter fun v => v.lowerId = id)

theorem IsListing.mem_iff {versions : List FeedVersion} (h : IsListing rows id versions)
    {v : FeedVersion} : v ∈ versions ↔ v ∈ rows ∧ v.lowerId = id := by
  have hmem := List.Perm.mem_iff h (a := v)
  simpa using hmem

theorem isListing_findAllVersions (engine : Engine) (rows : List FeedVersion) {id : Text}
    (h : canonicalId id = id) : IsListing rows id (findAllVersions engine rows id) := by
  have hperm := engine.ofId_perm rows (canonicalId id)
  rw [h] at hperm
  unfold IsListing findAllVersions
  rw [h]
  exact (perm_sortBy _).trans hperm

/-- Each package of a statement is there as a whole, from the one chunk of ids it is in. -/
theorem filter_flatMap_ofIds (ids : List (List Text)) (hnodup : ids.flatten.Nodup)
    (hcanonical : ∀ i ∈ ids.flatten, canonicalId i = i) (hid : id ∈ ids.flatten) :
    ((ids.flatMap fun chunk => engine.ofIds rows (chunk.map canonicalId)).filter
      fun v => v.lowerId = id).Perm (rows.filter fun v => v.lowerId = id) := by
  induction ids with
  | nil => simp at hid
  | cons chunk rest ih =>
    rw [List.flatten_cons] at hnodup hcanonical hid
    obtain ⟨-, hrest, hdisjoint⟩ := List.nodup_append.mp hnodup
    rw [List.flatMap_cons, List.filter_append]
    have hlower : chunk.map canonicalId = chunk := by
      conv_rhs => rw [← List.map_id chunk]
      exact List.map_congr_left fun i hi => hcanonical i (List.mem_append_left _ hi)
    rw [hlower]
    have hchunk := (engine.ofIds_perm rows chunk).filter fun v => v.lowerId = id
    rw [List.filter_filter] at hchunk
    by_cases hmem : id ∈ chunk
    · have hnone : ((rest.flatMap fun chunk => engine.ofIds rows (chunk.map canonicalId)).filter
          fun v => v.lowerId = id) = [] := by
        rw [List.filter_eq_nil_iff]
        intro v hv
        obtain ⟨chunk', hchunk', hv⟩ := List.mem_flatMap.mp hv
        have hin := List.of_mem_filter ((engine.ofIds_perm rows _).mem_iff.mp hv)
        obtain ⟨i, hi, heq⟩ := List.any_eq_true.mp hin
        obtain ⟨j, hj, rfl⟩ := List.mem_map.mp hi
        have hj' : j ∈ rest.flatten := List.mem_flatten_of_mem hchunk' hj
        rw [hcanonical j (List.mem_append_right _ hj')] at heq
        have hne := hdisjoint id hmem j hj'
        intro hsame
        apply hne
        have heq : j = v.lowerId := by simpa using heq
        have hsame : v.lowerId = id := by simpa using hsame
        rw [heq, hsame]
      rw [hnone, List.append_nil]
      refine hchunk.trans (List.Perm.of_eq (List.filter_congr fun v _ => ?_))
      by_cases hv : v.lowerId = id
      · simp [hv, hmem]
      · simp [hv]
    · have hnone : ((engine.ofIds rows chunk).filter fun v => v.lowerId = id) = [] := by
        have hempty : (rows.filter fun v => decide (v.lowerId = id) && chunk.any (· = v.lowerId)) =
            [] := by
          rw [List.filter_eq_nil_iff]
          intro v _
          by_cases hv : v.lowerId = id
          · simp [hv, hmem]
          · simp [hv]
        rw [hempty] at hchunk
        exact hchunk.eq_nil
      rw [hnone, List.nil_append]
      have hin : id ∈ rest.flatten := (List.mem_append.mp hid).resolve_left hmem
      exact ih hrest (fun i hi => hcanonical i (List.mem_append_right _ hi)) hin

theorem isListing_findAllVersionsOf {ids : List Text} (hnodup : ids.Nodup)
    (hcanonical : ∀ i ∈ ids, canonicalId i = i) (hid : id ∈ ids) :
    IsListing rows id ((findAllVersionsOf engine rows ids).filter fun v => v.lowerId = id) := by
  unfold IsListing findAllVersionsOf
  refine ((perm_sortBy _).filter _).trans ?_
  apply filter_flatMap_ofIds
  · rwa [flatten_chunks]
  · rwa [flatten_chunks]
  · rwa [flatten_chunks]

theorem listings_preview (engine : Engine) (rows : List FeedVersion) :
    List.Forall₂ (IsListing rows) (lowerIds rows)
      ((chunks previewChunk (allPackageIds rows)).flatMap (chunkVersions engine rows)) := by
  have hall : (allPackageIds rows).map canonicalId = lowerIds rows := map_allPackageIds rows
  have hflat : lowerIds rows =
      ((chunks previewChunk (allPackageIds rows)).map (List.map canonicalId)).flatten := by
    rw [← hall, ← List.map_flatten, flatten_chunks]
  have hnodup : (lowerIds rows).Nodup := nodup_lowerIds
  conv => arg 2; rw [hflat]
  rw [List.flatMap_def]
  apply List.rel_flatten
  rw [List.forall₂_map_left_iff, List.forall₂_map_right_iff, List.forall₂_same]
  intro chunk hchunk
  have hsub : chunk.map canonicalId ∈
      (chunks previewChunk (allPackageIds rows)).map (List.map canonicalId) :=
    List.mem_map_of_mem hchunk
  have hmem : ∀ i ∈ chunk.map canonicalId, i ∈ lowerIds rows := by
    intro i hi
    rw [hflat]
    exact List.mem_flatten_of_mem hsub hi
  have hchunkNodup : (chunk.map canonicalId).Nodup := by
    rw [hflat] at hnodup
    exact (List.nodup_flatten.mp hnodup).1 _ hsub
  unfold chunkVersions
  simp only
  rw [List.forall₂_map_right_iff, List.forall₂_same]
  intro id hid
  exact isListing_findAllVersionsOf hchunkNodup (fun i hi => canonicalId_of_mem (hmem i hi)) hid

theorem preview_eq (engine : Engine) (rows : List FeedVersion) :
    ∃ listing : Text → List FeedVersion,
      (∀ id ∈ lowerIds rows, IsListing rows id (listing id)) ∧ ∀ policy now,
        (preview engine policy now rows).planned =
          (lowerIds rows).flatMap fun id => planned policy now (listing id) := by
  obtain ⟨listing, hlisting, heq⟩ :=
    exists_map_of_forall₂ (listings_preview engine rows) nodup_lowerIds
  refine ⟨listing, hlisting, fun policy now => ?_⟩
  unfold preview
  simp only
  rw [heq, List.flatMap_map]

end Listings

end YaNuget.Retention
