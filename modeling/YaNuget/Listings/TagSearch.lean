import Mathlib.Data.List.Dedup
import YaNuget.Data.CaseMapping
import YaNuget.Listings.Headlines

/-!
# Tags and the gallery's search

Each version's tags are indexed when it is stored. The tags that are in use are
counted over that index, and each is shown as a link to the gallery filtered by
it. The index is filled by SQL, which folds the case of ASCII letters and strips
spaces; the link and the filter are folded by the rules of Unicode.
-/
namespace YaNuget.Listings

open Std Sorting

/-- A version in a feed, with what else a search reads of it. -/
structure TaggedRow extends FeedRow where
  published : Text
  packageTypes : List Text
  /-- The tags as pushed. -/
  tags : List Text

/-- The versions in the feeds. A version has the same tags in each of them. -/
structure Catalog where
  rows : List TaggedRow
  keyed : Keyed (rows.map TaggedRow.toFeedRow)
  shared : ∀ r ∈ rows, ∀ r' ∈ rows, r.lowerId = r'.lowerId →
    r.normalizedVersion = r'.normalizedVersion → r.tags = r'.tags

def sqlTrim (value : Text) : Text :=
  ((value.dropWhile (· = ' ')).reverse.dropWhile (· = ' ')).reverse

def maxTags : ℕ := 64

def maxTagChars : ℕ := 64

def indexedTag (value : Text) : Text := Text.lower ((sqlTrim value).take maxTagChars)

def indexedTags (tags : List Text) : List Text :=
  ((tags.take maxTags).filter fun value => sqlTrim value ≠ []).map indexedTag

/-- A row of `package_tags`. -/
structure PackageTag where
  lowerId : Text
  normalizedVersion : Text
  tag : Text
  deriving DecidableEq, Repr

def insertTags (index : List PackageTag) (r : TaggedRow) : List PackageTag :=
  (indexedTags r.tags).foldl
    (fun index tag => index.insert ⟨r.lowerId, r.normalizedVersion, tag⟩) index

namespace Catalog

def packageTags (catalog : Catalog) : List PackageTag := catalog.rows.foldl insertTags []

structure TagCount where
  tag : Text
  packages : ℕ
  deriving DecidableEq, Repr

def TagCount.cmp (a b : TagCount) : Ordering :=
  (compare b.packages a.packages).then (compare a.tag b.tag)

section Queries

variable (table : CaseTable) (catalog : Catalog) (feed : String)

def shown (r : FeedRow) : Bool := r.feed == feed && r.listed && r.enabled && !r.pending

def shownTags : List PackageTag :=
  catalog.packageTags.flatMap fun pt =>
    (catalog.rows.filter fun r => shown feed r.toFeedRow && r.lowerId == pt.lowerId &&
      r.normalizedVersion == pt.normalizedVersion).map fun _ => pt

/-- The most used tags, and how many packages have each. -/
def tagCounts (limit : ℤ) : List TagCount :=
  let shown := catalog.shownTags feed
  let counts := (shown.map PackageTag.tag).dedup.map fun tag =>
    { tag, packages := ((shown.filter (·.tag = tag)).map PackageTag.lowerId).dedup.length }
  (sortBy TagCount.cmp counts).take (max limit 0).toNat

end Queries

end Catalog

inductive SearchSort where
  | downloads
  | name
  | updated
  deriving DecidableEq, Repr

structure SearchRequest where
  query : Text
  skip : ℤ
  take : ℤ
  includePrerelease : Bool
  includeSemver2 : Bool
  packageType : Option Text
  sort : SearchSort
  tag : Option Text
  headlinesOnly : Bool

structure SearchPage where
  totalHits : ℕ
  groups : List SearchGroup

/-- A package that matches, with what the pages are ordered by. -/
structure Ranked where
  lowerId : Text
  total : ℕ
  updated : Text

def SearchSort.cmp : SearchSort → Ranked → Ranked → Ordering
  | .downloads, a, b => (compare b.total a.total).then (compare a.lowerId b.lowerId)
  | .name, a, b => compare a.lowerId b.lowerId
  | .updated, a, b => (compare b.updated a.updated).then (compare a.lowerId b.lowerId)

def maxQueryChars : ℕ := 256

def searchTerms (table : CaseTable) (query : Text) : Text :=
  table.toLowercase ((trim query).take maxQueryChars)

/-- The orders that the queries which load a page meet the rows in. -/
structure ReadOrders (content : List FeedRow) where
  groups : ℕ → List FeedRow
  keys : ℕ → List FeedRow
  full : ℕ → List FeedRow
  perm_groups : ∀ i, (groups i).Perm content
  perm_keys : ∀ i, (keys i).Perm content
  perm_full : ∀ i, (full i).Perm content

namespace Catalog

def content (catalog : Catalog) : List FeedRow := catalog.rows.map TaggedRow.toFeedRow

section Search

variable (table : CaseTable) (catalog : Catalog) (feed : String)
  /- Whether the full-text index finds a version. -/
  (finds : Text → TaggedRow → Bool)

def matching (request : SearchRequest) : List TaggedRow :=
  let query := searchTerms table request.query
  let packageType := table.toLowercase (request.packageType.getD [])
  let tag := table.toLowercase (trim (request.tag.getD []))
  catalog.rows.filter fun r =>
    (Filter.mk feed request.includePrerelease request.includeSemver2).admits true r.toFeedRow &&
      (query = [] || finds query r) &&
      (packageType = [] || r.packageTypes.any (Text.lower · = packageType)) &&
      (tag = [] || ⟨r.lowerId, r.normalizedVersion, tag⟩ ∈ catalog.packageTags)

/-- The packages that match, in order. -/
def ranking (request : SearchRequest) : List Ranked :=
  let rows := catalog.matching table feed finds request
  sortBy request.sort.cmp <| (rows.map fun r => r.lowerId).dedup.map fun lowerId =>
    let versions := rows.filter (·.lowerId = lowerId)
    { lowerId
      total := (versions.map fun r => r.downloads).sum
      updated := (versions.map TaggedRow.published).foldl
        (fun a b => if (compare a b).isLE then b else a) [] }

def search (orders : ReadOrders catalog.content) (request : SearchRequest) : SearchPage :=
  let ranking := catalog.ranking table feed finds request
  let ids := ((ranking.drop (max request.skip 0).toNat).take (max request.take 0).toNat).map
    Ranked.lowerId
  let f : Filter := ⟨feed, request.includePrerelease, request.includeSemver2⟩
  { totalHits :=
      ((catalog.matching table feed finds request).map fun r => r.lowerId).dedup.length
    groups :=
      if request.headlinesOnly then loadHeadlines catalog.content f orders.keys orders.full ids
      else loadGroups catalog.content f true orders.groups ids }

end Search

end Catalog

def tagHref (table : CaseTable) (tag : Text) : Text := table.toLowercase tag

/-- A tag worth querying for: trimmed and lower-cased, if a stored tag could equal it. -/
def galleryTag (table : CaseTable) (raw : Option Text) : Option Text :=
  (raw.map fun raw => table.toLowercase (trim raw)).filter fun tag =>
    tag ≠ [] && tag.length ≤ maxTagChars && !tag.any fun c => isWhitespace c || isControl c

/-- What the gallery asks for without a query. -/
def galleryRequest (table : CaseTable) (tag : Option Text) (sort : SearchSort) (skip take : ℤ) :
    SearchRequest where
  query := []
  skip
  take
  includePrerelease := true
  includeSemver2 := true
  packageType := none
  sort
  tag := galleryTag table tag
  headlinesOnly := true

end YaNuget.Listings
