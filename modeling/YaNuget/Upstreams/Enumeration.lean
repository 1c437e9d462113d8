import YaNuget.Data.FirstSeen

/-!
# Discovering the packages of an upstream

Every package id that an upstream exposes: what the pages of its search service
list, and what the pages of its catalog do. The requests the walks make are
parameters, and may fail; so is how the standard library folds case.
-/
namespace YaNuget.Discovery

structure SearchResult where
  id : Option String
  deriving DecidableEq, Repr

/-- A page of the search service. -/
structure SearchPage where
  data : Option (List SearchResult)
  deriving DecidableEq, Repr

structure CatalogItem where
  /-- `@id`: where a page of the catalog is. -/
  id : Option String
  /-- `nuget:id`. -/
  packageId : Option String
  deriving DecidableEq, Repr

/-- The index of a catalog, or a page of it. -/
structure Catalog where
  items : Option (List CatalogItem)
  deriving DecidableEq, Repr

/-- The optional resources of a service index that enumeration uses. -/
structure MirrorResources where
  search : Option String
  catalog : Option String
  deriving DecidableEq, Repr

/-- An upstream, as the client sees it. A document that answers 404 is `none`. -/
structure Upstream where
  url : String
  resources : Except String MirrorResources
  getSearchPage : String → Except String (Option SearchPage)
  /-- With the URL the index came from in the end. -/
  getCatalogIndex : String → Except String (Option (Catalog × String))
  getCatalogPage : String → Except String (Option Catalog)
  resolveId : String → String → Option String
  redactUrl : String → String
  toLowercase : String → String

/-- The ids, and `(what, error)` for each part that failed to load. -/
structure Enumeration where
  ids : List String
  failures : List (String × String)
  deriving DecidableEq, Repr

/-- How many results a request for a search page asks for. -/
def pageSize : ℕ := 100

/-- Stops a source that never runs dry. -/
def maxPages : ℕ := 50000

def searchUrl (search : String) (skip : ℕ) : String :=
  let sep := if search.toList.contains '?' then "&" else "?"
  search ++ sep ++ "q=&skip=" ++ toString skip ++ "&take=" ++ toString pageSize ++
    "&prerelease=true&semVerLevel=2.0.0"

def SearchPage.length (doc : SearchPage) : ℕ := doc.data.elim 0 List.length

def pageIds (doc : SearchPage) : List String := (doc.data.getD []).filterMap SearchResult.id

namespace Upstream

variable (u : Upstream)

/-- Ids in the order they are first seen, no two alike but for case. -/
abbrev DedupIds : Type := FirstSeen u.toLowercase

/-- The error for a document the upstream said does not exist. -/
def notFound (what url : String) : String :=
  "upstream " ++ what ++ " " ++ u.redactUrl url ++ " answered 404 Not Found"

def existing {α : Type} (what url : String) : Except String (Option α) → Except String α
  | .ok (some doc) => .ok doc
  | .ok none => .error (u.notFound what url)
  | .error e => .error e

/-- The walk over at most `pages` pages from `skip` on, with the requests it makes. -/
def searchPages (search : String) :
    (pages skip : ℕ) → u.DedupIds → Except String u.DedupIds × List String
  | 0, _, ids => (.ok ids, [])
  | pages + 1, skip, ids =>
    let url := searchUrl search skip
    match u.existing "search page" url (u.getSearchPage url) with
    | .error e => (.error e, [url])
    | .ok doc =>
      if doc.length = 0 then (.ok ids, [url])
      else
        let found := ids.pushAll (pageIds doc)
        -- A page of nothing but known ids: the source does not honour `skip`.
        if found.items.length = ids.items.length then (.ok found, [url])
        else
          let rest := searchPages search pages (skip + doc.length) found
          (rest.1, url :: rest.2)

def enumerateViaSearch (search : String) : Except String u.DedupIds × List String :=
  u.searchPages search maxPages 0 .empty

/-- Where the pages of a catalog are, relative to where its index came from. -/
def pageUrls (index : Catalog) (indexUrl : String) : List String :=
  ((index.items.getD []).filterMap CatalogItem.id).map fun id =>
    (u.resolveId indexUrl id).getD id

def catalogIds (page : Catalog) : List String :=
  (page.items.getD []).filterMap CatalogItem.packageId

def readPage (state : u.DedupIds × List (String × String)) (pageUrl : String) :
    u.DedupIds × List (String × String) :=
  match u.existing "catalog page" pageUrl (u.getCatalogPage pageUrl) with
  | .ok page => (state.1.pushAll (catalogIds page), state.2)
  | .error e => (state.1, state.2 ++ [("catalog page " ++ u.redactUrl pageUrl, e)])

/-- The ids on the pages of the catalog, and the pages that failed. -/
def enumerateViaCatalog (catalog : String) :
    Except String (u.DedupIds × List (String × String)) := do
  let (index, indexUrl) ← u.existing "catalog index" catalog (u.getCatalogIndex catalog)
  pure ((u.pageUrls index indexUrl).foldl u.readPage (.empty, []))

/-- What search adds: one that fails is not fatal when there is a catalog. -/
def searchPart (res : MirrorResources) : Except String u.DedupIds :=
  match res.search with
  | none => .ok .empty
  | some search =>
    match (u.enumerateViaSearch search).1 with
    | .ok found => .ok (FirstSeen.empty.pushAll found.items)
    | .error e => if res.catalog.isSome then .ok .empty else .error e

/-- What the catalog adds to what search found. -/
def catalogPart (res : MirrorResources) (ids : u.DedupIds) :
    Except String (u.DedupIds × List (String × String)) :=
  match res.catalog with
  | none => .ok (ids, [])
  | some catalog =>
    match u.enumerateViaCatalog catalog with
    | .ok (found, failures) => .ok (ids.pushAll found.items, failures)
    | .error e => if res.search.isSome then .ok (ids, [("catalog", e)]) else .error e

/-- Discover every package id the upstream exposes. -/
def enumeratePackageIds : Except String Enumeration := do
  let res ← u.resources
  if res.search.isNone && res.catalog.isNone then
    .error ("upstream " ++ u.redactUrl u.url ++
      " exposes neither SearchQueryService nor Catalog/3.0.0; cannot enumerate packages")
  else do
    let ids ← u.searchPart res
    let (ids, failures) ← u.catalogPart res ids
    pure ⟨ids.items, failures⟩

end Upstream

end YaNuget.Discovery
