import YaNuget.Data.Outcomes
import YaNuget.Data.Text
import YaNuget.Upstreams.Enumeration

/-!
# What an enumeration finds

An upstream exposes one fixed list of packages through its search service, cut
into pages as it likes, and others through its catalog; any request may fail.
An enumeration that succeeds should have every id, or name what it could not
read.
-/
namespace YaNuget.Discovery

open Outcomes

/-- The packages a search service lists, and how many it returns from each place on. -/
structure SearchList (lower : String → String) where
  packages : List String
  distinct : (packages.map lower).Nodup
  pageLength : ℕ → ℕ
  pageLength_pos : ∀ skip < packages.length, 1 ≤ pageLength skip
  pageLength_le : ∀ skip, pageLength skip ≤ pageSize

namespace SearchList

theorem single_pos : 1 ≤ 1 := Nat.le_refl 1

theorem single_le : 1 ≤ pageSize := by simp [pageSize]

variable {lower : String → String} (list : SearchList lower)

def slice (skip : ℕ) : List String := (list.packages.drop skip).take (list.pageLength skip)

/-- Where the page after `k` others starts. -/
def start (list : SearchList lower) : ℕ → ℕ
  | 0 => 0
  | k + 1 => start list k + (list.slice (start list k)).length

theorem take_start_succ (k : ℕ) : list.packages.take (list.start (k + 1)) =
    list.packages.take (list.start k) ++ list.slice (list.start k) := by
  have hslice : list.slice (list.start k) =
      (list.packages.drop (list.start k)).take (list.slice (list.start k)).length := by
    simp only [slice, List.length_take, List.take_eq_take_iff]
    omega
  rw [start, List.take_add, ← hslice]

theorem slice_eq_nil {skip : ℕ} : list.slice skip = [] ↔ list.packages.length ≤ skip := by
  unfold slice
  rw [List.take_eq_nil_iff, List.drop_eq_nil_iff]
  constructor
  · rintro (hzero | hlength)
    · by_contra hlt
      have := list.pageLength_pos skip (Nat.lt_of_not_le hlt)
      omega
    · exact hlength
  · exact Or.inr

/-- The page behind the last package is asked for again and again. -/
theorem start_of_le {k j : ℕ} (hend : list.packages.length ≤ list.start k) (hj : k ≤ j) :
    list.start j = list.start k := by
  induction hj with
  | refl => rfl
  | step _ ih =>
    have hempty : list.slice (list.start k) = [] := list.slice_eq_nil.mpr hend
    rw [start, ih, hempty, List.length_nil, Nat.add_zero]

/-- The pages are fewer than the walk reads at most. -/
def WithinValve : Prop := ∃ k < maxPages, list.packages.length ≤ list.start k

end SearchList

/-- What an upstream exposes. -/
structure Feed (lower : String → String) where
  resources : MirrorResources
  list : SearchList lower
  index : Catalog
  indexUrl : String
  page : String → Catalog

def Fails {α : Type} (answer : Except String (Option α)) : Prop := ∀ doc, answer ≠ .ok (some doc)

/-- A part of an upstream that enumeration reads. -/
inductive Part where
  | search
  | catalogIndex
  | catalogPage (url : String)

namespace Upstream

variable (u : Upstream)

/-- Each request of the upstream fails, or is answered by what it exposes. -/
structure Serves (feed : Feed u.toLowercase) : Prop where
  resources : u.resources = .ok feed.resources ∨ ∃ e, u.resources = .error e
  search : ∀ search ∈ feed.resources.search, ∀ skip,
    Fails (u.getSearchPage (searchUrl search skip)) ∨
      ∃ page, u.getSearchPage (searchUrl search skip) = .ok (some page) ∧
        page.data.getD [] = (feed.list.slice skip).map fun id => ⟨some id⟩
  catalogIndex : ∀ catalog ∈ feed.resources.catalog, Fails (u.getCatalogIndex catalog) ∨
    u.getCatalogIndex catalog = .ok (some (feed.index, feed.indexUrl))
  catalogPage : ∀ url, Fails (u.getCatalogPage url) ∨
    u.getCatalogPage url = .ok (some (feed.page url))

/-- The part was asked for, and could not be read. -/
def Unread (feed : Feed u.toLowercase) : Part → Prop
  | .search => ∃ search ∈ feed.resources.search, ∃ k,
      Fails (u.getSearchPage (searchUrl search (feed.list.start k)))
  | .catalogIndex => ∃ catalog ∈ feed.resources.catalog, Fails (u.getCatalogIndex catalog)
  | .catalogPage url => ∃ catalog ∈ feed.resources.catalog,
      ¬ Fails (u.getCatalogIndex catalog) ∧ url ∈ u.pageUrls feed.index feed.indexUrl ∧
        Fails (u.getCatalogPage url)

/-- What names a part among the failures. For search anything does that names no part of the
catalog. -/
def Names : Part → String → Prop
  | .search, what => what ≠ "catalog" ∧ ∀ url, what ≠ "catalog page " ++ u.redactUrl url
  | .catalogIndex, what => what = "catalog"
  | .catalogPage url, what => what = "catalog page " ++ u.redactUrl url

def Exposes (feed : Feed u.toLowercase) (id : String) : Prop :=
  (feed.resources.search.isSome ∧ id ∈ feed.list.packages) ∨
    (feed.resources.catalog.isSome ∧
      ∃ url ∈ u.pageUrls feed.index feed.indexUrl, id ∈ catalogIds (feed.page url))

/-- These are the ids the upstream exposes, each once ignoring case. -/
structure Complete (feed : Feed u.toLowercase) (ids : List String) : Prop where
  once : (ids.map u.toLowercase).Nodup
  exposed : ∀ id ∈ ids, u.Exposes feed id
  all : ∀ id, u.Exposes feed id → u.toLowercase id ∈ ids.map u.toLowercase

/-- An enumeration that succeeds is complete, or names what it could not read. -/
def CompleteOrSaysSo (feed : Feed u.toLowercase) : Prop :=
  ∀ found, u.enumeratePackageIds = .ok found →
    (found.failures = [] → u.Complete feed found.ids) ∧
      ∀ part, u.Unread feed part → ∃ failure ∈ found.failures, u.Names part failure.1

variable {u}

theorem existing_eq_ok {α : Type} {what url : String} {answer : Except String (Option α)}
    {doc : α} : u.existing what url answer = .ok doc ↔ answer = .ok (some doc) := by
  rcases answer with e | _ | doc' <;> simp [existing]

theorem existing_of_fails {α : Type} {answer : Except String (Option α)} (h : Fails answer)
    (what url : String) : ∃ e, u.existing what url answer = .error e := by
  rcases answer with e | _ | doc
  · exact ⟨e, rfl⟩
  · exact ⟨_, rfl⟩
  · exact (h doc rfl).elim

section Search

variable {feed : Feed u.toLowercase} {search : String}

theorem pageIds_of_data {page : SearchPage} {ids : List String}
    (h : page.data.getD [] = ids.map fun id => ⟨some id⟩) :
    pageIds page = ids ∧ page.length = ids.length := by
  have hlength : page.length = (page.data.getD []).length := by
    cases hdata : page.data <;> simp [SearchPage.length, hdata]
  constructor
  · rw [pageIds, h, List.filterMap_map]
    exact List.filterMap_some
  · rw [hlength, h, List.length_map]

/-- From the start of a page on the walk reads every further page, or fails at one. -/
theorem searchPages_spec (hsearch : search ∈ feed.resources.search) (h : u.Serves feed)
    {pages k m : ℕ} {ids : u.DedupIds} (hids : ids.items = feed.list.packages.take (feed.list.start k))
    (hm : m < pages) (hend : feed.list.packages.length ≤ feed.list.start (k + m)) :
    ((∃ e, (u.searchPages search pages (feed.list.start k) ids).1 = .error e) ∧
      ∃ j, k ≤ j ∧ Fails (u.getSearchPage (searchUrl search (feed.list.start j)))) ∨
    ((∃ found, (u.searchPages search pages (feed.list.start k) ids).1 = .ok found ∧
        found.items = feed.list.packages) ∧
      ∀ j, k ≤ j → ¬ Fails (u.getSearchPage (searchUrl search (feed.list.start j)))) := by
  induction pages generalizing k m ids with
  | zero => omega
  | succ pages ih =>
    rcases h.search search hsearch (feed.list.start k) with hfails | ⟨page, hpage, hdata⟩
    · obtain ⟨e, he⟩ := existing_of_fails (u := u) hfails "search page"
        (searchUrl search (feed.list.start k))
      left
      exact ⟨⟨e, by simp [searchPages, he]⟩, k, Nat.le_refl k, hfails⟩
    · have hread : u.existing "search page" (searchUrl search (feed.list.start k))
          (u.getSearchPage (searchUrl search (feed.list.start k))) = .ok page :=
        existing_eq_ok.mpr hpage
      have hanswered : ¬ Fails (u.getSearchPage (searchUrl search (feed.list.start k))) :=
        fun hfails => hfails page hpage
      obtain ⟨hpageIds, hlength⟩ := pageIds_of_data hdata
      by_cases hlast : feed.list.packages.length ≤ feed.list.start k
      · have hempty : page.length = 0 := by
          rw [hlength, feed.list.slice_eq_nil.mpr hlast, List.length_nil]
        right
        refine ⟨⟨ids, by simp [searchPages, hread, hempty], ?_⟩, fun j hj => ?_⟩
        · rw [hids, List.take_of_length_le hlast]
        · rw [feed.list.start_of_le hlast hj]
          exact hanswered
      · have hnonempty : feed.list.slice (feed.list.start k) ≠ [] :=
          fun hnil => hlast (feed.list.slice_eq_nil.mp hnil)
        have hpositive : page.length ≠ 0 := by
          rw [hlength]
          simpa using hnonempty
        have hfound : (ids.pushAll (pageIds page)).items =
            feed.list.packages.take (feed.list.start (k + 1)) := by
          have hall : ids.items ++ pageIds page =
              feed.list.packages.take (feed.list.start (k + 1)) := by
            rw [hids, hpageIds, feed.list.take_start_succ]
          rw [FirstSeen.items_pushAll_of_nodup, hall]
          rw [hall, List.map_take]
          exact feed.list.distinct.sublist (List.take_sublist _ _)
        have hmore : (ids.pushAll (pageIds page)).items.length ≠ ids.items.length := by
          rw [hfound, hids, feed.list.take_start_succ, List.length_append]
          have := List.length_pos_of_ne_nil hnonempty
          omega
        have hnext : feed.list.start k + page.length = feed.list.start (k + 1) := by
          rw [hlength, SearchList.start]
        have hwalk : (u.searchPages search (pages + 1) (feed.list.start k) ids).1 =
            (u.searchPages search pages (feed.list.start (k + 1)) (ids.pushAll (pageIds page))).1 := by
          simp [searchPages, hread, hpositive, hmore, hnext]
        have hm' : m ≠ 0 := by
          rintro rfl
          exact hlast hend
        have hend' : feed.list.packages.length ≤ feed.list.start (k + 1 + (m - 1)) := by
          rwa [show k + 1 + (m - 1) = k + m by omega]
        rw [hwalk]
        rcases ih hfound (by omega) hend' with ⟨herror, j, hj, hfails⟩ | ⟨hok, hrest⟩
        · exact Or.inl ⟨herror, j, by omega, hfails⟩
        · refine Or.inr ⟨hok, fun j hj => ?_⟩
          rcases Nat.eq_or_lt_of_le hj with rfl | hlt
          · exact hanswered
          · exact hrest j hlt

/-- The walk over the search pages finds the packages of the list, or a page of it failed. -/
theorem enumerateViaSearch_spec (hsearch : search ∈ feed.resources.search) (h : u.Serves feed)
    (hvalve : feed.list.WithinValve) :
    ((∃ e, (u.enumerateViaSearch search).1 = .error e) ∧ u.Unread feed .search) ∨
    ((∃ found, (u.enumerateViaSearch search).1 = .ok found ∧
        found.items = feed.list.packages) ∧ ¬ u.Unread feed .search) := by
  obtain ⟨m, hm, hend⟩ := hvalve
  have hstart : (FirstSeen.empty : u.DedupIds).items =
      feed.list.packages.take (feed.list.start 0) := by simp [SearchList.start]
  have hwalk := searchPages_spec hsearch h hstart hm (by simpa using hend)
  rcases hwalk with ⟨herror, j, -, hfails⟩ | ⟨hok, hread⟩
  · exact Or.inl ⟨herror, search, hsearch, j, hfails⟩
  · refine Or.inr ⟨hok, ?_⟩
    rintro ⟨search', hsearch', j, hfails⟩
    obtain rfl : search = search' := Option.mem_unique hsearch hsearch'
    exact hread j (Nat.zero_le j) hfails

end Search

section Catalog

variable (u)

def pageFound (pageUrl : String) : List String :=
  (u.existing "catalog page" pageUrl (u.getCatalogPage pageUrl)).toOption.elim [] catalogIds

def pageFailures (pageUrl : String) : List (String × String) :=
  match u.existing "catalog page" pageUrl (u.getCatalogPage pageUrl) with
  | .ok _ => []
  | .error e => [("catalog page " ++ u.redactUrl pageUrl, e)]

variable {u} {pageUrl : String} {pageUrls : List String}

theorem readPage_eq (state : u.DedupIds × List (String × String)) :
    u.readPage state pageUrl =
      (state.1.pushAll (u.pageFound pageUrl), state.2 ++ u.pageFailures pageUrl) := by
  cases hread : u.existing "catalog page" pageUrl (u.getCatalogPage pageUrl) with
  | error e => simp [readPage, pageFound, pageFailures, hread, Except.toOption, FirstSeen.pushAll]
  | ok page => simp [readPage, pageFound, pageFailures, hread, Except.toOption]

theorem readPages_eq (state : u.DedupIds × List (String × String)) :
    pageUrls.foldl u.readPage state =
      (state.1.pushAll (pageUrls.flatMap u.pageFound),
        state.2 ++ pageUrls.flatMap u.pageFailures) := by
  induction pageUrls generalizing state with
  | nil => simp [FirstSeen.pushAll]
  | cons pageUrl pageUrls ih =>
    rw [List.foldl_cons, readPage_eq, ih]
    simp [FirstSeen.pushAll_append]

theorem pageFailures_of_fails (h : Fails (u.getCatalogPage pageUrl)) :
    ∃ e, u.pageFailures pageUrl = [("catalog page " ++ u.redactUrl pageUrl, e)] := by
  obtain ⟨e, he⟩ := existing_of_fails (u := u) h "catalog page" pageUrl
  exact ⟨e, by simp [pageFailures, he]⟩

theorem of_mem_pageFailures {failure : String × String} (h : failure ∈ u.pageFailures pageUrl) :
    failure.1 = "catalog page " ++ u.redactUrl pageUrl := by
  unfold pageFailures at h
  split at h
  · simp at h
  · rw [List.mem_singleton.mp h]

variable {feed : Feed u.toLowercase}

theorem pageFound_eq (h : u.Serves feed) (hread : u.pageFailures pageUrl = []) :
    u.pageFound pageUrl = catalogIds (feed.page pageUrl) := by
  rcases h.catalogPage pageUrl with hfails | hpage
  · obtain ⟨e, he⟩ := pageFailures_of_fails hfails
    simp [he] at hread
  · simp [pageFound, existing_eq_ok.mpr hpage, Except.toOption]

theorem pageFound_subset (h : u.Serves feed) {id : String} (hid : id ∈ u.pageFound pageUrl) :
    id ∈ catalogIds (feed.page pageUrl) := by
  rcases h.catalogPage pageUrl with hfails | hpage
  · obtain ⟨e, he⟩ := existing_of_fails (u := u) hfails "catalog page" pageUrl
    simp [pageFound, he, Except.toOption] at hid
  · simpa [pageFound, existing_eq_ok.mpr hpage, Except.toOption] using hid

/-- The walk over the catalog reads each page of its index, unless the index failed. -/
theorem enumerateViaCatalog_spec {catalog : String} (hcatalog : catalog ∈ feed.resources.catalog)
    (h : u.Serves feed) :
    ((∃ e, u.enumerateViaCatalog catalog = .error e) ∧ Fails (u.getCatalogIndex catalog)) ∨
    (u.enumerateViaCatalog catalog =
        .ok (FirstSeen.empty.pushAll ((u.pageUrls feed.index feed.indexUrl).flatMap u.pageFound),
          (u.pageUrls feed.index feed.indexUrl).flatMap u.pageFailures) ∧
      ¬ Fails (u.getCatalogIndex catalog)) := by
  rcases h.catalogIndex catalog hcatalog with hfails | hindex
  · obtain ⟨e, he⟩ := existing_of_fails (u := u) hfails "catalog index" catalog
    left
    exact ⟨⟨e, by simp [enumerateViaCatalog, he, bind, Except.bind]⟩, hfails⟩
  · right
    refine ⟨?_, fun hfails => hfails _ hindex⟩
    simp [enumerateViaCatalog, existing_eq_ok.mpr hindex, bind, Except.bind, pure, Except.pure,
      readPages_eq]

end Catalog

section Enumeration

variable {feed : Feed u.toLowercase}

theorem enumeratePackageIds_eq_ok {found : Enumeration} :
    u.enumeratePackageIds = .ok found ↔ ∃ res ids state, u.resources = .ok res ∧
      (res.search.isSome ∨ res.catalog.isSome) ∧ u.searchPart res = .ok ids ∧
      u.catalogPart res ids = .ok state ∧ found = ⟨state.1.items, state.2⟩ := by
  unfold enumeratePackageIds
  rw [bind_eq_ok]
  constructor
  · rintro ⟨res, hres, hok⟩
    split_ifs at hok with hnone
    obtain ⟨ids, hids, hok⟩ := bind_eq_ok.mp hok
    obtain ⟨state, hstate, hok⟩ := bind_eq_ok.mp hok
    refine ⟨res, ids, state, hres, ?_, hids, hstate, (Except.ok.inj hok).symm⟩
    rw [Option.isSome_iff_ne_none, Option.isSome_iff_ne_none, ← not_and_or]
    simpa using hnone
  · rintro ⟨res, ids, state, hres, hsome, hids, hstate, rfl⟩
    have hnone : ¬ (res.search.isNone && res.catalog.isNone) = true := by
      rw [Option.isSome_iff_ne_none, Option.isSome_iff_ne_none, ← not_and_or] at hsome
      simpa using hsome
    refine ⟨res, hres, ?_⟩
    rw [if_neg hnone]
    exact bind_eq_ok.mpr ⟨ids, hids, bind_eq_ok.mpr ⟨state, hstate, rfl⟩⟩

/-- Search adds its whole list, or nothing: there is none, or it failed beside a catalog. -/
theorem searchPart_spec (h : u.Serves feed) (hvalve : feed.list.WithinValve) {ids : u.DedupIds}
    (hok : u.searchPart feed.resources = .ok ids) :
    (feed.resources.search.isSome ∧ ids.items = feed.list.packages ∧ ¬ u.Unread feed .search) ∨
    (feed.resources.search = none ∧ ids.items = []) ∨
    (feed.resources.catalog.isSome ∧ u.Unread feed .search) := by
  unfold searchPart at hok
  split at hok
  · next hnone =>
    cases hok
    exact Or.inr (Or.inl ⟨hnone, rfl⟩)
  · next search hsearch =>
    rcases enumerateViaSearch_spec hsearch h hvalve with
      ⟨⟨e, he⟩, hunread⟩ | ⟨⟨found, hfound, hitems⟩, hread⟩
    · simp only [he] at hok
      split_ifs at hok with hcatalog
      exact Or.inr (Or.inr ⟨hcatalog, hunread⟩)
    · simp only [hfound, Except.ok.injEq] at hok
      subst hok
      refine Or.inl ⟨by simp [hsearch], ?_, hread⟩
      rw [FirstSeen.items_pushAll_of_nodup] <;> simp [hitems, feed.list.distinct]

/-- The catalog adds what its pages hold, or is reported, unless there is none. -/
theorem catalogPart_spec (h : u.Serves feed) {ids : u.DedupIds}
    {state : u.DedupIds × List (String × String)}
    (hok : u.catalogPart feed.resources ids = .ok state) :
    (feed.resources.catalog = none ∧ state = (ids, [])) ∨
    (∃ catalog ∈ feed.resources.catalog,
      (Fails (u.getCatalogIndex catalog) ∧ ∃ e, state = (ids, [("catalog", e)])) ∨
      (¬ Fails (u.getCatalogIndex catalog) ∧
        (∀ k, k ∈ state.1.items.map u.toLowercase ↔ k ∈ ids.items.map u.toLowercase ∨
          k ∈ ((u.pageUrls feed.index feed.indexUrl).flatMap u.pageFound).map u.toLowercase) ∧
        (∀ id ∈ state.1.items, id ∈ ids.items ∨
          id ∈ (u.pageUrls feed.index feed.indexUrl).flatMap u.pageFound) ∧
        state.2 = (u.pageUrls feed.index feed.indexUrl).flatMap u.pageFailures)) := by
  unfold catalogPart at hok
  split at hok
  · next hnone =>
    cases hok
    exact Or.inl ⟨hnone, rfl⟩
  · next catalog hcatalog =>
    refine Or.inr ⟨catalog, hcatalog, ?_⟩
    rcases enumerateViaCatalog_spec hcatalog h with ⟨⟨e, he⟩, hfails⟩ | ⟨hfound, hread⟩
    · simp only [he] at hok
      split_ifs at hok
      cases hok
      exact Or.inl ⟨hfails, e, rfl⟩
    · simp only [hfound, Except.ok.injEq] at hok
      subst hok
      refine Or.inr ⟨hread, fun k => ?_, fun id hid => ?_, rfl⟩
      · simp [FirstSeen.mem_keys_pushAll]
      · refine (FirstSeen.mem_pushAll hid).imp_right fun hadded => ?_
        exact (FirstSeen.mem_pushAll hadded).resolve_left (by simp)

theorem catalogPart_failures (h : u.Serves feed) {ids : u.DedupIds}
    {state : u.DedupIds × List (String × String)}
    (hok : u.catalogPart feed.resources ids = .ok state) :
    ∀ failure ∈ state.2, ¬ u.Names .search failure.1 := by
  rintro failure hfailure ⟨hindex, hpages⟩
  rcases catalogPart_spec h hok with ⟨-, rfl⟩ | ⟨catalog, -, ⟨-, e, rfl⟩ | ⟨-, -, -, hfailures⟩⟩
  · simp at hfailure
  · obtain rfl : failure = ("catalog", e) := by simpa using hfailure
    exact hindex rfl
  · rw [hfailures] at hfailure
    obtain ⟨pageUrl, -, hmem⟩ := List.mem_flatMap.mp hfailure
    exact hpages pageUrl (of_mem_pageFailures hmem)

variable (u feed) in
/-- A search page fails while there is a catalog to fall back on. -/
def SearchLost : Prop :=
  u.resources = .ok feed.resources ∧ feed.resources.catalog.isSome ∧ u.Unread feed .search

/-- A search that fails beside a catalog is not reported. -/
theorem not_named_of_searchLost (h : u.Serves feed) (hvalve : feed.list.WithinValve)
    (hlost : u.SearchLost feed) : ¬ u.CompleteOrSaysSo feed := by
  obtain ⟨hres, hcatalog, hunread⟩ := hlost
  obtain ⟨search, hsearch, -⟩ := id hunread
  have hpart : ∃ ids, u.searchPart feed.resources = .ok ids := by
    obtain ⟨⟨e, he⟩, -⟩ := (enumerateViaSearch_spec hsearch h hvalve).resolve_right
      fun hread => hread.2 hunread
    have hsome : feed.resources.search = some search := hsearch
    exact ⟨.empty, by simp [searchPart, hsome, he, hcatalog]⟩
  obtain ⟨ids, hids⟩ := hpart
  have hstate : ∃ state, u.catalogPart feed.resources ids = .ok state := by
    obtain ⟨catalog, hcatalog⟩ := Option.isSome_iff_exists.mp hcatalog
    have hsome : feed.resources.search = some search := hsearch
    rcases enumerateViaCatalog_spec hcatalog h with ⟨⟨e, he⟩, -⟩ | ⟨hfound, -⟩
    · exact ⟨_, by simp [catalogPart, hcatalog, he, hsome]; rfl⟩
    · exact ⟨_, by simp [catalogPart, hcatalog, hfound]; rfl⟩
  obtain ⟨state, hstate⟩ := hstate
  intro hsaid
  have hfound := enumeratePackageIds_eq_ok.mpr
    ⟨feed.resources, ids, state, hres, Or.inr hcatalog, hids, hstate, rfl⟩
  obtain ⟨failure, hfailure, hnames⟩ := (hsaid _ hfound).2 .search hunread
  exact catalogPart_failures h hstate failure hfailure hnames

/-- Where no failing search is passed over, an enumeration is complete or names what failed. -/
theorem completeOrSaysSo_of_not_searchLost (h : u.Serves feed) (hvalve : feed.list.WithinValve)
    (hkept : ¬ u.SearchLost feed) : u.CompleteOrSaysSo feed := by
  intro found hfound
  obtain ⟨res, ids, state, hres, -, hids, hstate, rfl⟩ := enumeratePackageIds_eq_ok.mp hfound
  obtain rfl : res = feed.resources := by
    rcases h.resources with hok | ⟨e, he⟩
    · exact Except.ok.inj (hres.symm.trans hok)
    · simp [he] at hres
  have hsearch := (searchPart_spec h hvalve hids).imp_right fun hnone =>
    hnone.resolve_right fun hlost => hkept ⟨hres, hlost⟩
  have hread : ¬ u.Unread feed .search := by
    rcases hsearch with ⟨-, -, hread⟩ | ⟨hnone, -⟩
    · exact hread
    · rintro ⟨search, hsearch, -⟩
      simp [hnone] at hsearch
  have hids : ∀ id, id ∈ ids.items ↔ feed.resources.search.isSome ∧ id ∈ feed.list.packages := by
    intro id
    rcases hsearch with ⟨hsome, hitems, -⟩ | ⟨hnone, hitems⟩
    · simp [hsome, hitems]
    · simp [hnone, hitems]
  rcases catalogPart_spec h hstate with
    ⟨hnone, rfl⟩ | ⟨catalog, hcatalog, ⟨hfails, e, rfl⟩ | ⟨hindex, hkeys, hmem, hfailures⟩⟩
  · refine ⟨fun _ => ⟨ids.nodup, fun id hid => Or.inl ((hids id).mp hid), ?_⟩, ?_⟩
    · rintro id (hlisted | ⟨hsome, -⟩)
      · exact List.mem_map_of_mem ((hids id).mpr hlisted)
      · simp [hnone] at hsome
    · rintro (_ | _ | url) hunread
      · exact (hread hunread).elim
      · obtain ⟨catalog, hcatalog, -⟩ := hunread
        simp [hnone] at hcatalog
      · obtain ⟨catalog, hcatalog, -⟩ := hunread
        simp [hnone] at hcatalog
  · refine ⟨by simp, ?_⟩
    rintro (_ | _ | url) hunread
    · exact (hread hunread).elim
    · exact ⟨_, List.mem_singleton_self _, rfl⟩
    · obtain ⟨catalog', hcatalog', hanswered, -⟩ := hunread
      obtain rfl : catalog = catalog' := Option.mem_unique hcatalog hcatalog'
      exact (hanswered hfails).elim
  · have hsome : feed.resources.catalog.isSome := Option.isSome_of_mem hcatalog
    refine ⟨fun hempty => ⟨state.1.nodup, fun id hid => ?_, fun id hid => ?_⟩, ?_⟩
    · refine (hmem id hid).imp (hids id).mp fun hpage => ⟨hsome, ?_⟩
      obtain ⟨url, hurl, hid⟩ := List.mem_flatMap.mp hpage
      exact ⟨url, hurl, pageFound_subset h hid⟩
    · refine (hkeys _).mpr (hid.imp (fun hlisted => ?_) fun hpage => ?_)
      · exact List.mem_map_of_mem ((hids id).mpr hlisted)
      · obtain ⟨-, url, hurl, hid⟩ := hpage
        have hclean : u.pageFailures url = [] := by
          rw [hfailures] at hempty
          exact List.flatMap_eq_nil_iff.mp hempty url hurl
        exact List.mem_map_of_mem
          (List.mem_flatMap.mpr ⟨url, hurl, by rwa [pageFound_eq h hclean]⟩)
    · rintro (_ | _ | url) hunread
      · exact (hread hunread).elim
      · obtain ⟨catalog', hcatalog', hfails⟩ := hunread
        obtain rfl : catalog = catalog' := Option.mem_unique hcatalog hcatalog'
        exact (hindex hfails).elim
      · obtain ⟨-, -, -, hurl, hfails⟩ := hunread
        obtain ⟨e, he⟩ := pageFailures_of_fails hfails
        refine ⟨("catalog page " ++ u.redactUrl url, e), ?_, rfl⟩
        rw [hfailures]
        exact List.mem_flatMap.mpr ⟨url, hurl, by simp [he]⟩

end Enumeration

section Repeating

variable (u) in
/-- Every page of the search service that is answered is this one. -/
def Repeats (search : String) (page : SearchPage) : Prop :=
  ∀ skip, Fails (u.getSearchPage (searchUrl search skip)) ∨
    u.getSearchPage (searchUrl search skip) = .ok (some page)

variable {search : String} {page : SearchPage}

theorem requests_le_one (h : u.Repeats search page) {pages skip : ℕ} {ids : u.DedupIds}
    (hknown : ∀ id ∈ pageIds page, u.toLowercase id ∈ ids.items.map u.toLowercase) :
    (u.searchPages search pages skip ids).2.length ≤ 1 := by
  cases pages with
  | zero => simp [searchPages]
  | succ pages =>
    rcases h skip with hfails | hpage
    · obtain ⟨e, he⟩ := existing_of_fails (u := u) hfails "search page" (searchUrl search skip)
      simp [searchPages, he]
    · by_cases hempty : page.length = 0
      · simp [searchPages, existing_eq_ok.mpr hpage, hempty]
      · simp [searchPages, existing_eq_ok.mpr hpage, hempty, FirstSeen.pushAll_of_subset hknown]

theorem requests_le_two (h : u.Repeats search page) :
    (u.enumerateViaSearch search).2.length ≤ 2 := by
  have hpages : maxPages = 49999 + 1 := rfl
  rw [enumerateViaSearch, hpages]
  rcases h 0 with hfails | hpage
  · obtain ⟨e, he⟩ := existing_of_fails (u := u) hfails "search page" (searchUrl search 0)
    simp [searchPages, he]
  · have hread : u.existing "search page" (searchUrl search 0)
        (u.getSearchPage (searchUrl search 0)) = .ok page := existing_eq_ok.mpr hpage
    rw [searchPages]
    simp only [hread]
    split_ifs with hempty hmore
    · simp
    · simp
    · refine Nat.succ_le_succ (requests_le_one h fun id hid => ?_)
      exact FirstSeen.mem_keys_pushAll.mpr (Or.inr (List.mem_map_of_mem hid))

end Repeating

/-- An enumeration that succeeds is complete or names what it could not read, unless search fails
where there is a catalog; and a source that repeats its page is asked for two at most. -/
theorem completeOrSaysSo_iff (u : Upstream) (feed : Feed u.toLowercase) (h : u.Serves feed)
    (hvalve : feed.list.WithinValve) :
    (u.CompleteOrSaysSo feed ↔ ¬ u.SearchLost feed) ∧
      ∀ (v : Upstream) (search : String) (page : SearchPage), v.Repeats search page →
        (v.enumerateViaSearch search).2.length ≤ 2 := by
  refine ⟨⟨fun hsaid hlost => ?_, completeOrSaysSo_of_not_searchLost h hvalve⟩, ?_⟩
  · exact not_named_of_searchLost h hvalve hlost hsaid
  · intro v search page hrepeats
    exact requests_le_two hrepeats

section Examples

theorem searchUrl_injective (search : String) : Function.Injective (searchUrl search) := by
  intro i j h
  have hrepr : i.repr = j.repr := by simpa [searchUrl] using h
  apply Text.decimal_injective
  simpa [Text.decimal] using congrArg String.toList hrepr

/-- Three packages on two pages. -/
def halfReadList : SearchList (String.map Char.toLower) where
  packages := ["A", "B", "C"]
  distinct := by decide +kernel
  pageLength _ := 2
  pageLength_pos _ _ := by decide
  pageLength_le _ := by decide

/-- A search service, and a catalog with the pages `p` and `q`, of which `q` does not load. -/
def halfRead : Upstream where
  url := "u"
  resources := .ok ⟨some "s", some "c"⟩
  getSearchPage url :=
    match [0, 2, 3].find? fun skip => searchUrl "s" skip = url with
    | some skip => .ok (some ⟨some ((halfReadList.slice skip).map fun id => ⟨some id⟩)⟩)
    | none => .error "timeout"
  getCatalogIndex _ := .ok (some (⟨some [⟨some "p", none⟩, ⟨some "q", none⟩]⟩, "c"))
  getCatalogPage url :=
    if url = "q" then .error "timeout"
    else .ok (some ⟨some [⟨none, some "b"⟩, ⟨none, some "D"⟩]⟩)
  resolveId _ _ := none
  redactUrl url := url
  toLowercase := String.map Char.toLower

/-- A search service that does not answer, beside a catalog that holds `B`. -/
def searchDown : Upstream where
  url := "u"
  resources := .ok ⟨some "s", some "c"⟩
  getSearchPage _ := .error "timeout"
  getCatalogIndex _ := .ok (some (⟨some [⟨some "p", none⟩]⟩, "c"))
  getCatalogPage _ := .ok (some ⟨some [⟨none, some "B"⟩]⟩)
  resolveId _ _ := none
  redactUrl url := url
  toLowercase := String.map Char.toLower

def halfReadFeed : Feed halfRead.toLowercase where
  resources := ⟨some "s", some "c"⟩
  list := halfReadList
  index := ⟨some [⟨some "p", none⟩, ⟨some "q", none⟩]⟩
  indexUrl := "c"
  page _ := ⟨some [⟨none, some "b"⟩, ⟨none, some "D"⟩]⟩

/-- The search service would list `A`. -/
def searchDownFeed : Feed searchDown.toLowercase where
  resources := ⟨some "s", some "c"⟩
  list := ⟨["A"], List.nodup_singleton _, fun _ => 1, fun _ _ => SearchList.single_pos,
    fun _ => SearchList.single_le⟩
  index := ⟨some [⟨some "p", none⟩]⟩
  indexUrl := "c"
  page _ := ⟨some [⟨none, some "B"⟩]⟩

theorem getSearchPage_halfRead (skip : ℕ) : halfRead.getSearchPage (searchUrl "s" skip) =
    if skip ∈ [0, 2, 3] then
      .ok (some ⟨some ((halfReadList.slice skip).map fun id => ⟨some id⟩)⟩)
    else .error "timeout" := by
  have hfind : ([0, 2, 3].find? fun k => searchUrl "s" k = searchUrl "s" skip) =
      if skip ∈ [0, 2, 3] then some skip else none := by
    simp only [(searchUrl_injective "s").eq_iff]
    grind
  simp only [halfRead, hfind]
  split_ifs <;> rfl

theorem serves_halfRead : halfRead.Serves halfReadFeed where
  resources := Or.inl rfl
  search := by
    rintro _ ⟨⟩ skip
    rw [getSearchPage_halfRead]
    split_ifs
    · exact Or.inr ⟨_, rfl, rfl⟩
    · exact Or.inl nofun
  catalogIndex _ _ := Or.inr rfl
  catalogPage url := by
    by_cases hq : url = "q"
    · exact Or.inl (by simp [Fails, halfRead, hq])
    · exact Or.inr (by simp [halfRead, halfReadFeed, hq])

/-- The pages of the search service start at 0, 2 and 3, and are all answered. -/
theorem search_halfRead : ¬ halfRead.SearchLost halfReadFeed := by
  rintro ⟨-, -, _, ⟨⟩, k, hfails⟩
  have hstart : halfReadList.start k ∈ [0, 2, 3] := by
    obtain rfl | rfl | hk : k = 0 ∨ k = 1 ∨ 2 ≤ k := by omega
    · decide
    · decide
    · rw [halfReadList.start_of_le (by decide) hk]
      decide
  have hanswer := getSearchPage_halfRead (halfReadList.start k)
  rw [if_pos hstart] at hanswer
  exact hfails _ hanswer

theorem serves_searchDown : searchDown.Serves searchDownFeed where
  resources := Or.inl rfl
  search _ _ _ := Or.inl (by simp [Fails, searchDown])
  catalogIndex _ _ := Or.inr rfl
  catalogPage _ := Or.inr rfl

/-- Every page of the search service and one of the catalog are read, and the other is named. -/
theorem completeOrSaysSo_halfRead :
    halfRead.enumeratePackageIds =
        .ok ⟨["A", "B", "C", "D"], [("catalog page q", "timeout")]⟩ ∧
      halfRead.CompleteOrSaysSo halfReadFeed := by
  have hvalve : halfReadFeed.list.WithinValve := ⟨2, by decide, by decide⟩
  refine ⟨by decide +kernel, ?_⟩
  exact (completeOrSaysSo_iff halfRead halfReadFeed serves_halfRead hvalve).1.mpr search_halfRead

/-- The search fails, nothing is reported, and `A` is missing. -/
theorem searchDown_incomplete : searchDown.Serves searchDownFeed ∧
    searchDownFeed.list.WithinValve ∧ searchDown.enumeratePackageIds = .ok ⟨["B"], []⟩ ∧
    ¬ searchDown.CompleteOrSaysSo searchDownFeed := by
  have hfound : searchDown.enumeratePackageIds = .ok ⟨["B"], []⟩ := by decide +kernel
  refine ⟨serves_searchDown, ⟨1, by decide, by decide +kernel⟩, hfound, fun hsaid => ?_⟩
  have hall := ((hsaid _ hfound).1 rfl).all "A" (Or.inl ⟨rfl, List.mem_singleton_self _⟩)
  revert hall
  decide +kernel

end Examples

end Upstream

end YaNuget.Discovery
