import YaNuget.Listings.TagSearch

/-!
# Every tag listed leads somewhere

The gallery behind a tag's link shows the packages that were counted for it,
page by page, exactly when folding the tag once more finds the same packages.
-/
namespace YaNuget.Listings

open Std Sorting

section Index

variable {index : List PackageTag} {r : TaggedRow} {rows : List TaggedRow} {pt : PackageTag}

theorem mem_insertTags : pt ∈ insertTags index r ↔ pt ∈ index ∨
    r.lowerId = pt.lowerId ∧ r.normalizedVersion = pt.normalizedVersion ∧
      pt.tag ∈ indexedTags r.tags := by
  unfold insertTags
  induction indexedTags r.tags generalizing index with
  | nil => simp
  | cons tag tags ih =>
    obtain ⟨lowerId, version, t⟩ := pt
    rw [List.foldl_cons, ih, List.mem_insert_iff, List.mem_cons, PackageTag.mk.injEq]
    constructor
    · rintro ((⟨rfl, rfl, rfl⟩ | h) | ⟨hid, hversion, htag⟩)
      · exact .inr ⟨rfl, rfl, .inl rfl⟩
      · exact .inl h
      · exact .inr ⟨hid, hversion, .inr htag⟩
    · rintro (h | ⟨rfl, rfl, rfl | htag⟩)
      · exact .inl (.inr h)
      · exact .inl (.inl ⟨rfl, rfl, rfl⟩)
      · exact .inr ⟨rfl, rfl, htag⟩

theorem mem_foldl_insertTags : pt ∈ rows.foldl insertTags index ↔ pt ∈ index ∨
    ∃ r ∈ rows, r.lowerId = pt.lowerId ∧ r.normalizedVersion = pt.normalizedVersion ∧
      pt.tag ∈ indexedTags r.tags := by
  induction rows generalizing index with
  | nil => simp
  | cons r rows ih => rw [List.foldl_cons, ih, mem_insertTags, List.exists_mem_cons_iff, or_assoc]

end Index

namespace Catalog

def Carries (catalog : Catalog) (feed : String) (id tag : Text) : Prop :=
  ∃ r ∈ catalog.rows, shown feed r.toFeedRow ∧ r.lowerId = id ∧ tag ∈ indexedTags r.tags

def Shows (catalog : Catalog) (feed : String) (id : Text) : Prop :=
  ∃ r ∈ catalog.rows, shown feed r.toFeedRow ∧ r.lowerId = id

section Spec

variable (table : CaseTable) (catalog : Catalog) (feed : String)
  (finds : Text → TaggedRow → Bool) (orders : ReadOrders catalog.content)

/-- The page that a tag's link leads to, or one behind it. -/
def tagPage (tag : Text) (sort : SearchSort) (skip take : ℤ) : SearchPage :=
  catalog.search table feed finds orders
    (galleryRequest table (some (tagHref table tag)) sort skip take)

def linkedIds (tag : Text) (sort : SearchSort) (take : ℕ) : List Text :=
  let hits := (catalog.tagPage table feed finds orders tag sort 0 take).totalHits
  (List.range ((hits + take - 1) / take)).flatMap fun i =>
    (catalog.tagPage table feed finds orders tag sort ↑(take * i) take).groups.flatMap fun g =>
      g.packages.map FeedRow.lowerId

/-- A tag that was counted leads to the packages that carry it. -/
structure Leads (c : TagCount) : Prop where
  hits : ∀ sort skip take,
    (catalog.tagPage table feed finds orders c.tag sort skip take).totalHits = c.packages
  pages : ∀ sort take, 0 < take →
    (catalog.linkedIds table feed finds orders c.tag sort take).Nodup ∧
      ∀ id, id ∈ catalog.linkedIds table feed finds orders c.tag sort take ↔
        catalog.Carries feed id c.tag

/-- What the search filters by, behind a tag's link; nothing if it is empty. -/
def filterTag (tag : Text) : Text :=
  table.toLowercase (trim ((galleryTag table (some (tagHref table tag))).getD []))

/-- The packages that carry a tag are those that carry its folded form, or all where it has none. -/
def FoldsBack (tag : Text) : Prop :=
  ∀ id, (if filterTag table tag = [] then catalog.Shows feed id
    else catalog.Carries feed id (filterTag table tag)) ↔ catalog.Carries feed id tag

end Spec

section Counts

variable {catalog : Catalog} {feed : String} {id tag : Text} {c : TagCount} {limit : ℤ}

theorem mem_packageTags {r : TaggedRow} (hr : r ∈ catalog.rows) :
    ⟨r.lowerId, r.normalizedVersion, tag⟩ ∈ catalog.packageTags ↔ tag ∈ indexedTags r.tags := by
  unfold packageTags
  rw [mem_foldl_insertTags]
  constructor
  · rintro (h | ⟨r', hr', hid, hversion, htag⟩)
    · cases h
    · rwa [← catalog.shared r' hr' r hr hid hversion]
  · intro htag
    exact .inr ⟨r, hr, rfl, rfl, htag⟩

theorem mem_shownTags : (∃ pt ∈ catalog.shownTags feed, pt.tag = tag ∧ pt.lowerId = id) ↔
    catalog.Carries feed id tag := by
  simp only [shownTags, List.mem_flatMap, List.mem_map, List.mem_filter, Bool.and_eq_true,
    beq_iff_eq]
  constructor
  · rintro ⟨_, ⟨pt, hpt, r, ⟨hr, ⟨hshown, hid⟩, hversion⟩, rfl⟩, rfl, rfl⟩
    refine ⟨r, hr, hshown, hid, ?_⟩
    rw [← mem_packageTags hr, hid, hversion]
    exact hpt
  · rintro ⟨r, hr, hshown, rfl, htag⟩
    exact ⟨_, ⟨_, (mem_packageTags hr).mpr htag, r, ⟨hr, ⟨hshown, rfl⟩, rfl⟩, rfl⟩, rfl, rfl⟩

theorem packages_of_mem (h : c ∈ catalog.tagCounts feed limit) :
    ∃ ids : List Text, ids.Nodup ∧ ids.length = c.packages ∧
      ∀ id, id ∈ ids ↔ catalog.Carries feed id c.tag := by
  obtain ⟨tag, -, rfl⟩ := List.mem_map.mp (mem_sortBy.mp (List.mem_of_mem_take h))
  refine ⟨_, List.nodup_dedup _, rfl, ?_⟩
  intro id
  rw [← mem_shownTags]
  simp [and_assoc]

end Counts

section Pages

variable {table : CaseTable} {catalog : Catalog} {feed : String}
  {finds : Text → TaggedRow → Bool} {orders : ReadOrders catalog.content} {id tag : Text}
  {request : SearchRequest}

def Matches (table : CaseTable) (catalog : Catalog) (feed : String) (tag id : Text) : Prop :=
  if filterTag table tag = [] then catalog.Shows feed id
  else catalog.Carries feed id (filterTag table tag)

theorem mem_matching {sort : SearchSort} {skip take : ℤ} :
    (∃ r ∈ catalog.matching table feed finds
        (galleryRequest table (some (tagHref table tag)) sort skip take), r.lowerId = id) ↔
      Matches table catalog feed tag id := by
  have hadmits (r : FeedRow) : (Filter.mk feed true true).admits true r = shown feed r := by
    simp [Filter.admits, shown, Bool.and_assoc, Bool.and_comm, Bool.and_left_comm]
  have hterms : searchTerms table [] = [] := rfl
  have htype : table.toLowercase ((none : Option Text).getD []) = [] := rfl
  have hfilter : table.toLowercase (trim ((galleryTag table
      (some (tagHref table tag))).getD [])) = filterTag table tag := rfl
  simp only [matching, galleryRequest, hterms, htype, hfilter, hadmits, List.mem_filter,
    decide_true, Bool.true_or, Bool.and_true, Bool.and_eq_true, Bool.or_eq_true, decide_eq_true_iff]
  unfold Matches
  split_ifs with hempty
  · constructor
    · rintro ⟨r, ⟨hr, hshown, -⟩, hid⟩
      exact ⟨r, hr, hshown, hid⟩
    · rintro ⟨r, hr, hshown, hid⟩
      exact ⟨r, ⟨hr, hshown, .inl hempty⟩, hid⟩
  · constructor
    · rintro ⟨r, ⟨hr, hshown, htag⟩, hid⟩
      exact ⟨r, hr, hshown, hid, (mem_packageTags hr).mp (htag.resolve_left hempty)⟩
    · rintro ⟨r, hr, hshown, hid, htag⟩
      exact ⟨r, ⟨hr, hshown, .inr ((mem_packageTags hr).mpr htag)⟩, hid⟩

theorem perm_ranking : ((catalog.ranking table feed finds request).map Ranked.lowerId).Perm
    ((catalog.matching table feed finds request).map fun r => r.lowerId).dedup := by
  unfold ranking
  refine ((perm_sortBy _).map _).trans ?_
  rw [List.map_map]
  simp [Function.comp_def]

omit catalog in
theorem flatMap_filterMap {load : Text → Option SearchGroup} {ids : List Text}
    (h : ∀ id ∈ ids, ∃ g, load id = some g ∧ g.packages.map FeedRow.lowerId = [id]) :
    ((ids.filterMap load).flatMap fun g => g.packages.map FeedRow.lowerId) = ids := by
  induction ids with
  | nil => rfl
  | cons id ids ih =>
    obtain ⟨⟨g, hg, hid⟩, hrest⟩ := List.forall_mem_cons.mp h
    rw [List.filterMap_cons_some hg, List.flatMap_cons, ih hrest, hid]
    rfl

/-- A page of headlines shows the packages it was loaded for. -/
theorem flatMap_loadHeadlines {f : Filter} {ids : List Text} (hids : ids.Nodup)
    (hshown : ∀ id ∈ ids, ∃ r ∈ catalog.content, f.admits true r ∧ r.lowerId = id) :
    ((loadHeadlines catalog.content f orders.keys orders.full ids).flatMap fun g =>
      g.packages.map FeedRow.lowerId) = ids := by
  have hkeyed : Keyed catalog.content := catalog.keyed
  rw [loadHeadlines_eq hkeyed orders.perm_keys orders.perm_full hids]
  apply flatMap_filterMap
  intro id hid
  obtain ⟨r, hr, hadmits, hrid⟩ := hshown id hid
  have hne : visible f (orders.keys (chunkOf ids id)) id ≠ [] := by
    apply List.ne_nil_of_mem (a := r)
    simp [visible, (orders.perm_keys _).mem_iff, hr, hadmits, hrid]
  obtain ⟨best, hbest, hmem, -⟩ := @firstGreatest_spec _ headlineOrder _ _ hne
  have hhead : headlineOf catalog.content f (orders.keys (chunkOf ids id)) id =
      some ⟨[best], (visible f (orders.keys (chunkOf ids id)) id).length,
        (totalOf catalog.content f id none).getD 0⟩ := by
    rw [headlineOf, hbest]
    rfl
  refine ⟨_, hhead, ?_⟩
  rw [List.map_singleton, (of_mem_visible hmem).2.2.2.2]

theorem nodup_ranking : ((catalog.ranking table feed finds request).map Ranked.lowerId).Nodup :=
  perm_ranking.nodup_iff.mpr (List.nodup_dedup _)

theorem mem_ranking {sort : SearchSort} {skip take : ℤ} :
    id ∈ (catalog.ranking table feed finds
      (galleryRequest table (some (tagHref table tag)) sort skip take)).map Ranked.lowerId ↔
      Matches table catalog feed tag id := by
  rw [perm_ranking.mem_iff, List.mem_dedup, ← mem_matching, List.mem_map]

/-- The packages of one page behind a tag's link. -/
theorem ids_tagPage (sort : SearchSort) (take i : ℕ) :
    ((catalog.tagPage table feed finds orders tag sort ↑(take * i) take).groups.flatMap fun g =>
      g.packages.map FeedRow.lowerId) =
      chunkAt take ((catalog.ranking table feed finds
        (galleryRequest table (some (tagHref table tag)) sort 0 take)).map Ranked.lowerId) i := by
  let request := galleryRequest table (some (tagHref table tag)) sort 0 take
  have hskip : (max ((take * i : ℕ) : ℤ) 0).toNat = take * i := by omega
  have htake : (max (take : ℤ) 0).toNat = take := by omega
  have hids : (((catalog.ranking table feed finds request).drop (take * i)).take take).map
      Ranked.lowerId = chunkAt take ((catalog.ranking table feed finds request).map
        Ranked.lowerId) i := by
    rw [chunkAt, List.map_take, List.map_drop]
  have hsub := (List.take_sublist take _).trans (List.drop_sublist (take * i)
    ((catalog.ranking table feed finds request).map Ranked.lowerId))
  change ((loadHeadlines catalog.content ⟨feed, true, true⟩ orders.keys orders.full
    (((catalog.ranking table feed finds request).drop (max ((take * i : ℕ) : ℤ) 0).toNat).take
      (max (take : ℤ) 0).toNat |>.map Ranked.lowerId)).flatMap fun g =>
        g.packages.map FeedRow.lowerId) = _
  rw [hskip, htake, hids]
  apply flatMap_loadHeadlines (hsub.nodup nodup_ranking)
  intro id hid
  obtain ⟨r, hr, hrid⟩ := List.mem_map.mp (List.mem_dedup.mp (perm_ranking.mem_iff.mp
    (hsub.subset hid)))
  have hmatch := List.mem_filter.mp hr
  simp only [Bool.and_eq_true] at hmatch
  exact ⟨r.toFeedRow, List.mem_map_of_mem hmatch.1, hmatch.2.1.1.1, hrid⟩

theorem totalHits_eq (sort : SearchSort) (skip take : ℤ) :
    (catalog.tagPage table feed finds orders tag sort skip take).totalHits =
      ((catalog.ranking table feed finds
        (galleryRequest table (some (tagHref table tag)) sort skip take)).map
          Ranked.lowerId).length := perm_ranking.length_eq.symm

/-- The pages behind a tag's link show each package that matches, once. -/
theorem linkedIds_eq (sort : SearchSort) {take : ℕ} (h : 0 < take) :
    catalog.linkedIds table feed finds orders tag sort take =
      (catalog.ranking table feed finds
        (galleryRequest table (some (tagHref table tag)) sort 0 take)).map Ranked.lowerId := by
  unfold linkedIds
  simp only [ids_tagPage, totalHits_eq]
  have hflat := flatten_chunks (l := (catalog.ranking table feed finds (galleryRequest table
    (some (tagHref table tag)) sort 0 take)).map Ranked.lowerId) h
  rw [chunks, ← List.flatMap_def] at hflat
  exact hflat

end Pages

section Links

variable (table : CaseTable) (catalog : Catalog) (feed : String)
  (finds : Text → TaggedRow → Bool) (orders : ReadOrders catalog.content)

theorem leads_iff {limit : ℤ} {c : TagCount} (hc : c ∈ catalog.tagCounts feed limit) :
    catalog.Leads table feed finds orders c ↔ catalog.FoldsBack table feed c.tag := by
  constructor
  · intro h id
    obtain ⟨-, hmem⟩ := h.pages .downloads 1 one_pos
    rw [← hmem id, linkedIds_eq .downloads one_pos, mem_ranking]
    rfl
  · intro hfolds
    obtain ⟨ids, hnodup, hlength, hids⟩ := packages_of_mem hc
    constructor
    · intro sort skip take
      rw [totalHits_eq, ← hlength]
      apply List.Perm.length_eq
      apply (List.perm_ext_iff_of_nodup nodup_ranking hnodup).mpr
      intro id
      rw [mem_ranking, hids]
      exact hfolds id
    · intro sort take htake
      rw [linkedIds_eq sort htake]
      refine ⟨nodup_ranking, ?_⟩
      intro id
      rw [mem_ranking]
      exact hfolds id

/-- Every tag listed leads to the packages that were counted for it exactly when it folds back to
what carries it. -/
theorem every_tag_leads_iff (limit : ℤ) :
    (∀ c ∈ catalog.tagCounts feed limit, catalog.Leads table feed finds orders c) ↔
      ∀ c ∈ catalog.tagCounts feed limit, catalog.FoldsBack table feed c.tag := by
  constructor
  · intro h c hc
    exact (leads_iff table catalog feed finds orders hc).mp (h c hc)
  · intro h c hc
    exact (leads_iff table catalog feed finds orders hc).mpr (h c hc)

end Links

section Folded

variable {table : CaseTable} {catalog : Catalog} {feed : String} {c : TagCount} {limit : ℤ}
  {tag : Text}

theorem of_mem_indexedTags {tags : List Text} (h : tag ∈ indexedTags tags) :
    Text.lower tag = tag ∧ tag ≠ [] ∧ tag.length ≤ maxTagChars := by
  obtain ⟨value, hvalue, rfl⟩ := List.mem_map.mp h
  have hne : sqlTrim value ≠ [] := of_decide_eq_true (List.mem_filter.mp hvalue).2
  refine ⟨Text.lower_lower _, ?_, ?_⟩
  · simp [indexedTag, Text.lower, hne, maxTagChars]
  · simp [indexedTag, Text.lower]

theorem of_mem_tagCounts (h : c ∈ catalog.tagCounts feed limit) :
    Text.lower c.tag = c.tag ∧ c.tag ≠ [] ∧ c.tag.length ≤ maxTagChars := by
  obtain ⟨tag, htag, rfl⟩ := List.mem_map.mp (mem_sortBy.mp (List.mem_of_mem_take h))
  obtain ⟨pt, hpt, rfl⟩ := List.mem_map.mp (List.mem_dedup.mp htag)
  obtain ⟨r, -, -, -, hmem⟩ := mem_shownTags.mp ⟨pt, hpt, rfl, rfl⟩
  exact of_mem_indexedTags hmem

theorem foldsBack_of_filterTag (hne : tag ≠ []) (h : filterTag table tag = tag) :
    catalog.FoldsBack table feed tag := by
  intro id
  rw [h, if_neg hne]

theorem filterTag_of_ascii (ht : table.Lawful) (hascii : tag.isAscii)
    (hlower : Text.lower tag = tag) (hne : tag ≠ []) (hlength : tag.length ≤ maxTagChars)
    (hplain : ∀ ch ∈ tag, isWhitespace ch = false ∧ isControl ch = false) :
    filterTag table tag = tag := by
  have hfold : table.toLowercase tag = tag := (ht.toLowercase_of_ascii hascii).trans hlower
  have htrim : trim tag = tag := Text.trim_eq_self fun ch hch => (hplain ch hch).1
  have hany : (tag.any fun ch => isWhitespace ch || isControl ch) = false := by
    rw [List.any_eq_false]
    intro ch hch
    simp [(hplain ch hch).1, (hplain ch hch).2]
  have hgallery : galleryTag table (some (tagHref table tag)) = some tag := by
    simp [galleryTag, tagHref, hfold, htrim, Option.filter, hne, hlength, hany]
  rw [filterTag, hgallery, Option.getD_some, htrim, hfold]

theorem leads_of_ascii (ht : table.Lawful) (finds : Text → TaggedRow → Bool)
    (orders : ReadOrders catalog.content) (hc : c ∈ catalog.tagCounts feed limit)
    (hascii : c.tag.isAscii)
    (hplain : ∀ ch ∈ c.tag, isWhitespace ch = false ∧ isControl ch = false) :
    catalog.Leads table feed finds orders c := by
  obtain ⟨hlower, hne, hlength⟩ := of_mem_tagCounts hc
  apply (leads_iff table catalog feed finds orders hc).mpr
  exact foldsBack_of_filterTag hne (filterTag_of_ascii ht hascii hlower hne hlength hplain)

end Folded

def accented : Catalog where
  rows := [{ withoutZero with published := [], packageTypes := [], tags := [['É']] }]
  keyed := List.nodup_singleton _
  shared := by
    intro r hr r' hr' _ _
    rw [List.mem_singleton.mp hr, List.mem_singleton.mp hr']

def accentedOrders : ReadOrders accented.content :=
  ⟨fun _ => _, fun _ => _, fun _ => _, fun _ => .rfl, fun _ => .rfl, fun _ => .rfl⟩

/-- The tag `É` is counted once, and its link finds nothing. -/
theorem accented_leads_nowhere : ¬ ∀ c ∈ accented.tagCounts "default" 12,
    accented.Leads .latin1 "default" (fun _ _ => false) accentedOrders c := by
  intro h
  have hmem : (⟨['É'], 1⟩ : TagCount) ∈ accented.tagCounts "default" 12 := by decide +kernel
  have hhits := (h _ hmem).hits .downloads 0 20
  revert hhits
  decide +kernel

end Catalog

end YaNuget.Listings
