import Mathlib.Data.List.FinRange
import YaNuget.Listings.FeedRows
import YaNuget.Listings.PageUrls

/-!
# The registration of a package

The index of a registration holds a package with few versions in one page. It
cuts a package with many into pages by position and names each by its first and
last version; the page itself is answered with the versions between these.
-/
namespace YaNuget.Listings

open Std Versions Sorting

inductive RequestError where
  | packageNotFound
  | invalidVersion (e : VersionParseError)
  /-- A segment of the path is not text. -/
  | badPath

/-- `/v3/{hive}/{id}/page/{lower}/{upper}.json`, the segments as they are written. -/
structure PageUrl where
  semver2 : Bool
  id : Text
  lower : Text
  upper : Text

def registrationPageUrl (semver2 : Bool) (lowerId lower upper : Text) : PageUrl :=
  ⟨semver2, enc lowerId, enc (Text.lower lower), enc (Text.lower upper) ++ ".json".toList⟩

inductive PageId where
  /-- Within the index, at `#page/{lower}/{upper}`. -/
  | inline (lower upper : Text)
  | external (url : PageUrl)

structure PageDoc where
  id : PageId
  count : ℕ
  /-- The leaves, by the versions they are for. -/
  items : Option (List FeedRow)
  lower : Text
  upper : Text

/-- Packages with fewer versions than this have one page. -/
def registrationInlineMax : ℕ := 128

def registrationPageSize : ℕ := 64

def bounds (packages : List FeedRow) : Text × Text :=
  ((packages.head?.map FeedRow.normalizedVersion).getD [],
    (packages.getLast?.map FeedRow.normalizedVersion).getD [])

def inlinePage (packages : List FeedRow) : PageDoc :=
  let (lower, upper) := bounds packages
  ⟨.inline lower upper, packages.length, some packages, lower, upper⟩

section Documents

variable (semver2 : Bool) (id : Text)

def externalPage (chunk : List FeedRow) : PageDoc :=
  let (lower, upper) := bounds chunk
  ⟨.external (registrationPageUrl semver2 (Text.lower id) lower upper), chunk.length, none, lower,
    upper⟩

def registrationIndex (packages : List FeedRow) : List PageDoc :=
  if packages.length < registrationInlineMax then [inlinePage packages]
  else (chunks registrationPageSize packages).map (externalPage semver2 id)

def registrationPage (packages : List FeedRow) : PageDoc :=
  let (lower, upper) := bounds packages
  ⟨.external (registrationPageUrl semver2 (Text.lower id) lower upper), packages.length,
    some packages, lower, upper⟩

end Documents

def filterHive (packages : List FeedRow) (semver2 : Bool) : List FeedRow :=
  if semver2 then packages else packages.filter fun p => !p.isSemver2

def checkId (id : Text) : Except RequestError Unit :=
  (validatePackageId id).mapError fun _ => .packageNotFound

section Handlers

variable (rows : List FeedRow) (feed : String) (id : Text) (semver2 : Bool)

/-- The versions that the index is made of. Those of an unknown package are mirrored first. -/
def indexed (mirrored : List FeedRow) : List FeedRow :=
  if (findVersions rows feed id true).isEmpty then mirrored else rows

def registrationIndexFor (mirrored : List FeedRow) : Except RequestError (List PageDoc) := do
  checkId id
  let packages := findVersions (indexed rows feed id mirrored) feed id true
  if packages.isEmpty then .error .packageNotFound
  else
    let packages := filterHive packages semver2
    if packages.isEmpty then .error .packageNotFound
    else .ok (registrationIndex semver2 id packages)

def stripJson (t : Text) : Text :=
  if ".json".toList <:+ t then t.take (t.length - ".json".toList.length) else t

def registrationPageFor (lower upper : Text) : Except RequestError PageDoc := do
  checkId id
  let upper := stripJson upper
  let lower ← (parseVersion lower).mapError .invalidVersion
  let upper ← (parseVersion upper).mapError .invalidVersion
  let packages := filterHive (findVersions rows feed id true) semver2
  let packages := packages.filter fun p =>
    (lower.cmp p.version).isLE && (p.version.cmp upper).isLE
  if packages.isEmpty then .error .packageNotFound
  else .ok (registrationPage semver2 id packages)

def pageAt (url : PageUrl) : Except RequestError PageDoc :=
  match decodeSegment url.id, decodeSegment url.lower, decodeSegment url.upper with
  | some id, some lower, some upper => registrationPageFor rows feed id url.semver2 lower upper
  | _, _, _ => .error .badPath

end Handlers

/-- The pages of an index as they are read, one within the index from there, each other with a
query of its own. -/
def readPages (index : List PageDoc) (feed : String) (orders : ℕ → List FeedRow) :
    List (Except RequestError PageDoc) :=
  index.mapIdx fun i page =>
    match page.id with
    | .inline _ _ => .ok page
    | .external url => pageAt (orders i) feed url

/-- The versions of a package that a hive exposes, as the query met them. -/
def hiveRows (rows : List FeedRow) (feed : String) (id : Text) (semver2 : Bool) : List FeedRow :=
  rows.filter fun r => r.feed == feed && r.lowerId == canonicalId id && r.enabled && !r.pending &&
    (semver2 || !r.isSemver2)

/-- The versions of a hive are on its pages, and each page is as the index says. -/
structure Partitioned (index pages : List PageDoc) (hive : List FeedRow) : Prop where
  agree : List.Forall₂ (fun page item =>
    page.count = item.count ∧ page.lower = item.lower ∧ page.upper = item.upper) pages index
  counted : ∀ page ∈ pages, ∃ items, page.items = some items ∧ page.count = items.length
  once : (pages.flatMap fun page => page.items.getD []).Perm hive
  ascending : (pages.flatMap fun page => page.items.getD []).Pairwise (Le FeedRow.byVersion)

/-- Rows of equal versions at the two ends of a page come for the page as they came for the
index. -/
structure SameEnds (hive : List FeedRow) (orders : ℕ → List FeedRow) : Prop where
  first : ∀ a ∈ hive, ∀ i, before FeedRow.byVersion a hive = registrationPageSize * i →
    (ties FeedRow.byVersion a (orders i)).head? = (ties FeedRow.byVersion a hive).head?
  last : ∀ a ∈ hive, ∀ i, registrationPageSize * i < hive.length →
    before FeedRow.byVersion a hive + (ties FeedRow.byVersion a hive).length =
      min (registrationPageSize * (i + 1)) hive.length →
    (ties FeedRow.byVersion a (orders i)).getLast? = (ties FeedRow.byVersion a hive).getLast?

section Requests

variable {rows : List FeedRow} {feed : String} {id : Text} {semver2 : Bool} {r a b : FeedRow}
  {chunk : List FeedRow}

theorem filterHive_findVersions (rows : List FeedRow) (feed : String) (id : Text) (semver2 : Bool) :
    filterHive (findVersions rows feed id true) semver2 =
    sortBy FeedRow.byVersion (hiveRows rows feed id semver2) := by
  unfold filterHive findVersions findVersionsFiltered hiveRows
  cases semver2 with
  | true => simp
  | false => simp [filter_sortBy, List.filter_filter, Bool.and_comm]

theorem canonicalId_lower (id : Text) : canonicalId (Text.lower id) = canonicalId id :=
  Text.lower_lower id

theorem hiveRows_lower : hiveRows rows feed (Text.lower id) semver2 =
    hiveRows rows feed id semver2 := by
  simp only [hiveRows, canonicalId_lower]

theorem stripJson_append (t : Text) : stripJson (t ++ ".json".toList) = t := by
  unfold stripJson
  rw [if_pos (List.suffix_append t _), List.length_append, Nat.add_sub_cancel, List.take_left]

theorem parseVersion_bound (r : FeedRow) :
    ∃ v, parseVersion (Text.lower r.normalizedVersion) = .ok v ∧ v.cmp r.version = .eq := by
  refine ⟨{ r.version.canonical with original := r.version.normalized }, ?_, ?_⟩
  · rw [FeedRow.normalizedVersion, NormalizedVersion.lower_normalized]
    exact NormalizedVersion.parseVersion_eq r.isStored
  · exact Versions.NuGetVersion.cmp_canonical r.version

theorem enc_bound (r : FeedRow) : enc (Text.lower r.normalizedVersion) =
    Text.lower r.normalizedVersion ∧
      ∀ c ∈ Text.lower r.normalizedVersion, isKept c := by
  have hkept : ∀ c ∈ Text.lower r.normalizedVersion, isKept c := by
    intro c hc
    rw [FeedRow.normalizedVersion, NormalizedVersion.lower_normalized] at hc
    exact isKept_of_isWritten (NormalizedVersion.isWritten r.isStored hc)
  exact ⟨enc_eq_self hkept, hkept⟩

def pageRows (rows : List FeedRow) (feed : String) (id : Text) (semver2 : Bool) (a b : FeedRow) :
    List FeedRow :=
  (sortBy FeedRow.byVersion (hiveRows rows feed id semver2)).filter
    (between FeedRow.byVersion a b)

/-- A page of the index is answered with all rows between its ends. -/
theorem pageAt_external (hid : validatePackageId id = .ok ()) (ha : chunk.head? = some a)
    (hb : chunk.getLast? = some b) (hne : pageRows rows feed id semver2 a b ≠ []) :
    pageAt rows feed (registrationPageUrl semver2 (Text.lower id) (bounds chunk).1
      (bounds chunk).2) =
      .ok (registrationPage semver2 (Text.lower id) (pageRows rows feed id semver2 a b)) := by
  have hvalid := (validatePackageId_lower id).mpr hid
  have hkeptId := isKept_of_validatePackageId hvalid
  obtain ⟨henca, hkepta⟩ := enc_bound a
  obtain ⟨hencb, hkeptb⟩ := enc_bound b
  obtain ⟨lower, hlower, hcmpa⟩ := parseVersion_bound a
  obtain ⟨upper, hupper, hcmpb⟩ := parseVersion_bound b
  have hjson : ∀ c ∈ ".json".toList, isKept c := List.all_eq_true.mp rfl
  have hkeptb' : ∀ c ∈ Text.lower b.normalizedVersion ++ ".json".toList, isKept c := by
    intro c hc
    rcases List.mem_append.mp hc with hc | hc
    · exact hkeptb c hc
    · exact hjson c hc
  have hbounds : bounds chunk = (a.normalizedVersion, b.normalizedVersion) := by
    simp [bounds, ha, hb]
  have hbetween : (fun p : FeedRow => (lower.cmp p.version).isLE && (p.version.cmp upper).isLE) =
      between FeedRow.byVersion a b := by
    funext p
    unfold between FeedRow.byVersion
    rw [TransCmp.congr_left hcmpa, TransCmp.congr_right hcmpb]
  have hrows : (filterHive (findVersions rows feed (Text.lower id) true) semver2).filter
      (between FeedRow.byVersion a b) = pageRows rows feed id semver2 a b := by
    rw [filterHive_findVersions, hiveRows_lower, pageRows]
  unfold pageAt registrationPageUrl
  rw [hbounds]
  dsimp only
  rw [enc_eq_self hkeptId, henca, hencb, decodeSegment_eq_self hkeptId,
    decodeSegment_eq_self hkepta, decodeSegment_eq_self hkeptb']
  dsimp only
  unfold registrationPageFor checkId
  rw [hvalid, stripJson_append, hlower]
  simp only [hupper, Except.mapError, bind, Except.bind, hbetween, hrows]
  rw [if_neg (by simpa using hne)]

end Requests

section Pages

variable {content rows hive packages : List FeedRow} {feed : String} {id : Text} {semver2 : Bool}
  {a b p : FeedRow}

theorem mem_hiveRows : p ∈ hiveRows rows feed id semver2 → p.feed = feed ∧
    p.lowerId = canonicalId id := by
  intro hp
  have h := List.of_mem_filter hp
  simp only [Bool.and_eq_true, beq_iff_eq] at h
  exact h.1.1.1

theorem eq_of_normalizedVersion (hkeyed : Keyed content)
    (ha : a ∈ hiveRows content feed id semver2) (hb : b ∈ hiveRows content feed id semver2) :
    a.normalizedVersion = b.normalizedVersion ↔ a = b := by
  constructor
  · intro h
    obtain ⟨hfeed, hid⟩ := mem_hiveRows ha
    obtain ⟨hfeed', hid'⟩ := mem_hiveRows hb
    apply hkeyed.eq (List.mem_of_mem_filter ha) (List.mem_of_mem_filter hb)
    simp only [FeedRow.key, hfeed, hfeed', hid, hid', h]
  · rintro rfl
    rfl

theorem pageRows_perm (h : rows.Perm content) : (pageRows rows feed id semver2 a b).Perm
    ((sortBy FeedRow.byVersion (hiveRows content feed id semver2)).filter
      (between FeedRow.byVersion a b)) := by
  apply List.Perm.filter
  have hhive : (hiveRows rows feed id semver2).Perm (hiveRows content feed id semver2) := h.filter _
  exact ((perm_sortBy _).trans hhive).trans (perm_sortBy _).symm

theorem pageRows_sorted : (pageRows rows feed id semver2 a b).Pairwise (Le FeedRow.byVersion) :=
  (sorted_sortBy _).filter _

theorem ties_pageRows {c : FeedRow} (hac : Le FeedRow.byVersion a c)
    (hcb : Le FeedRow.byVersion c b) :
    ties FeedRow.byVersion c (pageRows rows feed id semver2 a b) =
      ties FeedRow.byVersion c (hiveRows rows feed id semver2) := by
  rw [← ties_sortBy c (hiveRows rows feed id semver2)]
  unfold ties pageRows
  rw [List.filter_filter]
  apply List.filter_congr
  intro x _
  cases hcx : FeedRow.byVersion c x with
  | lt => simp
  | gt => simp
  | eq =>
    have hax : (FeedRow.byVersion a x).isLE :=
      TransCmp.isLE_trans hac (by simp [hcx])
    have hxb : (FeedRow.byVersion x b).isLE :=
      TransCmp.isLE_trans (by simp [OrientedCmp.eq_symm hcx]) hcb
    simp [between, hax, hxb]

theorem mem_pageRows (h : rows.Perm content) (ha : a ∈ hiveRows content feed id semver2)
    (hab : Le FeedRow.byVersion a b) : a ∈ pageRows rows feed id semver2 a b := by
  rw [(pageRows_perm h).mem_iff, List.mem_filter, mem_sortBy]
  have hle : (FeedRow.byVersion a b).isLE = true := hab
  refine ⟨ha, ?_⟩
  simp [between, ReflCmp.compare_self, hle]

/-- The ends of a page are the first and the last of the rows equal to its bounds. -/
theorem ends_pageRows (h : rows.Perm content) (ha : a ∈ hiveRows content feed id semver2)
    (hb : b ∈ hiveRows content feed id semver2) (hab : Le FeedRow.byVersion a b) :
    (pageRows rows feed id semver2 a b).head? =
        (ties FeedRow.byVersion a (hiveRows rows feed id semver2)).head? ∧
      (pageRows rows feed id semver2 a b).getLast? =
        (ties FeedRow.byVersion b (hiveRows rows feed id semver2)).getLast? := by
  have hbetween : ∀ x ∈ pageRows rows feed id semver2 a b,
      Le FeedRow.byVersion a x ∧ Le FeedRow.byVersion x b := by
    intro x hx
    simpa [between, Le] using List.of_mem_filter hx
  have hperm : (hiveRows content feed id semver2).Perm (hiveRows rows feed id semver2) :=
    h.symm.filter _
  have hna : ties FeedRow.byVersion a (pageRows rows feed id semver2 a b) ≠ [] := by
    rw [ties_pageRows ReflCmp.isLE_rfl hab]
    exact ties_ne_nil (hperm.mem_iff.mp ha)
  have hnb : ties FeedRow.byVersion b (pageRows rows feed id semver2 a b) ≠ [] := by
    rw [ties_pageRows hab ReflCmp.isLE_rfl]
    exact ties_ne_nil (hperm.mem_iff.mp hb)
  constructor
  · rw [head?_eq_ties pageRows_sorted (fun x hx => (hbetween x hx).1) hna,
      ties_pageRows ReflCmp.isLE_rfl hab]
  · rw [getLast?_eq_ties pageRows_sorted (fun x hx => (hbetween x hx).2) hnb,
      ties_pageRows hab ReflCmp.isLE_rfl]

end Pages

section Cuts

variable (content : List FeedRow) (feed : String) (id : Text) (semver2 : Bool)

def ascending : List FeedRow := sortBy FeedRow.byVersion (hiveRows content feed id semver2)

def cutRows (i : ℕ) : List FeedRow :=
  chunkAt registrationPageSize (ascending content feed id semver2) i

def answeredRows (rows : List FeedRow) (i : ℕ) : List FeedRow :=
  match (cutRows content feed id semver2 i).head?, (cutRows content feed id semver2 i).getLast? with
  | some a, some b => pageRows rows feed id semver2 a b
  | _, _ => []

def pageCount : ℕ :=
  ((ascending content feed id semver2).length + registrationPageSize - 1) / registrationPageSize

variable {content feed id semver2} {rows : List FeedRow} {orders : ℕ → List FeedRow} {i : ℕ}

theorem mem_ascending {r : FeedRow} : r ∈ ascending content feed id semver2 ↔
    r ∈ hiveRows content feed id semver2 := mem_sortBy

theorem ascending_sorted :
    (ascending content feed id semver2).Pairwise (Le FeedRow.byVersion) := sorted_sortBy _

theorem ascending_perm :
    (ascending content feed id semver2).Perm (hiveRows content feed id semver2) := perm_sortBy _

theorem mem_of_mem_cutRows {r : FeedRow} (h : r ∈ cutRows content feed id semver2 i) :
    r ∈ hiveRows content feed id semver2 :=
  mem_ascending.mp (List.mem_of_mem_drop (List.mem_of_mem_take h))

theorem cutRows_sorted : (cutRows content feed id semver2 i).Pairwise (Le FeedRow.byVersion) :=
  (ascending_sorted.sublist (List.drop_sublist _ _)).sublist (List.take_sublist _ _)

theorem exists_ends (hi : i < pageCount content feed id semver2) :
    ∃ a b, (cutRows content feed id semver2 i).head? = some a ∧
      (cutRows content feed id semver2 i).getLast? = some b ∧
      Le FeedRow.byVersion a b := by
  have hlt := (lt_count_iff (by decide)).mp hi
  have hne : cutRows content feed id semver2 i ≠ [] := by
    apply List.ne_nil_of_length_pos
    rw [cutRows, length_chunkAt]
    unfold registrationPageSize at hlt ⊢
    omega
  refine ⟨_, _, List.head?_eq_some_head hne, List.getLast?_eq_some_getLast hne, ?_⟩
  exact le_of_head? cutRows_sorted (List.head?_eq_some_head hne) _ (List.getLast_mem hne)

theorem lt_pageCount {a : FeedRow} (h : (cutRows content feed id semver2 i).head? = some a) :
    i < pageCount content feed id semver2 := by
  rw [cutRows, head?_chunkAt (by decide)] at h
  obtain ⟨hi, -⟩ := List.getElem?_eq_some_iff.mp h
  exact (lt_count_iff (by decide)).mpr hi

section Answers

variable (horders : ∀ i, (orders i).Perm content)
include horders

/-- A page is answered with the rows between its ends, from the first of those equal to the one to
the last of those equal to the other. -/
theorem answeredRows_eq {a b : FeedRow} (ha : (cutRows content feed id semver2 i).head? = some a)
    (hb : (cutRows content feed id semver2 i).getLast? = some b) :
    (answeredRows content feed id semver2 (orders i) i).Perm
        ((ascending content feed id semver2).filter (between FeedRow.byVersion a b)) ∧
      (answeredRows content feed id semver2 (orders i) i).head? =
        (ties FeedRow.byVersion a (hiveRows (orders i) feed id semver2)).head? ∧
      (answeredRows content feed id semver2 (orders i) i).getLast? =
        (ties FeedRow.byVersion b (hiveRows (orders i) feed id semver2)).getLast? := by
  have heq : answeredRows content feed id semver2 (orders i) i =
      pageRows (orders i) feed id semver2 a b := by
    unfold answeredRows
    rw [ha, hb]
  have hab : Le FeedRow.byVersion a b :=
    le_of_head? cutRows_sorted ha b (List.mem_of_getLast? hb)
  rw [heq]
  exact ⟨pageRows_perm (horders i), ends_pageRows (horders i)
    (mem_of_mem_cutRows (List.mem_of_head? ha)) (mem_of_mem_cutRows (List.mem_of_getLast? hb)) hab⟩

theorem uncut_iff_length :
    Uncut FeedRow.byVersion registrationPageSize (ascending content feed id semver2) ↔
      ∀ i < pageCount content feed id semver2,
        (answeredRows content feed id semver2 (orders i) i).length =
          (cutRows content feed id semver2 i).length := by
  rw [uncut_iff_chunks (by decide) ascending_sorted]
  constructor
  · intro h i hi
    obtain ⟨a, b, ha, hb, -⟩ := exists_ends hi
    rw [(answeredRows_eq horders ha hb).1.length_eq]
    exact h i a b ha hb
  · intro h i a b ha hb
    have hlen := h i (lt_pageCount ha)
    rwa [(answeredRows_eq horders ha hb).1.length_eq] at hlen

/-- The ends of the answers are decided by the order of rows that are equal. -/
theorem sameEnds_iff
    (hu : Uncut FeedRow.byVersion registrationPageSize (ascending content feed id semver2)) :
    SameEnds (hiveRows content feed id semver2)
        (fun i => hiveRows (orders i) feed id semver2) ↔
      ∀ i < pageCount content feed id semver2,
        (answeredRows content feed id semver2 (orders i) i).head? =
            (cutRows content feed id semver2 i).head? ∧
          (answeredRows content feed id semver2 (orders i) i).getLast? =
            (cutRows content feed id semver2 i).getLast? := by
  have hfirst := hu.first_iff (by decide) ascending_sorted fun i => hiveRows (orders i) feed id semver2
  have hlast := hu.last_iff (by decide) ascending_sorted fun i => hiveRows (orders i) feed id semver2
  simp only [ascending, before_sortBy, length_sortBy, ties_sortBy, mem_sortBy] at hfirst hlast
  constructor
  · intro h i hi
    obtain ⟨a, b, ha, hb, -⟩ := exists_ends hi
    obtain ⟨-, hhead, hend⟩ := answeredRows_eq horders ha hb
    rw [hhead, hend, ha, hb]
    exact ⟨hfirst.mp h.first i a ha, hlast.mp h.last i b hb⟩
  · intro h
    constructor
    · apply hfirst.mpr
      intro i a ha
      obtain ⟨a', b, ha', hb, -⟩ := exists_ends (lt_pageCount ha)
      obtain rfl : a' = a := Option.some.inj (ha'.symm.trans ha)
      rw [← (answeredRows_eq horders ha' hb).2.1, (h i (lt_pageCount ha')).1]
      exact ha'
    · apply hlast.mpr
      intro i b hb
      have hne : cutRows content feed id semver2 i ≠ [] := by
        intro hnil
        rw [cutRows] at hnil
        rw [ascending] at hnil
        rw [hnil] at hb
        cases hb
      have ha := List.head?_eq_some_head hne
      rw [← (answeredRows_eq horders ha hb).2.2, (h i (lt_pageCount ha)).2]
      exact hb

end Answers

/-- The answer for a page is as the index cuts it. -/
structure PageFits (cut answered : List FeedRow) : Prop where
  length : answered.length = cut.length
  first : answered.head? = cut.head?
  last : answered.getLast? = cut.getLast?

/-- The pages are as they are cut where no cut parts equal versions and those at the ends of a page
come in one order. -/
theorem fits_iff (horders : ∀ i, (orders i).Perm content) :
    (∀ i < pageCount content feed id semver2, PageFits (cutRows content feed id semver2 i)
      (answeredRows content feed id semver2 (orders i) i)) ↔
    Uncut FeedRow.byVersion registrationPageSize (hiveRows content feed id semver2) ∧
      SameEnds (hiveRows content feed id semver2) fun i => hiveRows (orders i) feed id semver2 := by
  constructor
  · intro h
    have hu := (uncut_iff_length horders).mpr fun i hi => (h i hi).length
    exact ⟨hu.perm ascending_perm, (sameEnds_iff horders hu).mpr fun i hi => ⟨(h i hi).first, (h i hi).last⟩⟩
  · rintro ⟨hu, hsame⟩ i hi
    have hu := hu.perm ascending_perm.symm
    have hends := (sameEnds_iff horders hu).mp hsame i hi
    exact ⟨(uncut_iff_length horders).mp hu i hi, hends.1, hends.2⟩

theorem PageFits.perm (horder : rows.Perm content) {a b : FeedRow}
    (ha : (cutRows content feed id semver2 i).head? = some a)
    (hb : (cutRows content feed id semver2 i).getLast? = some b)
    (h : PageFits (cutRows content feed id semver2 i)
      (answeredRows content feed id semver2 rows i)) :
    (answeredRows content feed id semver2 rows i).Perm (cutRows content feed id semver2 i) := by
  have hanswered := (answeredRows_eq (fun _ => horder) ha hb).1
  have hsub : (cutRows content feed id semver2 i).Sublist
      ((ascending content feed id semver2).filter (between FeedRow.byVersion a b)) := by
    have hall : (cutRows content feed id semver2 i).filter (between FeedRow.byVersion a b) =
        cutRows content feed id semver2 i := by
      rw [List.filter_eq_self]
      intro x hx
      have hax : (FeedRow.byVersion a x).isLE = true := le_of_head? cutRows_sorted ha x hx
      have hxb : (FeedRow.byVersion x b).isLE = true := le_of_getLast? cutRows_sorted hb x hx
      simp [between, hax, hxb]
    rw [← hall]
    exact ((List.take_sublist _ _).trans (List.drop_sublist _ _)).filter _
  have heq := hsub.eq_of_length (h.length.symm.trans hanswered.length_eq)
  rw [heq]
  exact hanswered

def answeredPage (content : List FeedRow) (feed : String) (id : Text) (semver2 : Bool)
    (rows : List FeedRow) (i : ℕ) : PageDoc :=
  registrationPage semver2 (Text.lower id) (answeredRows content feed id semver2 rows i)

theorem bounds_eq_iff (hkeyed : Keyed content) {cut answered : List FeedRow}
    (hcut : ∀ r ∈ cut, r ∈ hiveRows content feed id semver2)
    (hanswered : ∀ r ∈ answered, r ∈ hiveRows content feed id semver2) (hne : cut ≠ [])
    (hne' : answered ≠ []) : bounds answered = bounds cut ↔
      answered.head? = cut.head? ∧ answered.getLast? = cut.getLast? := by
  simp only [bounds, List.head?_eq_some_head hne, List.head?_eq_some_head hne',
    List.getLast?_eq_some_getLast hne, List.getLast?_eq_some_getLast hne', Option.map_some,
    Option.getD_some, Prod.mk.injEq, Option.some.injEq]
  rw [eq_of_normalizedVersion hkeyed (hanswered _ (List.head_mem hne')) (hcut _ (List.head_mem hne)),
    eq_of_normalizedVersion hkeyed (hanswered _ (List.getLast_mem hne'))
      (hcut _ (List.getLast_mem hne))]

theorem answeredRows_ne_nil (horder : rows.Perm content)
    (hi : i < pageCount content feed id semver2) :
    answeredRows content feed id semver2 rows i ≠ [] := by
  obtain ⟨a, b, ha, hb, hab⟩ := exists_ends hi
  have hmem := mem_pageRows horder (mem_of_mem_cutRows (List.mem_of_head? ha)) hab
  unfold answeredRows
  rw [ha, hb]
  exact List.ne_nil_of_mem hmem

theorem mem_of_mem_answeredRows (horder : rows.Perm content) {r : FeedRow}
    (h : r ∈ answeredRows content feed id semver2 rows i) :
    r ∈ hiveRows content feed id semver2 := by
  unfold answeredRows at h
  split at h
  · rw [(pageRows_perm horder).mem_iff] at h
    exact mem_sortBy.mp (List.mem_of_mem_filter h)
  · cases h

/-- The pages of the index are answered, each with its rows. -/
theorem readPages_external (hid : validatePackageId id = .ok ())
    (horders : ∀ i, (orders i).Perm content) :
    readPages ((chunks registrationPageSize (ascending content feed id semver2)).map
        (externalPage semver2 id)) feed orders =
      ((List.range (pageCount content feed id semver2)).map fun i =>
        answeredPage content feed id semver2 (orders i) i).map .ok := by
  apply List.ext_getElem
  · simp [readPages, chunks, pageCount]
  · intro i h₁ h₂
    have hi : i < pageCount content feed id semver2 := by simpa using h₂
    obtain ⟨a, b, ha, hb, hab⟩ := exists_ends hi
    have hne := answeredRows_ne_nil (horders i) hi
    have heq : answeredRows content feed id semver2 (orders i) i =
        pageRows (orders i) feed id semver2 a b := by
      unfold answeredRows
      rw [ha, hb]
    rw [heq] at hne
    have hpage := pageAt_external hid ha hb hne
    simp only [readPages, chunks, List.getElem_mapIdx, List.getElem_map, List.getElem_range,
      externalPage, answeredPage, heq]
    exact hpage

theorem chunks_ascending : chunks registrationPageSize (ascending content feed id semver2) =
    (List.range (pageCount content feed id semver2)).map (cutRows content feed id semver2) := rfl

/-- What the index says of a page holds of the one that fits. -/
theorem agree_iff (hkeyed : Keyed content) (horders : ∀ i, (orders i).Perm content) :
    List.Forall₂ (fun page item : PageDoc =>
        page.count = item.count ∧ page.lower = item.lower ∧ page.upper = item.upper)
      ((List.range (pageCount content feed id semver2)).map fun i =>
        answeredPage content feed id semver2 (orders i) i)
      ((chunks registrationPageSize (ascending content feed id semver2)).map
        (externalPage semver2 id)) ↔
    ∀ i < pageCount content feed id semver2, PageFits (cutRows content feed id semver2 i)
      (answeredRows content feed id semver2 (orders i) i) := by
  rw [chunks_ascending, List.map_map, List.forall₂_map_left_iff, List.forall₂_map_right_iff,
    List.forall₂_same]
  simp only [List.mem_range]
  apply forall₂_congr
  intro i hi
  obtain ⟨a, b, ha, hb, -⟩ := exists_ends hi
  have hends := bounds_eq_iff hkeyed (fun r => mem_of_mem_cutRows (i := i))
    (fun r => mem_of_mem_answeredRows (horders i)) (List.ne_nil_of_mem (List.mem_of_head? ha))
    (answeredRows_ne_nil (horders i) hi)
  rw [Prod.ext_iff] at hends
  constructor
  · rintro ⟨hcount, hbounds⟩
    have hsame := hends.mp hbounds
    exact ⟨hcount, hsame.1, hsame.2⟩
  · intro h
    exact ⟨h.length, hends.mpr ⟨h.first, h.last⟩⟩

/-- Pages that fit hold each version once, in ascending order. -/
theorem flatten_of_fits (horders : ∀ i, (orders i).Perm content)
    (h : ∀ i < pageCount content feed id semver2, PageFits (cutRows content feed id semver2 i)
      (answeredRows content feed id semver2 (orders i) i)) :
    let answered := ((List.range (pageCount content feed id semver2)).map fun i =>
      answeredRows content feed id semver2 (orders i) i).flatten
    answered.Perm (hiveRows content feed id semver2) ∧
      answered.Pairwise (Le FeedRow.byVersion) := by
  have hperm : ∀ i < pageCount content feed id semver2,
      (answeredRows content feed id semver2 (orders i) i).Perm
        (cutRows content feed id semver2 i) := by
    intro i hi
    obtain ⟨a, b, ha, hb, -⟩ := exists_ends hi
    exact (h i hi).perm (horders i) ha hb
  have hcuts : ((List.range (pageCount content feed id semver2)).map
      (cutRows content feed id semver2)).flatten = ascending content feed id semver2 := by
    rw [← chunks_ascending]
    exact flatten_chunks (by decide)
  have hsorted : ((List.range (pageCount content feed id semver2)).map
      (cutRows content feed id semver2)).flatten.Pairwise (Le FeedRow.byVersion) := by
    rw [hcuts]
    exact ascending_sorted
  constructor
  · have hflat : ((List.range (pageCount content feed id semver2)).map fun i =>
        answeredRows content feed id semver2 (orders i) i).flatten.Perm
          (ascending content feed id semver2) := by
      rw [← hcuts]
      apply List.Perm.flatten_congr
      rw [List.forall₂_map_left_iff, List.forall₂_map_right_iff, List.forall₂_same]
      exact fun i hi => hperm i (List.mem_range.mp hi)
    exact hflat.trans ascending_perm
  · rw [List.pairwise_flatten, List.pairwise_map] at hsorted ⊢
    constructor
    · intro l hl
      obtain ⟨i, -, rfl⟩ := List.mem_map.mp hl
      unfold answeredRows
      split
      · exact pageRows_sorted
      · exact List.Pairwise.nil
    · apply hsorted.2.imp_of_mem
      intro i j hi hj hij x hx y hy
      exact hij x ((hperm i (List.mem_range.mp hi)).mem_iff.mp hx) y
        ((hperm j (List.mem_range.mp hj)).mem_iff.mp hy)

/-- Pages that fit partition the versions, and only these are as the index says. -/
theorem partitioned_iff (hkeyed : Keyed content) (horders : ∀ i, (orders i).Perm content) :
    Partitioned ((chunks registrationPageSize (ascending content feed id semver2)).map
        (externalPage semver2 id))
      ((List.range (pageCount content feed id semver2)).map fun i =>
        answeredPage content feed id semver2 (orders i) i) (hiveRows content feed id semver2) ↔
    ∀ i < pageCount content feed id semver2, PageFits (cutRows content feed id semver2 i)
      (answeredRows content feed id semver2 (orders i) i) := by
  constructor
  · intro h
    exact (agree_iff hkeyed horders).mp h.agree
  · intro h
    have hflat : (((List.range (pageCount content feed id semver2)).map fun i =>
        answeredPage content feed id semver2 (orders i) i).flatMap fun page =>
          page.items.getD []) = ((List.range (pageCount content feed id semver2)).map fun i =>
            answeredRows content feed id semver2 (orders i) i).flatten := by
      rw [List.flatMap_map, List.flatMap_def]
      rfl
    obtain ⟨hperm, hsorted⟩ := flatten_of_fits horders h
    constructor
    · exact (agree_iff hkeyed horders).mpr h
    · intro page hpage
      obtain ⟨i, -, rfl⟩ := List.mem_map.mp hpage
      exact ⟨_, rfl, rfl⟩
    · rw [hflat]
      exact hperm
    · rw [hflat]
      exact hsorted

end Cuts

section Index

variable {rows mirrored : List FeedRow} {feed : String} {id : Text} {semver2 : Bool}
  {index : List PageDoc} {orders : ℕ → List FeedRow}

theorem of_registrationIndexFor (h : registrationIndexFor rows feed id semver2 mirrored = .ok index) :
    validatePackageId id = .ok () ∧ index = registrationIndex semver2 id
      (ascending (indexed rows feed id mirrored) feed id semver2) := by
  unfold registrationIndexFor checkId at h
  cases hid : validatePackageId id with
  | error e => simp [hid, Except.mapError, bind, Except.bind] at h
  | ok u =>
    simp only [hid, Except.mapError, bind, Except.bind, filterHive_findVersions] at h
    split at h
    · cases h
    split at h
    · cases h
    exact ⟨rfl, (Except.ok.inj h).symm⟩

/-- The pages of an index partition the versions where these fit one page, or no cut parts equal
versions and those at the ends of a page come in one order. -/
theorem readPages_partitioned_iff {content : List FeedRow} (hid : validatePackageId id = .ok ())
    (hkeyed : Keyed content) (horders : ∀ i, (orders i).Perm content) :
    (∃ pages, readPages (registrationIndex semver2 id (ascending content feed id semver2)) feed
        orders = pages.map .ok ∧
      Partitioned (registrationIndex semver2 id (ascending content feed id semver2)) pages
        (hiveRows content feed id semver2)) ↔
      (hiveRows content feed id semver2).length < registrationInlineMax ∨
        Uncut FeedRow.byVersion registrationPageSize (hiveRows content feed id semver2) ∧
          SameEnds (hiveRows content feed id semver2)
            fun i => hiveRows (orders i) feed id semver2 := by
  unfold registrationIndex
  rw [ascending_perm.length_eq]
  split
  next hfew =>
    simp only [hfew, true_or, iff_true]
    refine ⟨[inlinePage _], rfl, ?_⟩
    constructor
    · exact .cons ⟨rfl, rfl, rfl⟩ .nil
    · intro page hpage
      obtain rfl := List.mem_singleton.mp hpage
      exact ⟨_, rfl, rfl⟩
    · simpa [inlinePage] using ascending_perm
    · simpa [inlinePage] using ascending_sorted
  next hmany =>
    simp only [hmany, false_or]
    rw [readPages_external hid horders, ← fits_iff horders, ← partitioned_iff hkeyed horders]
    constructor
    · rintro ⟨pages, hpages, hpartitioned⟩
      have hinj : Function.Injective (Except.ok : PageDoc → Except RequestError PageDoc) :=
        fun _ _ h => Except.ok.inj h
      rwa [List.map_injective_iff.mpr hinj hpages]
    · exact fun h => ⟨_, rfl, h⟩

/-- The pages of an index partition the versions of the hive exactly when there is one page, or no
cut parts versions that compare equal and each page meets those at its ends in the order in which
the index met them. -/
theorem registration_partitioned_iff
    (hkeyed : Keyed (indexed rows feed id mirrored))
    (hindex : registrationIndexFor rows feed id semver2 mirrored = .ok index)
    (horders : ∀ i, (orders i).Perm (indexed rows feed id mirrored)) :
    let hive := hiveRows (indexed rows feed id mirrored) feed id semver2
    (∃ pages, readPages index feed orders = pages.map .ok ∧ Partitioned index pages hive) ↔
      hive.length < registrationInlineMax ∨
        Uncut FeedRow.byVersion registrationPageSize hive ∧
          SameEnds hive fun i => hiveRows (orders i) feed id semver2 := by
  obtain ⟨hid, rfl⟩ := of_registrationIndexFor hindex
  exact readPages_partitioned_iff hid hkeyed horders

end Index

theorem cmp_written (major patch major' patch' : ℕ) (pre pre' : List Text) :
    (writtenVersion major patch pre).cmp (writtenVersion major' patch' pre') =
      (compare major major').then ((compare patch patch').then
        (Versions.NuGetVersion.cmpPre (writtenVersion major patch pre)
          (writtenVersion major' patch' pre'))) := by
  have hzero : compare 0 0 = Ordering.eq := rfl
  unfold Versions.NuGetVersion.cmp Versions.NuGetVersion.cmpCore
  simp only [writtenVersion, hzero, Ordering.eq_then, Ordering.then_eq]
  rw [Ordering.then_assoc]

/-- `k` versions, one version twice, and more of them up to 128. -/
def crowdedRow (k : ℕ) (i : Fin 128) : FeedRow :=
  have hi : (i : ℕ) < 2 ^ 64 := by omega
  if (i : ℕ) < k then
    sampleRow (writtenVersion 0 i []) (parseStored_written (by decide) hi (by simp))
  else if (i : ℕ) = k then leadingZero
  else if (i : ℕ) = k + 1 then withoutZero
  else sampleRow (writtenVersion 2 i []) (parseStored_written (by decide) hi (by simp))

def crowded (k : ℕ) : List FeedRow := List.ofFn (crowdedRow k)

section Crowded

variable {k : ℕ}

theorem cmp_crowded {i j : Fin 128} (h : i < j) :
    FeedRow.byVersion (crowdedRow k i) (crowdedRow k j) =
      if (i : ℕ) = k ∧ (j : ℕ) = k + 1 then .eq else .lt := by
  have hlt : (i : ℕ) < j := h
  have hcmp : compare (i : ℕ) j = .lt := Nat.compare_eq_lt.mpr hlt
  unfold FeedRow.byVersion crowdedRow
  split_ifs
  all_goals first
    | omega
    | rfl
    | change (writtenVersion _ i _).cmp (writtenVersion _ j _) = _
      rw [cmp_written, hcmp]
      rfl

theorem sorted_crowded : (crowded k).Pairwise (Le FeedRow.byVersion) := by
  rw [crowded, List.pairwise_ofFn]
  intro i j h
  unfold Le
  rw [cmp_crowded h]
  split <;> rfl

theorem cmp_crowded_eq_iff (i j : Fin 128) :
    FeedRow.byVersion (crowdedRow k i) (crowdedRow k j) = .eq ↔
      i = j ∨ (i : ℕ) = k ∧ (j : ℕ) = k + 1 ∨ (i : ℕ) = k + 1 ∧ (j : ℕ) = k := by
  rcases Nat.lt_trichotomy i j with hij | hij | hij
  · rw [cmp_crowded hij]
    split_ifs <;> simp <;> omega
  · obtain rfl := Fin.ext hij
    simp [ReflCmp.compare_self]
  · have hcmp := cmp_crowded (k := k) hij
    constructor
    · intro heq
      rw [OrientedCmp.eq_symm heq] at hcmp
      split_ifs at hcmp
      omega
    · intro heq
      rw [if_pos (by omega)] at hcmp
      exact OrientedCmp.eq_symm hcmp

theorem keyed_crowded : Keyed (crowded k) := by
  have hne : leadingZero.key ≠ withoutZero.key := by decide
  rw [Keyed, crowded, List.map_ofFn, List.nodup_ofFn]
  intro i j hkey
  have hcmp : FeedRow.byVersion (crowdedRow k i) (crowdedRow k j) = .eq := by
    simp only [Function.comp_apply, FeedRow.key, Prod.mk.injEq] at hkey
    exact NormalizedVersion.cmp_eq (crowdedRow k i).isStored (crowdedRow k j).isStored hkey.2.2
  have hrows : ∀ i : Fin 128, ((i : ℕ) = k → crowdedRow k i = leadingZero) ∧
      ((i : ℕ) = k + 1 → crowdedRow k i = withoutZero) := by
    intro i
    constructor <;> intro hi <;> simp [crowdedRow, hi]
  rcases (cmp_crowded_eq_iff i j).mp hcmp with hij | ⟨hi, hj⟩ | ⟨hi, hj⟩
  · exact hij
  · rw [Function.comp_apply, Function.comp_apply, (hrows i).1 hi, (hrows j).2 hj] at hkey
    exact absurd hkey hne
  · rw [Function.comp_apply, Function.comp_apply, (hrows i).2 hi, (hrows j).1 hj] at hkey
    exact absurd hkey.symm hne

theorem hiveRows_crowded (semver2 : Bool) :
    hiveRows (crowded k) "default" "pkg".toList semver2 = crowded k := by
  rw [hiveRows, List.filter_eq_self]
  intro r hr
  obtain ⟨i, rfl⟩ := (List.mem_ofFn' _ _).mp hr
  unfold crowdedRow
  dsimp only
  split_ifs <;> cases semver2 <;> rfl

theorem ascending_crowded (semver2 : Bool) :
    ascending (crowded k) "default" "pkg".toList semver2 = crowded k := by
  rw [ascending, hiveRows_crowded]
  exact sortBy_of_sorted sorted_crowded

theorem length_crowded : (crowded k).length = 128 := List.length_ofFn

theorem getElem?_crowded (i : Fin 128) : (crowded k)[(i : ℕ)]? = some (crowdedRow k i) := by
  rw [crowded, List.getElem?_ofFn, dif_pos i.isLt]

theorem index_crowded : registrationIndexFor (crowded k) "default" "pkg".toList false [] =
    .ok (registrationIndex false "pkg".toList
      (ascending (crowded k) "default" "pkg".toList false)) ∧
    indexed (crowded k) "default" "pkg".toList [] = crowded k := by
  have hne : (crowded k).isEmpty = false := by
    rw [← Bool.not_eq_true, List.isEmpty_iff_length_eq_zero, length_crowded]
    decide
  have hfound : findVersions (crowded k) "default" "pkg".toList true = crowded k := by
    have hhive := filterHive_findVersions (crowded k) "default" "pkg".toList true
    rw [hiveRows_crowded, sortBy_of_sorted sorted_crowded] at hhive
    exact hhive
  have hindexed : indexed (crowded k) "default" "pkg".toList [] = crowded k := by
    rw [indexed, hfound, hne]
    rfl
  have hvalid : validatePackageId "pkg".toList = .ok () := rfl
  refine ⟨?_, hindexed⟩
  unfold registrationIndexFor checkId
  have hhive := filterHive_findVersions (crowded k) "default" "pkg".toList false
  rw [hiveRows_crowded, sortBy_of_sorted sorted_crowded, hfound] at hhive
  simp only [hindexed, hfound, hvalid, hhive, hne, ascending_crowded, Except.mapError, bind,
    Except.bind, Bool.false_eq_true, if_false]

/-- Where the versions that are equal to one of these stand. -/
theorem position_crowded (hk : k + 1 < 128) (j : Fin 128) :
    before FeedRow.byVersion (crowdedRow k j) (crowded k) =
        (if (j : ℕ) = k + 1 then k else (j : ℕ)) ∧
      before FeedRow.byVersion (crowdedRow k j) (crowded k) +
          (ties FeedRow.byVersion (crowdedRow k j) (crowded k)).length =
        if (j : ℕ) = k then k + 2 else j + 1 := by
  have hat (p : ℕ) (hp : p < 128) : before FeedRow.byVersion (crowdedRow k j) (crowded k) ≤ p ∧
      p < before FeedRow.byVersion (crowdedRow k j) (crowded k) +
        (ties FeedRow.byVersion (crowdedRow k j) (crowded k)).length ↔
      (j : ℕ) = p ∨ (j : ℕ) = k ∧ p = k + 1 ∨ (j : ℕ) = k + 1 ∧ p = k := by
    rw [← eq_iff_position sorted_crowded (getElem?_crowded ⟨p, hp⟩), cmp_crowded_eq_iff, Fin.ext_iff]
  have hself := (hat j j.isLt).mpr (.inl rfl)
  have hbound : before FeedRow.byVersion (crowdedRow k j) (crowded k) +
      (ties FeedRow.byVersion (crowdedRow k j) (crowded k)).length ≤ 128 := by
    have hlast : (ties FeedRow.byVersion (crowdedRow k j) (crowded k)).length - 1 <
        (ties FeedRow.byVersion (crowdedRow k j) (crowded k)).length := by omega
    have hget := getElem?_before_add (sorted_crowded (k := k)) hlast
    rw [List.getElem?_eq_getElem hlast] at hget
    obtain ⟨hlt, -⟩ := List.getElem?_eq_some_iff.mp hget
    rw [length_crowded] at hlt
    omega
  generalize before FeedRow.byVersion (crowdedRow k j) (crowded k) = b at *
  generalize (ties FeedRow.byVersion (crowdedRow k j) (crowded k)).length = n at *
  have hfirst := (hat b (by omega)).mp (by omega)
  have hlast := (hat (b + n - 1) (by omega)).mp (by omega)
  have hk₀ := hat k (by omega)
  have hk₁ := hat (k + 1) hk
  clear hat
  split_ifs <;> omega

end Crowded

/-- The first two versions that are equal stand within the first page, and a page meets them in the
other order. -/
theorem sameEnds_crowded :
    SameEnds (crowded 20) fun _ => (crowded 20).reverse := by
  have hone (j : Fin 128) (h : (ties FeedRow.byVersion (crowdedRow 20 j) (crowded 20)).length = 1) :
      ties FeedRow.byVersion (crowdedRow 20 j) (crowded 20).reverse =
        ties FeedRow.byVersion (crowdedRow 20 j) (crowded 20) := by
    obtain ⟨r, hr⟩ := List.length_eq_one_iff.mp h
    have hreverse : ties FeedRow.byVersion (crowdedRow 20 j) (crowded 20).reverse =
        (ties FeedRow.byVersion (crowdedRow 20 j) (crowded 20)).reverse := List.filter_reverse ..
    rw [hreverse, hr]
    rfl
  have hsize : registrationPageSize = 64 := rfl
  constructor
  · intro a ha i hi
    obtain ⟨j, rfl⟩ := (List.mem_ofFn' _ _).mp ha
    obtain ⟨hstart, hend⟩ := position_crowded (k := 20) (by decide) j
    rw [hsize] at hi
    rw [hone j]
    split_ifs at hstart hend <;> omega
  · intro a ha i _ hi
    obtain ⟨j, rfl⟩ := (List.mem_ofFn' _ _).mp ha
    obtain ⟨hstart, hend⟩ := position_crowded (k := 20) (by decide) j
    rw [length_crowded, hsize] at hi
    rw [hone j]
    split_ifs at hstart hend <;> omega

theorem uncut_crowded : Uncut FeedRow.byVersion registrationPageSize (crowded 20) := by
  have hsize : registrationPageSize = 64 := rfl
  intro a ha i hcut
  obtain ⟨j, rfl⟩ := (List.mem_ofFn' _ _).mp ha
  obtain ⟨hstart, hend⟩ := position_crowded (k := 20) (by decide) j
  rw [hsize] at hcut
  split_ifs at hstart hend <;> omega

/-- The 128 versions are on two pages, each answered by a query of its own. -/
theorem registration_partitioned_sample :
    ∃ index pages, registrationIndexFor (crowded 20) "default" "pkg".toList false [] = .ok index ∧
      index.length = 2 ∧ (∀ page ∈ index, ∃ url, page.id = .external url) ∧
      readPages index "default" (fun _ => (crowded 20).reverse) = pages.map .ok ∧
      Partitioned index pages (crowded 20) := by
  obtain ⟨hindex, hindexed⟩ := index_crowded (k := 20)
  have hkeyed : Keyed (indexed (crowded 20) "default" "pkg".toList []) := by
    rw [hindexed]
    exact keyed_crowded
  have horders : ∀ _ : ℕ, (crowded 20).reverse.Perm
      (indexed (crowded 20) "default" "pkg".toList []) := by
    intro _
    rw [hindexed]
    exact List.reverse_perm _
  have hiff := registration_partitioned_iff hkeyed hindex horders
  have hreverse : hiveRows (crowded 20).reverse "default" "pkg".toList false =
      (crowded 20).reverse := by
    rw [hiveRows, List.filter_reverse]
    exact congrArg List.reverse (hiveRows_crowded false)
  rw [hindexed, hiveRows_crowded, hreverse] at hiff
  obtain ⟨pages, hread, hpartitioned⟩ := hiff.mpr (.inr ⟨uncut_crowded, sameEnds_crowded⟩)
  have hpaged : registrationIndex false "pkg".toList
      (ascending (crowded 20) "default" "pkg".toList false) =
      (chunks registrationPageSize (crowded 20)).map (externalPage false "pkg".toList) := by
    rw [ascending_crowded, registrationIndex, length_crowded]
    rfl
  refine ⟨_, pages, hindex, ?_, ?_, hread, hpartitioned⟩
  · rw [hpaged, List.length_map, chunks, List.length_map, List.length_range, length_crowded]
    rfl
  · intro page hpage
    rw [hpaged] at hpage
    obtain ⟨chunk, -, rfl⟩ := List.mem_map.mp hpage
    exact ⟨_, rfl⟩

theorem cut_crowded : ¬ Uncut FeedRow.byVersion registrationPageSize (crowded 63) := by
  rw [uncut_iff sorted_crowded]
  intro hcuts
  have hcut := hcuts 1 (crowdedRow 63 63) (crowdedRow 63 64) (by decide) (getElem?_crowded 63)
    (getElem?_crowded 64)
  rw [cmp_crowded (by decide)] at hcut
  cases hcut

/-- A version that was stored with and without a leading zero stands at the end of a page and at
the beginning of the next, and is on both. -/
theorem versions_on_two_pages : ¬ ∀ (rows mirrored : List FeedRow) (feed : String) (id : Text)
    (semver2 : Bool) (index : List PageDoc) (orders : ℕ → List FeedRow),
    Keyed (indexed rows feed id mirrored) →
    registrationIndexFor rows feed id semver2 mirrored = .ok index →
    (∀ i, (orders i).Perm (indexed rows feed id mirrored)) →
    ∃ pages, readPages index feed orders = pages.map .ok ∧
      Partitioned index pages (hiveRows (indexed rows feed id mirrored) feed id semver2) := by
  intro hclaim
  obtain ⟨hindex, hindexed⟩ := index_crowded (k := 63)
  have hkeyed : Keyed (indexed (crowded 63) "default" "pkg".toList []) := by
    rw [hindexed]
    exact keyed_crowded
  have horders : ℕ → (crowded 63).Perm (indexed (crowded 63) "default" "pkg".toList []) := by
    intro _
    rw [hindexed]
  have hpages := hclaim (crowded 63) [] "default" "pkg".toList false _ (fun _ => crowded 63) hkeyed hindex
    horders
  have hvalid : validatePackageId "pkg".toList = .ok () := rfl
  rw [hindexed] at hpages
  have hcuts := (readPages_partitioned_iff hvalid keyed_crowded fun _ => .rfl).mp hpages
  rw [hiveRows_crowded] at hcuts
  rcases hcuts with hfew | ⟨huncut, -⟩
  · rw [length_crowded] at hfew
    exact absurd hfew (by decide)
  · exact cut_crowded huncut

end YaNuget.Listings
