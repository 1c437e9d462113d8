import Mathlib.Algebra.Order.BigOperators.Group.List
import Mathlib.Algebra.GroupWithZero.Nat
import Mathlib.Algebra.Order.Group.Nat
import Mathlib.Data.List.Induction
import Mathlib.Logic.Function.Basic
import YaNuget.Listings.FeedRows

/-!
# Search groups and headlines

A page of search results shows its packages with all versions, or each with the
version that stands for it. The one path loads the versions and picks from them
in order, the other keeps the best it has met while the rows pass by.
-/
namespace YaNuget.Listings

open Std Versions Sorting

/-- How many ids one `IN (…)` list binds. -/
def idChunk : ℕ := 400

/-- One package of a search. -/
structure SearchGroup where
  packages : List FeedRow
  admittedVersions : ℕ
  idDownloads : ℕ

/-- Whether `candidate` headlines a package rather than `current`. -/
def headlineBeats (candidate current : Versions.NuGetVersion) : Bool :=
  match candidate.isPrerelease, current.isPrerelease with
  | false, true => true
  | true, false => false
  | _, _ => candidate.cmp current = .gt

namespace SearchGroup

variable (g : SearchGroup)

def headline : Option FeedRow :=
  match g.packages with
  | [] => none
  | p :: rest =>
    some (rest.foldl (fun head p => if headlineBeats p.version head.version then p else head) p)

def versionCount : ℕ := max g.admittedVersions g.packages.length

def totalDownloads : ℕ := max g.idDownloads (g.packages.map FeedRow.downloads).sum

end SearchGroup

/-- What is asked of a feed's versions. -/
structure Filter where
  feed : String
  includePrerelease : Bool
  includeSemver2 : Bool

def Filter.admits (f : Filter) (listedOnly : Bool) (r : FeedRow) : Bool :=
  r.feed == f.feed && r.enabled && !r.pending && (!listedOnly || r.listed) &&
    (f.includePrerelease || !r.isPrerelease) && (f.includeSemver2 || !r.isSemver2)

def addRows {β : Type} (add : Option β → FeedRow → β) (m : Text → Option β) (rows : List FeedRow) :
    Text → Option β :=
  rows.foldl (fun m r => Function.update m r.lowerId (some (add (m r.lowerId) r))) m

/-- The groups of the ids, in their order, each taken out of the map. -/
def inRanking {β : Type} (make : Text → β → Option SearchGroup) :
    List Text → (Text → Option β) → List SearchGroup
  | [], _ => []
  | id :: ids, m =>
    match (m id).bind (make id) with
    | some g => g :: inRanking make ids (Function.update m id none)
    | none => inRanking make ids (Function.update m id none)

def downloadTotals (content : List FeedRow) (feed : String) (chunk : List Text)
    (totals : Text → Option ℕ) : Text → Option ℕ := fun id =>
  let served := content.filter fun r => r.feed == feed && r.enabled && !r.pending && r.lowerId == id
  if id ∈ chunk ∧ served ≠ [] then some (served.map FeedRow.downloads).sum else totals id

structure Groups where
  byId : Text → Option (List FeedRow) := fun _ => none
  totals : Text → Option ℕ := fun _ => none

section Queries

variable (content : List FeedRow) (f : Filter)

/-- The versions of one chunk of ids, as the query meets the rows. -/
def groupsOfChunk (listedOnly : Bool) (orders : ℕ → List FeedRow) (s : Groups)
    (chunk : List Text × ℕ) : Groups :=
  let rows := (orders chunk.2).filter fun r => f.admits listedOnly r && r.lowerId ∈ chunk.1
  { byId := addRows (fun packages p => packages.getD [] ++ [p]) s.byId rows
    totals := downloadTotals content f.feed chunk.1 s.totals }

/-- Every visible version of the ids. -/
def loadGroups (listedOnly : Bool) (orders : ℕ → List FeedRow) (ids : List Text) :
    List SearchGroup :=
  let s := (chunks idChunk ids).zipIdx.foldl (groupsOfChunk content f listedOnly orders) {}
  inRanking (fun id packages =>
    some ⟨sortBy FeedRow.byVersion packages, packages.length, (s.totals id).getD 0⟩) ids s.byId

/-- The headline so far, parsed and as stored, and how many versions are visible. -/
structure Head where
  version : Versions.NuGetVersion
  normalized : Text
  count : ℕ

def addHead (head : Option Head) (r : FeedRow) : Head :=
  match head with
  | none => ⟨r.version, r.normalizedVersion, 1⟩
  | some head =>
    if headlineBeats r.version head.version then ⟨r.version, r.normalizedVersion, head.count + 1⟩
    else { head with count := head.count + 1 }

structure Headlines where
  heads : Text → Option Head := fun _ => none
  byId : Text → Option FeedRow := fun _ => none
  totals : Text → Option ℕ := fun _ => none

/-- The headlines of one chunk of ids: their keys first, then these in full. -/
def headlinesOfChunk (keyOrders fullOrders : ℕ → List FeedRow) (s : Headlines)
    (chunk : List Text × ℕ) : Headlines :=
  let rows := (keyOrders chunk.2).filter fun r => f.admits true r && r.lowerId ∈ chunk.1
  let heads := addRows addHead s.heads rows
  let keys := chunk.1.filterMap fun id => (heads id).map fun head => (id, head.normalized)
  let full := (fullOrders chunk.2).filter fun r =>
    r.feed == f.feed && (r.lowerId, r.normalizedVersion) ∈ keys
  { heads
    byId := addRows (fun _ p => p) s.byId full
    totals := downloadTotals content f.feed chunk.1 s.totals }

/-- The headline of each of the ids, and how many versions are visible. -/
def loadHeadlines (keyOrders fullOrders : ℕ → List FeedRow) (ids : List Text) :
    List SearchGroup :=
  let s := (chunks idChunk ids).zipIdx.foldl
    (headlinesOfChunk content f keyOrders fullOrders) {}
  inRanking (fun id package => (s.heads id).map fun head =>
    ⟨[package], head.count, (s.totals id).getD 0⟩) ids s.byId

end Queries

section Rule

/-- Pre-releases before releases, and then by version. -/
def headlineOrder : FeedRow → FeedRow → Ordering :=
  compareLex (compareOn fun r => !r.version.isPrerelease) FeedRow.byVersion

instance : TransCmp headlineOrder := inferInstanceAs (TransCmp (compareLex _ _))

variable {a b p : FeedRow}

theorem headlineBeats_iff : headlineBeats p.version a.version ↔ headlineOrder a p = .lt := by
  have hswap : FeedRow.byVersion a p = (p.version.cmp a.version).swap := OrientedCmp.eq_swap
  simp only [headlineBeats, headlineOrder, compareLex, compareOn, hswap]
  cases a.version.isPrerelease <;> cases p.version.isPrerelease <;>
    cases p.version.cmp a.version <;> decide

theorem headline_eq (g : SearchGroup) :
    g.headline = firstGreatest headlineOrder g.packages := by
  unfold SearchGroup.headline firstGreatest
  cases g.packages with
  | nil => rfl
  | cons p rest =>
    have hstep : (fun head p : FeedRow => if headlineBeats p.version head.version then p else head) =
        fun head x => if headlineOrder head x = .lt then x else head := by
      funext head x
      simp only [headlineBeats_iff]
    simp only [hstep]

theorem isPrerelease_of_cmp (h : FeedRow.byVersion a b = .eq) :
    a.version.isPrerelease = b.version.isPrerelease := by
  have hpre := (Versions.NuGetVersion.cmp_eq_eq.mp h).2
  have hlength : a.version.pre.length = b.version.pre.length := by
    simpa using congrArg List.length hpre
  unfold Versions.NuGetVersion.isPrerelease
  cases ha : a.version.pre <;> cases hb : b.version.pre <;> simp_all

theorem headlineOrder_eq : headlineOrder a b = .eq ↔ FeedRow.byVersion a b = .eq := by
  unfold headlineOrder compareLex
  rw [Ordering.then_eq_eq]
  constructor
  · exact fun h => h.2
  · intro h
    refine ⟨?_, h⟩
    rw [compareOn, isPrerelease_of_cmp h]
    exact ReflCmp.compare_self

theorem ties_headlineOrder (a : FeedRow) (l : List FeedRow) :
    ties headlineOrder a l = ties FeedRow.byVersion a l := by
  unfold ties
  congr 1
  funext x
  exact decide_eq_decide.mpr headlineOrder_eq

end Rule

section Maps

variable {β : Type} (add : Option β → FeedRow → β) (m : Text → Option β) (rows : List FeedRow)
  (id : Text)

theorem addRows_apply : addRows add m rows id =
    (rows.filter fun r => r.lowerId = id).foldl (fun entry r => some (add entry r)) (m id) := by
  unfold addRows
  induction rows generalizing m with
  | nil => rfl
  | cons r rows ih =>
    rw [List.foldl_cons, ih]
    by_cases hr : r.lowerId = id
    · rw [List.filter_cons_of_pos (by simpa using hr), List.foldl_cons]
      subst hr
      rw [Function.update_self]
    · rw [List.filter_cons_of_neg (by simpa using hr), Function.update_of_ne (Ne.symm hr)]

variable {m}

/-- Ids that are asked for once each are answered independently. -/
theorem inRanking_eq {make : Text → β → Option SearchGroup} {ids : List Text} (h : ids.Nodup) :
    inRanking make ids m = ids.filterMap fun id => (m id).bind (make id) := by
  induction ids generalizing m with
  | nil => rfl
  | cons id ids ih =>
    obtain ⟨hid, hids⟩ := List.nodup_cons.mp h
    have hrest : (ids.filterMap fun id' => (Function.update m id none id').bind (make id')) =
        ids.filterMap fun id' => (m id').bind (make id') := by
      apply List.filterMap_congr
      intro id' hid'
      rw [Function.update_of_ne]
      rintro rfl
      exact hid hid'
    rw [inRanking, ih hids, hrest, List.filterMap_cons]
    cases (m id).bind (make id) <;> rfl

end Maps

section Folds

variable (rows : List FeedRow)

theorem foldl_push (packages : Option (List FeedRow)) :
    rows.foldl (fun entry p => some (entry.getD [] ++ [p])) packages =
      if rows = [] then packages else some (packages.getD [] ++ rows) := by
  induction rows generalizing packages with
  | nil => rfl
  | cons r rows ih =>
    rw [List.foldl_cons, ih]
    by_cases hrows : rows = [] <;> simp [hrows]

/-- The running headline is that of all rows met, and counts them. -/
theorem foldl_addHead {r : FeedRow} (h : firstGreatest headlineOrder rows = some r) :
    rows.foldl (fun head r => some (addHead head r)) none =
      some ⟨r.version, r.normalizedVersion, rows.length⟩ := by
  induction rows using List.reverseRecOn generalizing r with
  | nil => cases h
  | append_singleton rows x ih =>
    rw [List.foldl_append]
    rcases List.eq_nil_or_concat rows with rfl | ⟨init, last, hrows⟩
    · obtain rfl := Option.some.inj h
      rfl
    · have hne : rows ≠ [] := by simp [hrows]
      obtain ⟨best, hbest, -⟩ := @firstGreatest_spec _ headlineOrder _ rows hne
      rw [firstGreatest_concat hbest] at h
      obtain rfl := Option.some.inj h
      rw [ih hbest, List.foldl_cons, List.foldl_nil, addHead, List.length_append]
      by_cases hbeats : headlineOrder best x = .lt
      · rw [if_pos hbeats, if_pos (headlineBeats_iff.mpr hbeats)]
        rfl
      · rw [if_neg hbeats, if_neg (headlineBeats_iff.not.mpr hbeats)]
        rfl

end Folds

section Chunked

variable {σ γ : Type} (step : σ → List Text × ℕ → σ) (get : σ → Text → γ)
  (value : ℕ → Text → γ → γ)

theorem foldl_chunks_of_not_mem
    (hout : ∀ s c i id, id ∉ c → get (step s (c, i)) id = get s id)
    (cs : List (List Text)) (n : ℕ) (s : σ) {id : Text} (hid : id ∉ cs.flatten) :
    get ((cs.zipIdx n).foldl step s) id = get s id := by
  induction cs generalizing n s with
  | nil => rfl
  | cons c cs ih =>
    rw [List.flatten_cons, List.mem_append, not_or] at hid
    rw [List.zipIdx_cons, List.foldl_cons, ih (n + 1) _ hid.2, hout s c n id hid.1]

/-- Where the ids are asked for once each, what is found for one is found by the query of its own
chunk. -/
theorem foldl_chunks_of_mem
    (hin : ∀ s c i id, id ∈ c → get (step s (c, i)) id = value i id (get s id))
    (hout : ∀ s c i id, id ∉ c → get (step s (c, i)) id = get s id)
    (cs : List (List Text)) (n : ℕ) (s : σ) {id : Text} (hnodup : cs.flatten.Nodup)
    (hid : id ∈ cs.flatten) :
    get ((cs.zipIdx n).foldl step s) id =
      value (n + cs.findIdx (id ∈ ·)) id (get s id) := by
  induction cs generalizing n s with
  | nil => cases hid
  | cons c cs ih =>
    rw [List.flatten_cons, List.nodup_append] at hnodup
    obtain ⟨-, hrest, hapart⟩ := hnodup
    rw [List.zipIdx_cons, List.foldl_cons, List.findIdx_cons]
    by_cases hc : id ∈ c
    · have hnot : id ∉ cs.flatten := fun hmem => hapart id hc id hmem rfl
      rw [foldl_chunks_of_not_mem step get hout cs (n + 1) _ hnot, hin s c n id hc]
      simp [hc]
    · rw [List.flatten_cons, List.mem_append] at hid
      rw [ih (n + 1) _ hrest (hid.resolve_left hc), hout s c n id hc]
      simp only [hc, decide_false, cond_false]
      congr 1
      omega

end Chunked

section Answers

variable (content : List FeedRow) (f : Filter)

/-- The versions of a package that the query admits, as it meets them. -/
def visible (rows : List FeedRow) (id : Text) : List FeedRow :=
  rows.filter fun r => f.admits true r && r.lowerId = id

/-- The download total of a package, once its chunk was asked for. -/
def totalOf (id : Text) (total : Option ℕ) : Option ℕ :=
  let served := content.filter fun r =>
    r.feed == f.feed && r.enabled && !r.pending && r.lowerId == id
  if served ≠ [] then some (served.map FeedRow.downloads).sum else total

variable {content f} {id : Text} {chunk : List Text} {i : ℕ}

theorem filter_chunk (rows : List FeedRow) (hid : id ∈ chunk) :
    ((rows.filter fun r => f.admits true r && r.lowerId ∈ chunk).filter fun r => r.lowerId = id) =
      visible f rows id := by
  rw [List.filter_filter, visible]
  apply List.filter_congr
  intro r _
  by_cases hr : r.lowerId = id
  · subst hr
    simp [hid]
  · simp [hr]

theorem filter_chunk_of_not_mem {p : FeedRow → Bool} (rows : List FeedRow) (hid : id ∉ chunk) :
    ((rows.filter fun r => p r && r.lowerId ∈ chunk).filter fun r => r.lowerId = id) = [] := by
  rw [List.filter_filter, List.filter_eq_nil_iff]
  intro r _ hr
  simp only [Bool.and_eq_true, decide_eq_true_eq] at hr
  exact hid (hr.1 ▸ hr.2.2)

theorem downloadTotals_of_mem (totals : Text → Option ℕ) (hid : id ∈ chunk) :
    downloadTotals content f.feed chunk totals id = totalOf content f id (totals id) := by
  simp only [downloadTotals, totalOf, hid, true_and]

theorem downloadTotals_of_not_mem (totals : Text → Option ℕ) (hid : id ∉ chunk) :
    downloadTotals content f.feed chunk totals id = totals id := by
  simp only [downloadTotals, hid, false_and, if_false]

/-- What is known of one id while all versions are loaded. -/
def Groups.entry (s : Groups) (id : Text) : Option (List FeedRow) × Option ℕ :=
  (s.byId id, s.totals id)

/-- What the query for its chunk adds to it. -/
def addGroup (content : List FeedRow) (f : Filter) (orders : ℕ → List FeedRow) (i : ℕ) (id : Text)
    (entry : Option (List FeedRow) × Option ℕ) : Option (List FeedRow) × Option ℕ :=
  (if visible f (orders i) id = [] then entry.1
    else some (entry.1.getD [] ++ visible f (orders i) id), totalOf content f id entry.2)

theorem groupsOfChunk_of_mem (orders : ℕ → List FeedRow) (s : Groups) (hid : id ∈ chunk) :
    (groupsOfChunk content f true orders s (chunk, i)).entry id =
      addGroup content f orders i id (s.entry id) := by
  simp only [groupsOfChunk, Groups.entry, addGroup, addRows_apply, filter_chunk _ hid, foldl_push,
    downloadTotals_of_mem _ hid]

theorem groupsOfChunk_of_not_mem (orders : ℕ → List FeedRow) (s : Groups) (hid : id ∉ chunk) :
    (groupsOfChunk content f true orders s (chunk, i)).entry id = s.entry id := by
  simp only [groupsOfChunk, Groups.entry, addRows_apply, filter_chunk_of_not_mem _ hid,
    List.foldl_nil, downloadTotals_of_not_mem _ hid]

/-- What is known of one id while headlines are loaded. -/
def Headlines.entry (s : Headlines) (id : Text) : Option Head × Option FeedRow × Option ℕ :=
  (s.heads id, s.byId id, s.totals id)

def fullRows (f : Filter) (rows : List FeedRow) (id : Text) (head : Option Head) : List FeedRow :=
  rows.filter fun r => r.feed == f.feed && r.lowerId = id &&
    decide (head.map Head.normalized = some r.normalizedVersion)

/-- What the queries for its chunk add to it. -/
def addHeadline (content : List FeedRow) (f : Filter) (keyOrders fullOrders : ℕ → List FeedRow)
    (i : ℕ) (id : Text) (entry : Option Head × Option FeedRow × Option ℕ) :
    Option Head × Option FeedRow × Option ℕ :=
  let head := (visible f (keyOrders i) id).foldl (fun head r => some (addHead head r)) entry.1
  (head, (fullRows f (fullOrders i) id head).foldl (fun _ p => some p) entry.2.1,
    totalOf content f id entry.2.2)

theorem mem_keys {heads : Text → Option Head} {r : FeedRow} :
    (r.lowerId, r.normalizedVersion) ∈
        chunk.filterMap (fun id => (heads id).map fun head => (id, head.normalized)) ↔
      r.lowerId ∈ chunk ∧ (heads r.lowerId).map Head.normalized = some r.normalizedVersion := by
  simp only [List.mem_filterMap, Option.map_eq_some_iff, Prod.mk.injEq]
  constructor
  · rintro ⟨id, hid, head, hhead, rfl, hnormalized⟩
    exact ⟨hid, head, hhead, hnormalized⟩
  · rintro ⟨hid, head, hhead, hnormalized⟩
    exact ⟨_, hid, head, hhead, rfl, hnormalized⟩

theorem headlinesOfChunk_of_mem (keyOrders fullOrders : ℕ → List FeedRow) (s : Headlines)
    (hid : id ∈ chunk) :
    (headlinesOfChunk content f keyOrders fullOrders s (chunk, i)).entry id =
      addHeadline content f keyOrders fullOrders i id (s.entry id) := by
  have hfull : ∀ heads : Text → Option Head, (((fullOrders i).filter fun r => r.feed == f.feed &&
        (r.lowerId, r.normalizedVersion) ∈ chunk.filterMap fun id =>
          (heads id).map fun head => (id, head.normalized)).filter fun r => r.lowerId = id) =
      fullRows f (fullOrders i) id (heads id) := by
    intro heads
    rw [List.filter_filter, fullRows]
    apply List.filter_congr
    intro r _
    by_cases hr : r.lowerId = id
    · subst hr
      simp [hid]
    · simp [hr]
  simp only [headlinesOfChunk, Headlines.entry, addHeadline, addRows_apply, filter_chunk _ hid,
    hfull, downloadTotals_of_mem _ hid]

theorem headlinesOfChunk_of_not_mem (keyOrders fullOrders : ℕ → List FeedRow) (s : Headlines)
    (hid : id ∉ chunk) :
    (headlinesOfChunk content f keyOrders fullOrders s (chunk, i)).entry id = s.entry id := by
  have hfull : ∀ heads : Text → Option Head, (((fullOrders i).filter fun r => r.feed == f.feed &&
        (r.lowerId, r.normalizedVersion) ∈ chunk.filterMap fun id =>
          (heads id).map fun head => (id, head.normalized)).filter fun r => r.lowerId = id) = [] := by
    intro heads
    rw [List.filter_filter, List.filter_eq_nil_iff]
    intro r _ hr
    simp only [Bool.and_eq_true, decide_eq_true_eq, mem_keys] at hr
    exact hid (hr.1 ▸ hr.2.2.1)
  simp only [headlinesOfChunk, Headlines.entry, addRows_apply, filter_chunk_of_not_mem _ hid,
    hfull, List.foldl_nil, downloadTotals_of_not_mem _ hid]

variable {groupOrders keyOrders fullOrders : ℕ → List FeedRow} {ids : List Text}

def chunkOf (ids : List Text) (id : Text) : ℕ := (chunks idChunk ids).findIdx (id ∈ ·)

variable (content f groupOrders) in
theorem foldl_groups (hids : ids.Nodup) (hid : id ∈ ids) :
    (((chunks idChunk ids).zipIdx.foldl (groupsOfChunk content f true groupOrders) {}).entry id) =
      addGroup content f groupOrders (chunkOf ids id) id (none, none) := by
  have hflat : (chunks idChunk ids).flatten = ids := flatten_chunks (by decide)
  have hfold := foldl_chunks_of_mem (groupsOfChunk content f true groupOrders) Groups.entry
    (addGroup content f groupOrders) (fun s _ _ _ => groupsOfChunk_of_mem groupOrders s)
    (fun s _ _ _ => groupsOfChunk_of_not_mem groupOrders s) (chunks idChunk ids) 0 {}
    (by rwa [hflat]) (by rwa [hflat])
  rwa [Nat.zero_add] at hfold

variable (content f keyOrders fullOrders) in
theorem foldl_headlines (hids : ids.Nodup) (hid : id ∈ ids) :
    (((chunks idChunk ids).zipIdx.foldl
        (headlinesOfChunk content f keyOrders fullOrders) {}).entry id) =
      addHeadline content f keyOrders fullOrders (chunkOf ids id) id (none, none, none) := by
  have hflat : (chunks idChunk ids).flatten = ids := flatten_chunks (by decide)
  have hfold := foldl_chunks_of_mem (headlinesOfChunk content f keyOrders fullOrders)
    Headlines.entry (addHeadline content f keyOrders fullOrders)
    (fun s _ _ _ => headlinesOfChunk_of_mem keyOrders fullOrders s)
    (fun s _ _ _ => headlinesOfChunk_of_not_mem keyOrders fullOrders s) (chunks idChunk ids) 0 {}
    (by rwa [hflat]) (by rwa [hflat])
  rwa [Nat.zero_add] at hfold

def groupOf (content : List FeedRow) (f : Filter) (rows : List FeedRow) (id : Text) :
    Option SearchGroup :=
  let packages := visible f rows id
  if packages = [] then none
  else some ⟨sortBy FeedRow.byVersion packages, packages.length, (totalOf content f id none).getD 0⟩

theorem loadGroups_eq (hids : ids.Nodup) : loadGroups content f true groupOrders ids =
    ids.filterMap fun id => groupOf content f (groupOrders (chunkOf ids id)) id := by
  unfold loadGroups
  rw [inRanking_eq hids]
  apply List.filterMap_congr
  intro id hid
  have hentry := foldl_groups content f groupOrders hids hid
  simp only [Groups.entry, addGroup, Prod.mk.injEq] at hentry
  rw [hentry.1, hentry.2, groupOf]
  split <;> simp_all

end Answers

section Agreement

variable {content rows : List FeedRow} {f : Filter} {id : Text} {r : FeedRow}
  {groupOrders keyOrders fullOrders : ℕ → List FeedRow} {ids : List Text}

theorem of_mem_visible (h : r ∈ visible f rows id) :
    r ∈ rows ∧ r.feed = f.feed ∧ r.enabled ∧ r.pending = false ∧ r.lowerId = id := by
  simp only [visible, Filter.admits, List.mem_filter, Bool.and_eq_true, beq_iff_eq,
    decide_eq_true_eq, Bool.not_eq_true'] at h
  obtain ⟨hmem, ⟨⟨⟨⟨⟨hfeed, henabled⟩, hpending⟩, -⟩, -⟩, -⟩, hid⟩ := h
  exact ⟨hmem, hfeed, henabled, hpending, hid⟩

/-- A headline's key is that of its row alone. -/
theorem fullRows_eq (hkeyed : Keyed content) (hrows : rows.Perm content) (hmem : r ∈ content)
    (hfeed : r.feed = f.feed) (hid : r.lowerId = id) (version : Versions.NuGetVersion) (n : ℕ) :
    fullRows f rows id (some ⟨version, r.normalizedVersion, n⟩) = [r] := by
  have hall : ∀ x ∈ fullRows f rows id (some ⟨version, r.normalizedVersion, n⟩), x = r := by
    intro x hx
    simp only [fullRows, List.mem_filter, Option.map_some, Option.some.injEq, Bool.and_eq_true,
      beq_iff_eq, decide_eq_true_eq] at hx
    obtain ⟨hx, ⟨hxfeed, hxid⟩, hxversion⟩ := hx
    apply hkeyed.eq (hrows.mem_iff.mp hx) hmem
    simp only [FeedRow.key, hxfeed, hfeed, hxid, hid, hxversion]
  have hin : r ∈ fullRows f rows id (some ⟨version, r.normalizedVersion, n⟩) := by
    simp [fullRows, hrows.mem_iff, hmem, hfeed, hid]
  have hnodup : (fullRows f rows id (some ⟨version, r.normalizedVersion, n⟩)).Nodup :=
    ((hkeyed.perm hrows).of_map).filter _
  cases hfull : fullRows f rows id (some ⟨version, r.normalizedVersion, n⟩) with
  | nil =>
    rw [hfull] at hin
    cases hin
  | cons x rest =>
    rw [hfull] at hall hnodup
    obtain rfl := hall x List.mem_cons_self
    cases rest with
    | nil => rfl
    | cons y rest =>
      obtain rfl := hall y (by simp)
      simp at hnodup

def headlineOf (content : List FeedRow) (f : Filter) (rows : List FeedRow) (id : Text) :
    Option SearchGroup :=
  (firstGreatest headlineOrder (visible f rows id)).map fun r =>
    ⟨[r], (visible f rows id).length, (totalOf content f id none).getD 0⟩

theorem loadHeadlines_eq (hkeyed : Keyed content) (hkeys : ∀ i, (keyOrders i).Perm content)
    (hfull : ∀ i, (fullOrders i).Perm content) (hids : ids.Nodup) :
    loadHeadlines content f keyOrders fullOrders ids =
      ids.filterMap fun id => headlineOf content f (keyOrders (chunkOf ids id)) id := by
  unfold loadHeadlines
  rw [inRanking_eq hids]
  apply List.filterMap_congr
  intro id hid
  have hentry := foldl_headlines content f keyOrders fullOrders hids hid
  simp only [Headlines.entry, addHeadline, Prod.mk.injEq] at hentry
  obtain ⟨hheads, hbyId, htotals⟩ := hentry
  rw [hheads, hbyId, htotals, headlineOf]
  by_cases hnone : visible f (keyOrders (chunkOf ids id)) id = []
  · rw [hnone]
    have hno : fullRows f (fullOrders (chunkOf ids id)) id none = [] := by
      simp [fullRows]
    simp [hno, firstGreatest]
  · obtain ⟨r, hr, hmem, -⟩ := @firstGreatest_spec _ headlineOrder _ _ hnone
    obtain ⟨hrow, hfeed, -, -, hrid⟩ := of_mem_visible hmem
    have hkey := fullRows_eq hkeyed (hfull (chunkOf ids id))
      ((hkeys (chunkOf ids id)).mem_iff.mp hrow) hfeed hrid r.version
      (visible f (keyOrders (chunkOf ids id)) id).length
    rw [foldl_addHead _ hr, hkey, hr]
    rfl

/-- Rows of one package whose versions compare equal come to both queries in one order. -/
def MetAlike (f : Filter) (groupOrders keyOrders : ℕ → List FeedRow) (id : Text) : Prop :=
  ∀ i a, ties FeedRow.byVersion a (visible f (groupOrders i) id) =
    ties FeedRow.byVersion a (visible f (keyOrders i) id)

/-- What is shown of two groups for one package is the same, but for versions that compare
equal. -/
structure Agrees (f : Filter) (groupOrders keyOrders : ℕ → List FeedRow) (g h : SearchGroup) :
    Prop where
  headlines : ∃ r r', g.headline = some r ∧ h.headline = some r' ∧ r.lowerId = r'.lowerId ∧
    FeedRow.byVersion r r' = .eq ∧ (MetAlike f groupOrders keyOrders r.lowerId → r = r')
  count : g.versionCount = h.versionCount
  downloads : g.totalDownloads = h.totalDownloads

theorem sum_visible_le (hrows : rows.Perm content) :
    ((visible f rows id).map FeedRow.downloads).sum ≤ (totalOf content f id none).getD 0 := by
  have hperm : (visible f rows id).Perm (visible f content id) := hrows.filter _
  have hsub : (visible f content id).Sublist (content.filter fun r =>
      r.feed == f.feed && r.enabled && !r.pending && r.lowerId == id) := by
    apply List.monotone_filter_right
    intro r hr
    simp only [Filter.admits, Bool.and_eq_true, decide_eq_true_eq] at hr
    obtain ⟨⟨⟨⟨⟨⟨hfeed, henabled⟩, hpending⟩, -⟩, -⟩, -⟩, hid⟩ := hr
    simp [hfeed, henabled, hpending, hid]
  rw [(hperm.map FeedRow.downloads).sum_nat, totalOf]
  split
  · exact (hsub.map FeedRow.downloads).sum_le_sum fun _ _ => Nat.zero_le _
  next hnone =>
    rw [not_not.mp hnone] at hsub
    rw [List.sublist_nil.mp hsub]
    rfl

/-- One package's group and its headline agree. -/
theorem agrees_of (hgroups : ∀ i, (groupOrders i).Perm content)
    (hkeys : ∀ i, (keyOrders i).Perm content) (i : ℕ) (id : Text) :
    (groupOf content f (groupOrders i) id = none ∧ headlineOf content f (keyOrders i) id = none) ∨
      ∃ g h, groupOf content f (groupOrders i) id = some g ∧
        headlineOf content f (keyOrders i) id = some h ∧
        Agrees f groupOrders keyOrders g h := by
  have hperm : (visible f (groupOrders i) id).Perm (visible f (keyOrders i) id) :=
    ((hgroups i).trans (hkeys i).symm).filter _
  by_cases hnone : visible f (groupOrders i) id = []
  · left
    have hnone' : visible f (keyOrders i) id = [] := by
      rw [hnone] at hperm
      exact hperm.nil_eq.symm
    simp [groupOf, headlineOf, hnone, hnone', firstGreatest]
  · right
    have hnone' : visible f (keyOrders i) id ≠ [] := by
      intro hnil
      rw [hnil] at hperm
      exact hnone hperm.eq_nil
    have hsorted : (sortBy FeedRow.byVersion (visible f (groupOrders i) id)).Perm
        (visible f (groupOrders i) id) := perm_sortBy _
    have hsortedne : sortBy FeedRow.byVersion (visible f (groupOrders i) id) ≠ [] := by
      intro hnil
      rw [hnil] at hsorted
      exact hnone hsorted.nil_eq.symm
    obtain ⟨r, hr, hmem, -⟩ := @firstGreatest_spec _ headlineOrder _ _ hsortedne
    obtain ⟨r', hr', hmem', -⟩ := @firstGreatest_spec _ headlineOrder _ _ hnone'
    obtain ⟨heq, hsame⟩ := firstGreatest_perm (hsorted.trans hperm) hr hr'
    have hid := (of_mem_visible (hsorted.mem_iff.mp hmem)).2.2.2.2
    have hid' := (of_mem_visible hmem').2.2.2.2
    refine ⟨_, _, by rw [groupOf, if_neg hnone], by rw [headlineOf, hr', Option.map_some], ?_⟩
    constructor
    · refine ⟨r, r', by rw [headline_eq, hr], by rw [headline_eq]; rfl, hid.trans hid'.symm,
        headlineOrder_eq.mp heq, fun halike => ?_⟩
      apply hsame
      have hties := halike i r
      rw [hid] at hties
      rw [ties_headlineOrder, ties_headlineOrder, ties_sortBy, hties]
    · have hpos := List.length_pos_of_ne_nil hnone'
      simp only [SearchGroup.versionCount, length_sortBy, hperm.length_eq, List.length_singleton]
      omega
    · have hall : ((sortBy FeedRow.byVersion (visible f (groupOrders i) id)).map
          FeedRow.downloads).sum ≤ (totalOf content f id none).getD 0 := by
        rw [(hsorted.map FeedRow.downloads).sum_nat]
        exact sum_visible_le (hgroups i)
      have hone : ([r'].map FeedRow.downloads).sum ≤ (totalOf content f id none).getD 0 := by
        have hsub : [r'].Sublist (visible f (keyOrders i) id) := List.singleton_sublist.mpr hmem'
        exact ((hsub.map FeedRow.downloads).sum_le_sum fun _ _ => Nat.zero_le _).trans
          (sum_visible_le (hkeys i))
      simp only [SearchGroup.totalDownloads, max_eq_left hall, max_eq_left hone]

theorem forall₂_filterMap {α β γ : Type} {R : β → γ → Prop} {a : α → Option β} {b : α → Option γ}
    (h : ∀ x, (a x = none ∧ b x = none) ∨ ∃ y z, a x = some y ∧ b x = some z ∧ R y z)
    (l : List α) : List.Forall₂ R (l.filterMap a) (l.filterMap b) := by
  induction l with
  | nil => exact .nil
  | cons x l ih =>
    rcases h x with ⟨ha, hb⟩ | ⟨y, z, ha, hb, hyz⟩
    · rw [List.filterMap_cons_none ha, List.filterMap_cons_none hb]
      exact ih
    · rw [List.filterMap_cons_some ha, List.filterMap_cons_some hb]
      exact .cons hyz ih

/-- For ids that are asked for once each, the quick query shows the same packages in the same order
as the full one, each with as many versions and downloads and a headline of equal version; it is the
same version where both queries meet rows of equal versions in one order. -/
theorem headlines_agree (hkeyed : Keyed content) (hgroups : ∀ i, (groupOrders i).Perm content)
    (hkeys : ∀ i, (keyOrders i).Perm content) (hfull : ∀ i, (fullOrders i).Perm content)
    (hids : ids.Nodup) :
    List.Forall₂ (Agrees f groupOrders keyOrders) (loadGroups content f true groupOrders ids)
      (loadHeadlines content f keyOrders fullOrders ids) := by
  rw [loadGroups_eq hids, loadHeadlines_eq hkeyed hkeys hfull hids]
  apply forall₂_filterMap
  intro id
  exact agrees_of hgroups hkeys (chunkOf ids id) id

end Agreement

theorem headlines_agree_sample :
    List.Forall₂ (Agrees ⟨"default", true, true⟩ (fun _ => [withoutZero, leadingZero])
        fun _ => [leadingZero, withoutZero])
      (loadGroups [leadingZero, withoutZero] ⟨"default", true, true⟩ true
        (fun _ => [withoutZero, leadingZero]) ["pkg".toList])
      (loadHeadlines [leadingZero, withoutZero] ⟨"default", true, true⟩
        (fun _ => [leadingZero, withoutZero]) (fun _ => [leadingZero, withoutZero])
        ["pkg".toList]) :=
  headlines_agree keyed_zeros (fun _ => List.Perm.swap _ _ _) (fun _ => .rfl) (fun _ => .rfl)
    (List.nodup_singleton _)

/-- What is shown of two groups is the same. -/
def SameShown (g h : SearchGroup) : Prop :=
  g.headline = h.headline ∧ g.versionCount = h.versionCount ∧ g.totalDownloads = h.totalDownloads

theorem map_eq_of_forall₂ {β : Type} {shown : SearchGroup → β} {groups heads : List SearchGroup}
    (h : List.Forall₂ SameShown groups heads)
    (hshown : ∀ g h, SameShown g h → shown g = shown h) : groups.map shown = heads.map shown := by
  induction h with
  | nil => rfl
  | cons hsame _ ih => rw [List.map_cons, List.map_cons, hshown _ _ hsame, ih]

/-- An id that is asked for in two chunks has its downloads counted twice, and versions that compare
equal are shown as the queries meet them. -/
theorem headlines_differ :
    (¬ ∀ (content : List FeedRow) (f : Filter) (ids : List Text), Keyed content →
      List.Forall₂ SameShown (loadGroups content f true (fun _ => content) ids)
        (loadHeadlines content f (fun _ => content) (fun _ => content) ids)) ∧
    ¬ ∀ (content : List FeedRow) (f : Filter) (groupOrders keyOrders fullOrders : ℕ → List FeedRow)
        (ids : List Text), Keyed content → (∀ i, (groupOrders i).Perm content) →
      (∀ i, (keyOrders i).Perm content) → (∀ i, (fullOrders i).Perm content) → ids.Nodup →
      List.Forall₂ SameShown (loadGroups content f true groupOrders ids)
        (loadHeadlines content f keyOrders fullOrders ids) := by
  constructor
  · intro hclaim
    have hsame := hclaim [withoutZero] ⟨"default", true, true⟩ (List.replicate 401 "pkg".toList)
      (List.nodup_singleton _)
    have hgroups : (loadGroups [withoutZero] ⟨"default", true, true⟩ true
        (fun _ => [withoutZero]) (List.replicate 401 "pkg".toList)).map
          SearchGroup.totalDownloads = [2] := by
      decide +kernel
    have hheads : (loadHeadlines [withoutZero] ⟨"default", true, true⟩
        (fun _ => [withoutZero]) (fun _ => [withoutZero])
        (List.replicate 401 "pkg".toList)).map SearchGroup.totalDownloads = [1] := by
      decide +kernel
    have htotals := map_eq_of_forall₂ hsame fun g h hgh => hgh.2.2
    rw [hgroups, hheads] at htotals
    exact absurd htotals (by decide)
  · intro hclaim
    have hsame := hclaim [leadingZero, withoutZero] ⟨"default", true, true⟩
      (fun _ => [withoutZero, leadingZero]) (fun _ => [leadingZero, withoutZero])
      (fun _ => [leadingZero, withoutZero]) ["pkg".toList] keyed_zeros
      (fun _ => List.Perm.swap _ _ _) (fun _ => .rfl) (fun _ => .rfl) (List.nodup_singleton _)
    have hgroups : (loadGroups [leadingZero, withoutZero] ⟨"default", true, true⟩ true
        (fun _ => [withoutZero, leadingZero]) ["pkg".toList]).map
          (fun g => g.headline.map FeedRow.normalizedVersion) = [some "1.0.0-1".toList] := by
      decide +kernel
    have hheads : (loadHeadlines [leadingZero, withoutZero] ⟨"default", true, true⟩
        (fun _ => [leadingZero, withoutZero]) (fun _ => [leadingZero, withoutZero])
        ["pkg".toList]).map (fun g => g.headline.map FeedRow.normalizedVersion) =
          [some "1.0.0-01".toList] := by
      decide +kernel
    have hheadlines := map_eq_of_forall₂ hsame
      fun g h hgh => congrArg (Option.map FeedRow.normalizedVersion) hgh.1
    rw [hgroups, hheads] at hheadlines
    exact absurd hheadlines (by decide)

end YaNuget.Listings
