import YaNuget.Retention.Feed

/-!
# What a sweep deletes

A sweep deletes the keys that the plans of the packages name, each plan made
from all rows of its package, as a preview's plans are.
-/
namespace YaNuget.Retention

open Std Versions Orderings Sorting

variable {engine : Engine} {policy : RetentionPolicy} {now : Instant}
variable {rows versions : List FeedVersion} {id : Text}

def planKeys (policy : RetentionPolicy) (now : Instant) (versions : List FeedVersion) :
    List RowKey :=
  (planned policy now versions).map Planned.key

section Planned

/-- What a plan names is a version of the package, and nothing keeps it. -/
theorem of_mem_planFor (hid : ∀ v ∈ versions, v.lowerId = id) {p : Pruned}
    (h : p ∈ planFor versions policy now) :
    ∃ v ∈ versions, v.version = p.version ∧ v.isPrunable = true := by
  have hone : OnePackage (versions.map FeedVersion.candidate) := by
    intro c hc d hd
    obtain ⟨v, hv, rfl⟩ := List.mem_map.mp hc
    obtain ⟨w, hw, rfl⟩ := List.mem_map.mp hd
    exact (hid v hv).trans (hid w hw).symm
  have hmem : p.version ∈ (planFor versions policy now).map Pruned.version := List.mem_map_of_mem h
  obtain ⟨-, -, pre, n, c, hget, hversion, -⟩ := (mem_prunePlan_version hone).mp hmem
  obtain ⟨hc, hservable, hpinned, -⟩ :=
    mem_ranked.mp (mem_channel.mp (List.mem_of_getElem? hget))
  obtain ⟨v, hv, rfl⟩ := List.mem_map.mp hc
  refine ⟨v, hv, hversion, ?_⟩
  have hservable : (v.enabled && !v.pending) = true := hservable
  have hpinned : v.pinned = false := hpinned
  rw [Bool.and_eq_true] at hservable
  simp only [FeedVersion.isPrunable, hpinned, hservable.1]
  simpa using hservable.2

theorem planKeys_eq (hid : ∀ v ∈ versions, v.lowerId = id) : planKeys policy now versions =
    (planFor versions policy now).map fun p => (id, p.version.normalized) := by
  unfold planKeys planned
  rw [List.map_filterMap, ← List.filterMap_eq_map]
  apply List.filterMap_congr
  intro p hp
  obtain ⟨v, hv, hversion, -⟩ := of_mem_planFor hid hp
  cases hfound : versions.find? fun v => NuGetVersion.cmp v.version p.version = .eq with
  | none =>
    have hnone := List.find?_eq_none.mp hfound v hv
    simp [hversion, ReflCmp.compare_self] at hnone
  | some w =>
    have hw : canonicalId w.package.id = id := hid w (List.mem_of_find?_eq_some hfound)
    simp [Planned.key, hw]

theorem mem_planKeys (hid : ∀ v ∈ versions, v.lowerId = id) {key : RowKey}
    (h : key ∈ planKeys policy now versions) :
    ∃ v ∈ versions, v.key = key ∧ v.isPrunable = true := by
  rw [planKeys_eq hid] at h
  obtain ⟨p, hp, rfl⟩ := List.mem_map.mp h
  obtain ⟨v, hv, hversion, hprunable⟩ := of_mem_planFor hid hp
  refine ⟨v, hv, ?_, hprunable⟩
  unfold FeedVersion.key Package.normalizedVersion
  rw [hid v hv]
  exact congrArg (fun w : Versions.NuGetVersion => (id, w.normalized)) hversion

theorem planKeys_of_noLimits (h : policy.hasLimits = false) : planKeys policy now versions = [] := by
  unfold planKeys planned planFor prunePlan
  cases versions.map FeedVersion.candidate <;> simp [h]

end Planned

section Nodup

variable {candidates : List Candidate}

theorem pruneChannel_sublist (candidates : List Candidate) (policy : RetentionPolicy) (now : Instant)
    (pre : Bool) : ((pruneChannel candidates policy now pre).map Pruned.version).Sublist
      ((channel candidates pre).map Candidate.version) := by
  have hfst : ((channel candidates pre).zipIdx.map Prod.fst) = channel candidates pre := by simp
  rw [← hfst, List.map_map]
  unfold pruneChannel
  rw [List.map_filterMap, ← List.filterMap_eq_map]
  have hall (l : List (Candidate × ℕ)) :
      (l.filterMap fun e => (prunedAt candidates policy now pre e.2 e.1).map Pruned.version).Sublist
        (l.filterMap (some ∘ (Candidate.version ∘ Prod.fst))) := by
    induction l with
    | nil => exact List.Sublist.slnil
    | cons e l ih =>
      cases hp : prunedAt candidates policy now pre e.2 e.1 with
      | none =>
        simp only [List.filterMap_cons, hp, Option.map_none, Function.comp_apply]
        exact ih.cons _
      | some p =>
        obtain ⟨-, -, rfl⟩ := prunedAt_eq_some.mp hp
        simp only [List.filterMap_cons, hp, Option.map_some, Function.comp_apply]
        exact ih.cons_cons _
  exact hall _

/-- A plan names no version twice, if no two rows have one key. -/
theorem nodup_prunePlan (h : (candidates.map fun c => c.version.normalized).Nodup) :
    ((prunePlan candidates policy now).map fun p => p.version.normalized).Nodup := by
  have hchannel (pre : Bool) : ((pruneChannel candidates policy now pre).map
      fun p => p.version.normalized).Nodup := by
    have hsub := (pruneChannel_sublist candidates policy now pre).map NuGetVersion.normalized
    rw [List.map_map, List.map_map] at hsub
    apply List.Nodup.sublist hsub
    have hperm : (channel candidates pre).Perm (ranked candidates pre) := perm_sortBy _
    rw [(hperm.map _).nodup_iff]
    exact h.sublist (List.filter_sublist.map _)
  have hranked {pre : Bool} {p : Pruned} (hp : p ∈ pruneChannel candidates policy now pre) :
      ∃ c ∈ candidates, c.version.normalized = p.version.normalized ∧ c.isPrerelease = pre := by
    obtain ⟨rank, c, hget, hpruned⟩ := mem_pruneChannel.mp hp
    obtain ⟨-, -, rfl⟩ := prunedAt_eq_some.mp hpruned
    obtain ⟨hc, -, -, hpre⟩ := mem_ranked.mp (mem_channel.mp (List.mem_of_getElem? hget))
    exact ⟨c, hc, rfl, hpre⟩
  cases candidates with
  | nil => simp [prunePlan]
  | cons first rest =>
    unfold prunePlan
    simp only
    split_ifs
    · simp
    · simp
    · rw [List.map_append, List.nodup_append]
      refine ⟨hchannel false, hchannel true, ?_⟩
      intro a ha b hb heq
      obtain ⟨p, hp, rfl⟩ := List.mem_map.mp ha
      obtain ⟨q, hq, rfl⟩ := List.mem_map.mp hb
      obtain ⟨c, hc, hcv, hcpre⟩ := hranked hp
      obtain ⟨d, hd, hdv, hdpre⟩ := hranked hq
      obtain rfl := List.inj_on_of_nodup_map h hc hd (hcv.trans (heq.trans hdv.symm))
      simp [hcpre] at hdpre

theorem nodup_normalized (hid : ∀ v ∈ versions, v.lowerId = id)
    (h : (versions.map FeedVersion.key).Nodup) :
    ((versions.map FeedVersion.candidate).map fun c => c.version.normalized).Nodup := by
  rw [List.map_map]
  apply List.Nodup.of_map fun n => (id, n)
  rw [List.map_map]
  have hsame : versions.map FeedVersion.key = versions.map
      ((fun n => (id, n)) ∘ (fun c => c.version.normalized) ∘ FeedVersion.candidate) := by
    apply List.map_congr_left
    intro v hv
    unfold FeedVersion.key
    rw [hid v hv]
    rfl
  rwa [← hsame]

theorem nodup_planKeys (hid : ∀ v ∈ versions, v.lowerId = id)
    (h : (versions.map FeedVersion.key).Nodup) : (planKeys policy now versions).Nodup := by
  rw [planKeys_eq hid]
  have hplan : ((planFor versions policy now).map fun p => p.version.normalized).Nodup :=
    nodup_prunePlan (nodup_normalized hid h)
  have hpair := List.Nodup.map (Prod.mk_right_injective id) hplan
  rw [List.map_map] at hpair
  exact hpair

end Nodup

section Sweep

def withoutKeys (keys : List RowKey) (rows : List FeedVersion) : List FeedVersion :=
  rows.filter fun v => v.key ∉ keys

theorem withoutKeys_withoutKeys (keys keys' : List RowKey) (rows : List FeedVersion) :
    withoutKeys keys' (withoutKeys keys rows) = withoutKeys (keys ++ keys') rows := by
  unfold withoutKeys
  rw [List.filter_filter]
  apply List.filter_congr
  intro v _
  simp [Bool.and_comm]

def Prunable (keys : List RowKey) (rows : List FeedVersion) : Prop :=
  ∀ v ∈ rows, v.key ∈ keys → v.isPrunable = true

theorem deletePlanned_eq {key : RowKey} (h : Prunable [key] rows) :
    deletePlanned rows key = withoutKeys [key] rows := by
  unfold deletePlanned withoutKeys
  cases hfound : rows.find? fun v => v.key = key with
  | none =>
    symm
    rw [List.filter_eq_self]
    intro v hv
    have hnone := List.find?_eq_none.mp hfound v hv
    simpa using hnone
  | some v =>
    have hkey : v.key = key := by simpa using List.find?_some hfound
    have hprunable := h v (List.mem_of_find?_eq_some hfound) (by simp [hkey])
    simp only [hprunable, if_true, List.mem_singleton]

theorem foldl_deletePlanned {keys : List RowKey} (h : Prunable keys rows) :
    keys.foldl deletePlanned rows = withoutKeys keys rows := by
  induction keys generalizing rows with
  | nil => simp [withoutKeys]
  | cons key keys ih =>
    have hone : Prunable [key] rows := fun v hv hkey =>
      h v hv (List.mem_cons.mpr (.inl (List.mem_singleton.mp hkey)))
    have hrest : Prunable keys (withoutKeys [key] rows) := fun v hv hkey =>
      h v (List.mem_of_mem_filter hv) (List.mem_cons_of_mem _ hkey)
    rw [List.foldl_cons, deletePlanned_eq hone, ih hrest, withoutKeys_withoutKeys]
    rfl

theorem eq_of_key (h : rows.Pairwise fun v w => v.key ≠ w.key) {v w : FeedVersion} (hv : v ∈ rows)
    (hw : w ∈ rows) (hkey : v.key = w.key) : v = w :=
  List.inj_on_of_nodup_map (List.pairwise_map.mpr h) hv hw hkey

theorem prunable_planKeys (h : rows.Pairwise fun v w => v.key ≠ w.key)
    (hlisting : IsListing rows id versions) : Prunable (planKeys policy now versions) rows := by
  intro v hv hkey
  obtain ⟨w, hw, hsame, hprunable⟩ :=
    mem_planKeys (fun v hv => (hlisting.mem_iff.mp hv).2) hkey
  obtain rfl := eq_of_key h (hlisting.mem_iff.mp hw).1 hv hsame
  exact hprunable

theorem prunePackage_eq (h : rows.Pairwise fun v w => v.key ≠ w.key) {id : Text}
    (hid : canonicalId id = id) : prunePackage engine policy now rows id =
      withoutKeys (planKeys policy now (findAllVersions engine rows id)) rows := by
  have hlisting := isListing_findAllVersions engine rows hid
  unfold prunePackage
  cases hlimits : policy.hasLimits with
  | false => simp [planKeys_of_noLimits hlimits, withoutKeys]
  | true =>
    rw [if_pos rfl, ← foldl_deletePlanned (prunable_planKeys h hlisting),
      planKeys_eq fun v hv => (hlisting.mem_iff.mp hv).2, List.foldl_map, hid]

/-- `versions` was read of rows that have those of the package as they are in `rows`. -/
def ReadFor (engine : Engine) (rows : List FeedVersion) (id : Text) (versions : List FeedVersion) :
    Prop :=
  ∃ rows' : List FeedVersion, (rows'.filter fun v => v.lowerId = id) =
    (rows.filter fun v => v.lowerId = id) ∧ versions = findAllVersions engine rows' id

theorem ReadFor.isListing (h : ReadFor engine rows id versions) (hid : canonicalId id = id) :
    IsListing rows id versions := by
  obtain ⟨rows', hsame, rfl⟩ := h
  unfold IsListing
  rw [← hsame]
  exact isListing_findAllVersions engine rows' hid

theorem filter_withoutKeys {keys : List RowKey} (h : ∀ key ∈ keys, key.1 ≠ id) :
    ((withoutKeys keys rows).filter fun v => v.lowerId = id) =
      rows.filter fun v => v.lowerId = id := by
  unfold withoutKeys
  rw [List.filter_filter]
  apply List.filter_congr
  intro v _
  by_cases hv : v.lowerId = id
  · have hnot : v.key ∉ keys := fun hmem => h v.key hmem hv
    simp [hv, hnot]
  · simp [hv]

theorem foldl_prunePackage (h : rows.Pairwise fun v w => v.key ≠ w.key) {ids : List Text}
    (hnodup : ids.Nodup) (hids : ∀ id ∈ ids, canonicalId id = id) {left : List FeedVersion}
    {done : List RowKey} (hleft : left = withoutKeys done rows)
    (hdone : ∀ key ∈ done, key.1 ∉ ids) :
    ∃ listings, List.Forall₂ (ReadFor engine rows) ids listings ∧
      ids.foldl (prunePackage engine policy now) left =
        withoutKeys (done ++ listings.flatMap (planKeys policy now)) rows := by
  induction ids generalizing left done with
  | nil => exact ⟨[], .nil, by simpa using hleft⟩
  | cons id ids ih =>
    obtain ⟨hnew, hnodup⟩ := List.nodup_cons.mp hnodup
    have hid := hids id List.mem_cons_self
    have hread : ReadFor engine rows id (findAllVersions engine left id) := by
      refine ⟨left, ?_, rfl⟩
      rw [hleft]
      exact filter_withoutKeys fun key hkey heq => hdone key hkey (heq ▸ List.mem_cons_self)
    have hkeyed : left.Pairwise fun v w => v.key ≠ w.key := by
      rw [hleft]
      exact h.filter _
    have hstep : prunePackage engine policy now left id =
        withoutKeys (done ++ planKeys policy now (findAllVersions engine left id)) rows := by
      rw [prunePackage_eq hkeyed hid]
      conv_lhs => arg 2; rw [hleft]
      rw [withoutKeys_withoutKeys]
    obtain ⟨listings, hlistings, heq⟩ := ih hnodup (fun i hi => hids i (List.mem_cons_of_mem _ hi))
      hstep (by
        intro key hkey
        rcases List.mem_append.mp hkey with hkey | hkey
        · exact fun hmem => hdone key hkey (List.mem_cons_of_mem _ hmem)
        · have hlisting := hread.isListing hid
          obtain ⟨v, hv, rfl, -⟩ := mem_planKeys (fun v hv => (hlisting.mem_iff.mp hv).2) hkey
          have hv : v.key.1 = id := (hlisting.mem_iff.mp hv).2
          rwa [hv])
    refine ⟨_ :: listings, .cons hread hlistings, ?_⟩
    rw [List.foldl_cons, heq, List.flatMap_cons, List.append_assoc]

theorem prunePackage_canonicalId (rows : List FeedVersion) (id : Text) :
    prunePackage engine policy now rows id = prunePackage engine policy now rows (canonicalId id) := by
  simp only [prunePackage, findAllVersions, canonicalId_canonicalId]

/-- A sweep plans each package from all its rows, and deletes what its plans name. -/
theorem pruneAll_eq (engine : Engine) (policy : RetentionPolicy) (now : Instant)
    (h : rows.Pairwise fun v w => v.key ≠ w.key) :
    ∃ listing : Text → List FeedVersion,
      (∀ id ∈ lowerIds rows, ReadFor engine rows id (listing id)) ∧
        pruneAll engine policy now rows = withoutKeys
          ((lowerIds rows).flatMap fun id => planKeys policy now (listing id)) rows := by
  obtain ⟨listings, hlistings, heq⟩ := foldl_prunePackage h nodup_lowerIds
    (fun id hid => canonicalId_of_mem hid) (by simp [withoutKeys] : rows = withoutKeys [] rows)
    (by simp)
  obtain ⟨listing, hlisting, rfl⟩ := exists_map_of_forall₂ hlistings nodup_lowerIds
  refine ⟨listing, hlisting, ?_⟩
  rw [List.flatMap_map, List.nil_append] at heq
  unfold pruneAll
  cases hlimits : policy.hasLimits with
  | false =>
    have hnone : ((lowerIds rows).flatMap fun id => planKeys policy now (listing id)) = [] := by
      simp [planKeys_of_noLimits hlimits]
    simp [hnone, withoutKeys]
  | true =>
    rw [if_pos rfl, ← heq, ← map_allPackageIds, List.foldl_map]
    congr 1
    funext left id
    exact prunePackage_canonicalId left id

end Sweep

end YaNuget.Retention
