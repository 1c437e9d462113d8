import YaNuget.Retention.SweptKeys

/-!
# Versions that compare equal

Versions that compare equal are ranked as they are listed. A plan depends on
the order of the list exactly when the last place that is kept falls among
some of them.
-/
namespace YaNuget.Retention

open Std Versions Orderings Sorting

section Candidates

variable {versions listed : List Candidate} {policy : RetentionPolicy} {now : Instant}
variable {c : Candidate}

/-- How many ranked versions compare equal to this one, itself among them. -/
def tied (versions : List Candidate) (c : Candidate) : ℕ :=
  (ranked versions c.isPrerelease).countP fun d => NuGetVersion.cmp d.version c.version = .eq

/-- Only some of the versions that compare equal to this one are kept, and nothing but its place
decides whether it is one of them. -/
def SplitAt (versions : List Candidate) (policy : RetentionPolicy) (now : Instant)
    (c : Candidate) : Prop :=
  c.servable = true ∧ c.pinned = false ∧ ¬ Protected versions policy c ∧ ¬ TooOld policy now c ∧
    ∃ k ∈ policy.keep c.isPrerelease,
      rank versions c < k ∧ k < rank versions c + tied versions c

theorem rank_perm (h : listed.Perm versions) (c : Candidate) :
    rank listed c = rank versions c := (h.filter _).countP_eq _

theorem tied_perm (h : listed.Perm versions) (c : Candidate) :
    tied listed c = tied versions c := (h.filter _).countP_eq _

theorem protected_perm (h : listed.Perm versions) :
    Protected listed policy c ↔ Protected versions policy c := by
  simp only [Protected, NewestServed, h.mem_iff]

theorem splitAt_perm (h : listed.Perm versions) :
    SplitAt listed policy now c ↔ SplitAt versions policy now c := by
  simp only [SplitAt, protected_perm h, rank_perm h, tied_perm h]

theorem before_channel (versions : List Candidate) (c : Candidate) :
    before newestFirst c (channel versions c.isPrerelease) = rank versions c := by
  have hperm : (channel versions c.isPrerelease).Perm (ranked versions c.isPrerelease) :=
    perm_sortBy _
  unfold before rank
  rw [hperm.countP_eq]
  apply List.countP_congr
  intro d _
  have hswap : NuGetVersion.cmp d.version c.version = (NuGetVersion.cmp c.version d.version).swap :=
    OrientedCmp.eq_swap
  have hfirst : newestFirst d c = NuGetVersion.cmp c.version d.version := rfl
  rw [hfirst, hswap]
  cases NuGetVersion.cmp c.version d.version <;> simp

theorem ties_channel (versions : List Candidate) (c : Candidate) (pre : Bool) :
    ties newestFirst c (channel versions pre) =
      (ranked versions pre).filter fun d => NuGetVersion.cmp d.version c.version = .eq := by
  unfold channel
  rw [ties_sortBy]
  rfl

theorem length_ties_channel (versions : List Candidate) (c : Candidate) :
    (ties newestFirst c (channel versions c.isPrerelease)).length = tied versions c := by
  rw [ties_channel, tied, List.countP_eq_length_filter]

/-- A version stands behind the newer ones, and among those that compare equal. -/
theorem place_bounds {pre : Bool} {n : ℕ} (hget : (channel versions pre)[n]? = some c) :
    rank versions c ≤ n ∧ n < rank versions c + tied versions c := by
  obtain ⟨-, -, -, rfl⟩ := mem_ranked.mp (mem_channel.mp (List.mem_of_getElem? hget))
  have hle := before_le (sorted_sortBy _) hget
  have hlt := lt_before_add_ties (sorted_sortBy _) hget
  change before newestFirst c (channel versions c.isPrerelease) ≤ n at hle
  change n < before newestFirst c (channel versions c.isPrerelease) +
    (ties newestFirst c (channel versions c.isPrerelease)).length at hlt
  rw [before_channel] at hle hlt
  rw [length_ties_channel] at hlt
  exact ⟨hle, hlt⟩

theorem not_protected_iff (hid : OnePackage versions) (hc : c ∈ versions)
    (hservable : c.servable = true) : ¬ Protected versions policy c ↔
      (∀ d ∈ versions, policy.excludes d.package.id = false) ∧ isProtected versions c = false := by
  have hall : (∀ d ∈ versions, policy.excludes d.package.id = false) ↔
      policy.excludes c.package.id = false := by
    constructor
    · exact fun h => h c hc
    · intro h d hd
      rw [← h]
      exact excludes_congr (hid d hd c hc) policy
  rw [hall, ← Bool.not_eq_true (isProtected versions c), isProtected_iff hc hservable, Protected,
    not_or, Bool.not_eq_true]

theorem hasLimits_of_reason {pre : Bool} {n : ℕ}
    (h : (∃ k ∈ policy.keep pre, k ≤ n) ∨ TooOld policy now c) : policy.hasLimits = true := by
  unfold RetentionPolicy.hasLimits
  rcases h with ⟨k, hk, -⟩ | ⟨days, hdays, -⟩
  · cases pre <;> simp_all [RetentionPolicy.keep]
  · simp_all

/-- Where no place decides, a plan names what its policy says. -/
theorem mem_prunePlan_of_unsplit (hid : OnePackage versions)
    (hsplit : ∀ c ∈ versions, ¬ SplitAt versions policy now c) {v : Versions.NuGetVersion} :
    v ∈ (prunePlan versions policy now).map Pruned.version ↔
      ∃ c ∈ versions, c.version = v ∧ c.servable = true ∧ c.pinned = false ∧
        ¬ Protected versions policy c ∧ (BeyondNewest versions policy c ∨ TooOld policy now c) := by
  rw [mem_prunePlan_version hid]
  constructor
  · rintro ⟨hexcluded, -, pre, n, c, hget, hversion, hprotected, hreason⟩
    obtain ⟨hc, hservable, hpinned, hpre⟩ :=
      mem_ranked.mp (mem_channel.mp (List.mem_of_getElem? hget))
    have hfree := (not_protected_iff hid hc hservable).mpr ⟨hexcluded, hprotected⟩
    obtain ⟨-, hlt⟩ := place_bounds hget
    refine ⟨c, hc, hversion, hservable, hpinned, hfree, ?_⟩
    by_cases hold : TooOld policy now c
    · exact .inr hold
    · left
      obtain ⟨k, hk, hkn⟩ := hreason.resolve_right hold
      rw [← hpre] at hk
      refine ⟨k, hk, ?_⟩
      by_contra hrank
      exact hsplit c hc ⟨hservable, hpinned, hfree, hold, k, hk, by omega, by omega⟩
  · rintro ⟨c, hc, hversion, hservable, hpinned, hfree, hreason⟩
    obtain ⟨hexcluded, hprotected⟩ := (not_protected_iff hid hc hservable).mp hfree
    have hmem : c ∈ channel versions c.isPrerelease :=
      mem_channel.mpr (mem_ranked.mpr ⟨hc, hservable, hpinned, rfl⟩)
    obtain ⟨n, hget⟩ := List.mem_iff_getElem?.mp hmem
    obtain ⟨hle, -⟩ := place_bounds hget
    have hreason : (∃ k ∈ policy.keep c.isPrerelease, k ≤ n) ∨ TooOld policy now c := by
      rcases hreason with ⟨k, hk, hkr⟩ | hold
      · exact .inl ⟨k, hk, hkr.trans hle⟩
      · exact .inr hold
    exact ⟨hexcluded, hasLimits_of_reason hreason, _, n, c, hget, hversion, hprotected, hreason⟩

/-- Where no place decides, the order of the list does not matter. -/
theorem mem_prunePlan_perm (hid : OnePackage versions)
    (hsplit : ∀ c ∈ versions, ¬ SplitAt versions policy now c) (hperm : listed.Perm versions)
    {v : Versions.NuGetVersion} : v ∈ (prunePlan listed policy now).map Pruned.version ↔
      v ∈ (prunePlan versions policy now).map Pruned.version := by
  have hid' : OnePackage listed := fun c hc d hd =>
    hid c (hperm.mem_iff.mp hc) d (hperm.mem_iff.mp hd)
  rw [mem_prunePlan_of_unsplit hid hsplit, mem_prunePlan_of_unsplit hid' fun c hc =>
    (splitAt_perm hperm).not.mpr (hsplit c (hperm.mem_iff.mp hc))]
  simp only [hperm.mem_iff, protected_perm hperm, BeyondNewest, rank_perm hperm]

section Split

variable (hsplit : SplitAt versions policy now c) (hc : c ∈ versions) (hid : OnePackage versions)

include hsplit hc hid

/-- The version is pruned where it is listed behind those that compare equal to it. -/
theorem pruned_of_last (hperm : listed.Perm versions)
    (hlast : (ties newestFirst c (channel listed c.isPrerelease))[tied versions c - 1]? = some c) :
    c.version ∈ (prunePlan listed policy now).map Pruned.version := by
  obtain ⟨hservable, hpinned, hfree, -, k, hk, hkr, hkt⟩ := hsplit
  have hid' : OnePackage listed := fun c hc d hd =>
    hid c (hperm.mem_iff.mp hc) d (hperm.mem_iff.mp hd)
  have hfree' := (protected_perm hperm).not.mpr hfree
  obtain ⟨hexcluded, hprotected⟩ :=
    (not_protected_iff hid' (hperm.mem_iff.mpr hc) hservable).mp hfree'
  have hlength := length_ties_channel listed c
  rw [tied_perm hperm] at hlength
  have hget := getElem?_before_add (sorted_sortBy (ranked listed c.isPrerelease))
    (by
      change _ < (ties newestFirst c (channel listed c.isPrerelease)).length
      rw [hlength]
      omega : tied versions c - 1 < _)
  change (channel listed c.isPrerelease)[before newestFirst c (channel listed c.isPrerelease) +
    (tied versions c - 1)]? = (ties newestFirst c (channel listed c.isPrerelease))[
      tied versions c - 1]? at hget
  rw [hlast, before_channel, rank_perm hperm] at hget
  have hreason : (∃ k ∈ policy.keep c.isPrerelease,
      k ≤ rank versions c + (tied versions c - 1)) ∨ TooOld policy now c :=
    .inl ⟨k, hk, by omega⟩
  exact (mem_prunePlan_version hid').mpr
    ⟨hexcluded, hasLimits_of_reason hreason, _, _, c, hget, rfl, hprotected, hreason⟩

/-- It is kept where it is listed before them. -/
theorem kept_of_first (hperm : listed.Perm versions)
    (hdistinct : (versions.map fun c => c.version.normalized).Nodup)
    (hfirst : (ties newestFirst c (channel listed c.isPrerelease))[0]? = some c)
    {p : Pruned} (hp : p ∈ prunePlan listed policy now) :
    p.version.normalized ≠ c.version.normalized := by
  obtain ⟨hservable, hpinned, hfree, hold, k, hk, hkr, hkt⟩ := hsplit
  have hid' : OnePackage listed := fun c hc d hd =>
    hid c (hperm.mem_iff.mp hc) d (hperm.mem_iff.mp hd)
  intro hsame
  obtain ⟨-, -, pre, n, d, hget, hversion, hprotected, hreason⟩ :=
    (mem_prunePlan_version hid').mp (List.mem_map_of_mem hp)
  obtain ⟨hd, -, -, hpre⟩ := mem_ranked.mp (mem_channel.mp (List.mem_of_getElem? hget))
  rw [← hversion] at hsame
  obtain rfl := List.inj_on_of_nodup_map hdistinct (hperm.mem_iff.mp hd) hc hsame
  subst hpre
  have hlength := length_ties_channel listed d
  rw [tied_perm hperm] at hlength
  have hplace := getElem?_before_add (sorted_sortBy (ranked listed d.isPrerelease))
    (by
      change 0 < (ties newestFirst d (channel listed d.isPrerelease)).length
      rw [hlength]
      omega)
  change (channel listed d.isPrerelease)[before newestFirst d (channel listed d.isPrerelease) +
    0]? = (ties newestFirst d (channel listed d.isPrerelease))[0]? at hplace
  rw [hfirst, before_channel, rank_perm hperm, Nat.add_zero] at hplace
  have hnodup : (channel listed d.isPrerelease).Nodup := by
    have hchannel : (channel listed d.isPrerelease).Perm (ranked listed d.isPrerelease) :=
      perm_sortBy _
    rw [hchannel.nodup_iff]
    exact (hperm.nodup_iff.mpr (List.Nodup.of_map _ hdistinct)).filter _
  obtain ⟨hn, hget'⟩ := List.getElem?_eq_some_iff.mp hget
  obtain ⟨hr, hplace'⟩ := List.getElem?_eq_some_iff.mp hplace
  have hplaces : n = rank versions d :=
    (hnodup.getElem_inj_iff).mp (hget'.trans hplace'.symm)
  rcases hreason with ⟨k', hk', hle⟩ | hreason
  · have heq : k' = k := Option.mem_unique hk' hk
    omega
  · exact hold hreason

end Split

end Candidates

section Feeds

variable {engine : Engine} {policy : RetentionPolicy} {now : Instant}
variable {rows listed : List FeedVersion} {id : Text}

namespace Feed

variable (feed : Feed)

def keys : List RowKey := feed.rows.map FeedVersion.key

def candidates (id : Text) : List Candidate :=
  (feed.rows.filter fun v => v.lowerId = id).map FeedVersion.candidate

/-- In some package, a place among versions that compare equal decides. -/
def Split (policy : RetentionPolicy) (now : Instant) : Prop :=
  ∃ id, ∃ c ∈ feed.candidates id, SplitAt (feed.candidates id) policy now c

def sweptKeys (engine : Engine) (policy : RetentionPolicy) (now : Instant) : Set RowKey :=
  {key | key ∈ feed.keys ∧ key ∉ (pruneAll engine policy now feed.rows).map FeedVersion.key}

end Feed

variable {feed : Feed}

theorem onePackage_candidates (feed : Feed) (id : Text) : OnePackage (feed.candidates id) := by
  intro c hc d hd
  obtain ⟨v, hv, rfl⟩ := List.mem_map.mp hc
  obtain ⟨w, hw, rfl⟩ := List.mem_map.mp hd
  have hv : v.lowerId = id := by simpa using List.of_mem_filter hv
  have hw : w.lowerId = id := by simpa using List.of_mem_filter hw
  exact hv.trans hw.symm

theorem nodup_candidates (feed : Feed) (id : Text) :
    ((feed.candidates id).map fun c => c.version.normalized).Nodup := by
  apply nodup_normalized
  · intro v hv
    simpa using List.of_mem_filter hv
  · exact List.Nodup.sublist (List.filter_sublist.map _) (List.pairwise_map.mpr feed.keyed)

theorem mem_planKeys_iff (h : ∀ v ∈ listed, v.lowerId = id) {key : RowKey} :
    key ∈ planKeys policy now listed ↔
      ∃ v ∈ (prunePlan (listed.map FeedVersion.candidate) policy now).map Pruned.version,
        (id, v.normalized) = key := by
  rw [planKeys_eq h]
  unfold planFor
  simp only [List.mem_map, exists_exists_and_eq_and]

theorem mem_planKeys_of_unsplit (hsplit : ¬ feed.Split policy now)
    (hlisting : IsListing feed.rows id listed) {key : RowKey} :
    key ∈ planKeys policy now listed ↔
      ∃ v ∈ (prunePlan (feed.candidates id) policy now).map Pruned.version,
        (id, v.normalized) = key := by
  have hperm : (listed.map FeedVersion.candidate).Perm (feed.candidates id) := hlisting.map _
  rw [mem_planKeys_iff fun v hv => (hlisting.mem_iff.mp hv).2]
  simp only [mem_prunePlan_perm (onePackage_candidates feed id)
    (fun c hc h => hsplit ⟨id, c, hc, h⟩) hperm]

/-- A sweep deletes what its plans name. -/
theorem mem_sweptKeys (feed : Feed) (engine : Engine) (policy : RetentionPolicy) (now : Instant) :
    ∃ listing : Text → List FeedVersion,
      (∀ id ∈ lowerIds feed.rows, ReadFor engine feed.rows id (listing id)) ∧
        ∀ key, key ∈ feed.sweptKeys engine policy now ↔
          key ∈ (lowerIds feed.rows).flatMap fun id => planKeys policy now (listing id) := by
  obtain ⟨listing, hread, heq⟩ := pruneAll_eq engine policy now feed.keyed
  refine ⟨listing, hread, fun key => ?_⟩
  unfold Feed.sweptKeys Feed.keys
  rw [heq]
  constructor
  · rintro ⟨hmem, hgone⟩
    obtain ⟨v, hv, rfl⟩ := List.mem_map.mp hmem
    by_contra hkept
    exact hgone (List.mem_map_of_mem (List.mem_filter.mpr ⟨hv, by simpa using hkept⟩))
  · intro hkey
    obtain ⟨id, hid, hplan⟩ := List.mem_flatMap.mp hkey
    have hlisting := (hread id hid).isListing (canonicalId_of_mem hid)
    obtain ⟨v, hv, rfl, -⟩ := mem_planKeys (fun v hv => (hlisting.mem_iff.mp hv).2) hplan
    refine ⟨List.mem_map_of_mem (hlisting.mem_iff.mp hv).1, fun hkept => ?_⟩
    obtain ⟨w, hw, hsame⟩ := List.mem_map.mp hkept
    have hnot := List.of_mem_filter hw
    rw [hsame] at hnot
    simp [hkey] at hnot

/-- The row is ranked in the channel of `v`, and compares equal to it. -/
def tiedWith (v w : FeedVersion) : Bool :=
  w.candidate.servable && !w.candidate.pinned &&
    w.candidate.isPrerelease = v.candidate.isPrerelease &&
    NuGetVersion.cmp w.version v.version = .eq

theorem byVersion_of_tiedWith {v w : FeedVersion} (h : tiedWith v w = true) :
    byVersion v w = .eq := by
  have htie : NuGetVersion.cmp w.version v.version = .eq := by
    simp only [tiedWith, Bool.and_eq_true, decide_eq_true_eq] at h
    exact h.2
  exact OrientedCmp.eq_symm htie

/-! An engine that puts some rows before the others. -/

def Engine.putting (p : FeedVersion → Bool) : Engine where
  ofId rows id := (rows.filter fun v => v.lowerId = id).filter p ++
    (rows.filter fun v => v.lowerId = id).filter fun v => !p v
  ofIds rows ids := rows.filter fun v => ids.any (· = v.lowerId)
  ofId_perm _ _ := List.filter_append_perm _ _
  ofIds_perm _ _ := List.Perm.refl _

/-- The versions that compare equal stand as the database put them. -/
theorem filter_tiedWith {p : FeedVersion → Bool}
    (h : ReadFor (Engine.putting p) rows id listed) (hid : canonicalId id = id) (v : FeedVersion) :
    listed.filter (tiedWith v) =
      ((rows.filter fun v => v.lowerId = id).filter p).filter (tiedWith v) ++
        ((rows.filter fun v => v.lowerId = id).filter fun v => !p v).filter (tiedWith v) := by
  obtain ⟨rows', hsame, rfl⟩ := h
  have hties (l : List FeedVersion) :
      l.filter (tiedWith v) = (ties byVersion v l).filter (tiedWith v) := by
    unfold ties
    rw [List.filter_filter]
    apply List.filter_congr
    intro w _
    cases hw : tiedWith v w with
    | false => rfl
    | true => simp [byVersion_of_tiedWith hw]
  unfold findAllVersions
  rw [hties, ties_sortBy, ← hties, hid, ← hsame]
  exact List.filter_append _ _

theorem ties_listed (listed : List FeedVersion) (v : FeedVersion) :
    ties newestFirst v.candidate (channel (listed.map FeedVersion.candidate)
      v.candidate.isPrerelease) = (listed.filter (tiedWith v)).map FeedVersion.candidate := by
  rw [ties_channel]
  unfold ranked
  rw [List.filter_filter, List.filter_map]
  congr 1
  apply List.filter_congr
  intro w _
  simp only [tiedWith, Function.comp_apply]
  rw [Bool.and_comm]
  rfl

theorem tiedWith_self {v : FeedVersion}
    (hsplit : SplitAt (feed.candidates id) policy now v.candidate) : tiedWith v v = true := by
  obtain ⟨hservable, hpinned, -⟩ := hsplit
  simp [tiedWith, hservable, hpinned, ReflCmp.compare_self]

section Differ

variable {v : FeedVersion} (hv : v ∈ feed.rows.filter fun w => w.lowerId = id)
  (hsplit : SplitAt (feed.candidates id) policy now v.candidate)

include hv hsplit

theorem filter_eq_self : ((feed.rows.filter fun w => w.lowerId = id).filter (· = v)).filter
    (tiedWith v) = [v] := by
  have hnodup : (feed.rows.filter fun w => w.lowerId = id).Nodup :=
    (List.Nodup.of_map FeedVersion.key (List.pairwise_map.mpr feed.keyed)).filter _
  rw [List.filter_eq, List.count_eq_one_of_mem hnodup hv, List.replicate_one,
    List.filter_cons_of_pos (tiedWith_self hsplit), List.filter_nil]

/-- Where the row comes last, it is deleted. -/
theorem mem_planKeys_last
    (hread : ReadFor (Engine.putting fun w => w ≠ v) feed.rows id listed)
    (hid : canonicalId id = id) : v.key ∈ planKeys policy now listed := by
  have hlisting := hread.isListing hid
  have hperm : (listed.map FeedVersion.candidate).Perm (feed.candidates id) := hlisting.map _
  have hfilter := filter_tiedWith hread hid v
  have hlast : ((feed.rows.filter fun w => w.lowerId = id).filter fun w => !decide (w ≠ v)).filter
      (tiedWith v) = [v] := by
    rw [← filter_eq_self hv hsplit]
    congr 1
    apply List.filter_congr
    intro w _
    simp
  rw [hlast] at hfilter
  have hlength := length_ties_channel (listed.map FeedVersion.candidate) v.candidate
  rw [tied_perm hperm, ties_listed, List.length_map, hfilter, List.length_append] at hlength
  have hpruned := pruned_of_last hsplit (List.mem_map_of_mem hv) (onePackage_candidates feed id)
    hperm (by
      rw [ties_listed, hfilter, ← hlength]
      simp)
  rw [mem_planKeys_iff fun v hv => (hlisting.mem_iff.mp hv).2]
  have hvid : v.lowerId = id := by simpa using List.of_mem_filter hv
  exact ⟨_, hpruned, by rw [← hvid]; rfl⟩

theorem not_mem_planKeys_first (hread : ReadFor (Engine.putting (· = v)) feed.rows id listed)
    (hid : canonicalId id = id) : v.key ∉ planKeys policy now listed := by
  have hlisting := hread.isListing hid
  have hperm : (listed.map FeedVersion.candidate).Perm (feed.candidates id) := hlisting.map _
  have hfilter := filter_tiedWith hread hid v
  rw [filter_eq_self hv hsplit] at hfilter
  rw [planKeys_eq fun v hv => (hlisting.mem_iff.mp hv).2]
  intro hmem
  obtain ⟨p, hp, hkey⟩ := List.mem_map.mp hmem
  apply kept_of_first hsplit (List.mem_map_of_mem hv) (onePackage_candidates feed id) hperm
    (nodup_candidates feed id) _ hp
  · exact congrArg Prod.snd hkey
  · rw [ties_listed, hfilter]
    rfl

end Differ

/-- Where a place decides, sweeps of one feed differ. -/
theorem swept_differ (h : feed.Split policy now) : ∃ engine engine' key,
    key ∈ feed.sweptKeys engine policy now ∧ key ∉ feed.sweptKeys engine' policy now := by
  obtain ⟨id, c, hc, hsplit⟩ := h
  obtain ⟨v, hv, rfl⟩ := List.mem_map.mp hc
  have hvid : v.lowerId = id := by simpa using List.of_mem_filter hv
  have hid : id ∈ lowerIds feed.rows :=
    mem_lowerIds.mpr ⟨v, List.mem_of_mem_filter hv, hvid⟩
  refine ⟨Engine.putting fun w => w ≠ v, Engine.putting (· = v), v.key, ?_, ?_⟩
  · obtain ⟨listing, hread, hmem⟩ :=
      mem_sweptKeys feed (Engine.putting fun w => w ≠ v) policy now
    rw [hmem, List.mem_flatMap]
    exact ⟨id, hid, mem_planKeys_last hv hsplit (hread id hid) (canonicalId_of_mem hid)⟩
  · obtain ⟨listing, hread, hmem⟩ := mem_sweptKeys feed (Engine.putting (· = v)) policy now
    rw [hmem, List.mem_flatMap]
    rintro ⟨id', hid', hkey⟩
    have hlisting := (hread id' hid').isListing (canonicalId_of_mem hid')
    obtain ⟨w, hw, hsame, -⟩ := mem_planKeys (fun v hv => (hlisting.mem_iff.mp hv).2) hkey
    have hwid : w.lowerId = id' := (hlisting.mem_iff.mp hw).2
    obtain rfl : id' = id := by
      rw [← hwid, ← hvid]
      exact congrArg Prod.fst hsame
    exact not_mem_planKeys_first hv hsplit (hread id' hid') (canonicalId_of_mem hid') hkey

end Feeds

end YaNuget.Retention
