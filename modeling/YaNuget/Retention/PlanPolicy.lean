import YaNuget.Retention.Plan
import Mathlib.Data.List.Pairwise

/-!
# The plan is its policy

Membership in the plan in the policy's own words: how many newer versions of
its channel a version has, and how long it has been in the feed.
-/
namespace YaNuget.Retention

open Std Versions Orderings Sorting

def rank (versions : List Candidate) (c : Candidate) : ℕ :=
  (ranked versions c.isPrerelease).countP fun d => NuGetVersion.cmp d.version c.version = .gt

/-- As many newer versions as the channel keeps are there. -/
def BeyondNewest (versions : List Candidate) (policy : RetentionPolicy) (c : Candidate) : Prop :=
  ∃ n ∈ policy.keep c.isPrerelease, n ≤ rank versions c

/-- The version came to the feed more than the allowed number of days before `now`. -/
def TooOld (policy : RetentionPolicy) (now : Instant) (c : Candidate) : Prop :=
  ∃ days ∈ policy.maxAgeDays,
    c.added.nanos < now.nanos - ((days * 86400 : ℕ) : ℤ) * nanosPerSecond

/-- The newest stable version that clients can get, or the newest pre-release if they can get no
stable one. -/
def NewestServed (versions : List Candidate) (c : Candidate) : Prop :=
  c.servable = true ∧ ∀ d ∈ versions, d.servable = true →
    (c.isPrerelease = true → d.isPrerelease = true) ∧
      (c.isPrerelease = d.isPrerelease → (NuGetVersion.cmp d.version c.version).isLE)

/-- The package is left alone, or it is the newest version that clients can get. -/
def Protected (versions : List Candidate) (policy : RetentionPolicy) (c : Candidate) : Prop :=
  policy.excludes c.package.id = true ∨ NewestServed versions c

instance : TransCmp newestFirst where
  eq_swap {a b} :=
    (OrientedCmp.eq_swap : NuGetVersion.cmp b.version a.version = _)
  isLE_trans {a _ c} hab hbc :=
    (TransCmp.isLE_trans hbc hab : (NuGetVersion.cmp c.version a.version).isLE)

section Age

theorem checkedSub_any {now added : Instant} {duration : ℤ} (h : 0 ≤ duration) :
    (now.checkedSub duration).any (added.nanos < ·.nanos) = true ↔
      added.nanos < now.nanos - duration := by
  have hadded := added.earliest
  have hlatest := now.latest
  unfold Instant.checkedSub
  split
  · simp
  · simp only [Option.any_none, Bool.false_eq_true, false_iff]
    omega

/-- The limits of instants and durations prune nothing, and spare nothing. -/
theorem cutoff_iff (policy : RetentionPolicy) (now : Instant) (c : Candidate) :
    (policy.cutoff now).any (c.added.nanos < ·.nanos) = true ↔ TooOld policy now c := by
  have hadded := c.added.earliest
  have hlatest := now.latest
  unfold RetentionPolicy.cutoff TooOld
  cases policy.maxAgeDays with
  | none => simp
  | some days =>
    simp only [Option.bind_some, Option.mem_def, Option.some.injEq, exists_eq_left']
    have hdays : tryDays days = none ∧ (2 ^ 63 - 1) / 1000 < days * 86400 ∨
        tryDays days = some ((days * 86400 : ℕ) * nanosPerSecond) := by
      unfold tryDays
      split
      · left
        exact ⟨rfl, by omega⟩
      split
      · left
        exact ⟨rfl, by omega⟩
      split
      · left
        exact ⟨rfl, by assumption⟩
      · exact .inr rfl
    rcases hdays with ⟨hnone, hlong⟩ | hsome
    · rw [hnone]
      simp only [minSeconds, maxSeconds, nanosPerSecond] at hadded hlatest ⊢
      simp only [Option.bind_none, Option.any_none, Bool.false_eq_true, false_iff]
      omega
    · rw [hsome, Option.bind_some]
      apply checkedSub_any
      simp only [nanosPerSecond]
      omega

theorem olderThanDays_iff (policy : RetentionPolicy) (now : Instant) (prerelease : Bool) (n : ℕ)
    (c : Candidate) :
    (reasonOf policy now prerelease n c).olderThanDays.isSome = true ↔ TooOld policy now c := by
  rw [← cutoff_iff]
  simp only [reasonOf]
  split_ifs with h
  · simp only [h, iff_true]
    cases hdays : policy.maxAgeDays with
    | none => simp [RetentionPolicy.cutoff, hdays] at h
    | some days => rfl
  · simp [h]

theorem beyondNewest_iff (policy : RetentionPolicy) (now : Instant) (prerelease : Bool) (n : ℕ)
    (c : Candidate) : (reasonOf policy now prerelease n c).beyondNewest.isSome = true ↔
      ∃ k ∈ policy.keep prerelease, k ≤ n := by
  simp only [reasonOf, Option.isSome_map]
  cases policy.keep prerelease <;> simp [Option.filter]

end Age

section Protection

variable {versions : List Candidate} {c : Candidate}

theorem isPrerelease_congr {a b : Versions.NuGetVersion} (h : NuGetVersion.cmp a b = .eq) :
    a.isPrerelease = b.isPrerelease := by
  have hlength := congrArg List.length (NuGetVersion.cmp_eq_eq.mp h).2
  simp only [List.length_map] at hlength
  cases ha : a.pre <;> cases hb : b.pre <;> simp_all [Versions.NuGetVersion.isPrerelease]

/-- The versions of one channel that clients can get. -/
def served (versions : List Candidate) (prerelease : Bool) : List Candidate :=
  versions.filter fun c => c.servable && c.isPrerelease = prerelease

theorem mem_served {prerelease : Bool} : c ∈ served versions prerelease ↔
    c ∈ versions ∧ c.servable = true ∧ c.isPrerelease = prerelease := by
  simp [served]

theorem newest_eq_none {prerelease : Bool} :
    newest versions prerelease = none ↔ served versions prerelease = [] := by
  unfold newest
  rw [greatest_eq_none, List.map_eq_nil_iff]
  rfl

/-- The newest version of a channel compares equal to those that none is newer than. -/
theorem newest_eq_iff {prerelease : Bool} (hc : c ∈ served versions prerelease) :
    (newest versions prerelease).any (NuGetVersion.cmp · c.version = .eq) = true ↔
      ∀ d ∈ served versions prerelease, (NuGetVersion.cmp d.version c.version).isLE := by
  cases hbest : newest versions prerelease with
  | none =>
    rw [newest_eq_none] at hbest
    simp [hbest] at hc
  | some best =>
    obtain ⟨hmem, hgreatest⟩ := greatest_spec hbest
    have hle := hgreatest c.version (List.mem_map_of_mem hc)
    simp only [Option.any_some, decide_eq_true_eq]
    constructor
    · intro heq d hd
      have hd := hgreatest d.version (List.mem_map_of_mem hd)
      exact TransCmp.isLE_trans hd (by simp [heq])
    · intro hall
      obtain ⟨d, hd, rfl⟩ := List.mem_map.mp hmem
      have hback := hall d hd
      have hswap : NuGetVersion.cmp d.version c.version =
          (NuGetVersion.cmp c.version d.version).swap := OrientedCmp.eq_swap
      rw [hswap] at hback ⊢
      cases hcmp : NuGetVersion.cmp c.version d.version <;> simp_all

theorem isProtected_iff (hc : c ∈ versions) (hservable : c.servable = true) :
    isProtected versions c = true ↔ NewestServed versions c := by
  have hmem : c ∈ served versions c.isPrerelease := mem_served.mpr ⟨hc, hservable, rfl⟩
  have hmax := newest_eq_iff hmem
  unfold isProtected protectedVersion NewestServed
  cases hstable : newest versions false with
  | none =>
    have hempty := newest_eq_none.mp hstable
    have hpre : ∀ d ∈ versions, d.servable = true → d.isPrerelease = true := by
      intro d hd hs
      by_contra hnot
      have hd' : d ∈ served versions false := mem_served.mpr ⟨hd, hs, by simpa using hnot⟩
      simp [hempty] at hd'
    rw [hpre c hc hservable] at hmax
    rw [Option.none_or, hmax]
    constructor
    · intro h
      refine ⟨hservable, fun d hd hs => ⟨fun _ => hpre d hd hs, fun _ => ?_⟩⟩
      exact h d (mem_served.mpr ⟨hd, hs, hpre d hd hs⟩)
    · rintro ⟨-, h⟩ d hd
      obtain ⟨hd, hs, hd'⟩ := mem_served.mp hd
      exact (h d hd hs).2 ((hpre c hc hservable).trans hd'.symm)
  | some best =>
    rw [Option.some_or, Option.any_some]
    obtain ⟨hbest, -⟩ := greatest_spec hstable
    obtain ⟨e, he, rfl⟩ := List.mem_map.mp hbest
    have he : e ∈ served versions false := he
    cases hpre : c.isPrerelease with
    | false =>
      rw [hpre, hstable, Option.any_some] at hmax
      rw [hmax]
      constructor
      · intro h
        refine ⟨hservable, fun d hd hs => ⟨by simp, fun heq => ?_⟩⟩
        exact h d (mem_served.mpr ⟨hd, hs, heq.symm⟩)
      · rintro ⟨-, h⟩ d hd
        obtain ⟨hd, hs, hd'⟩ := mem_served.mp hd
        exact (h d hd hs).2 hd'.symm
    | true =>
      obtain ⟨he, hs, he'⟩ := mem_served.mp he
      constructor
      · intro heq
        have hsame := isPrerelease_congr (by simpa using heq)
        change e.isPrerelease = c.isPrerelease at hsame
        rw [he', hpre] at hsame
        simp at hsame
      · rintro ⟨-, h⟩
        have := (h e he hs).1 rfl
        rw [he'] at this
        simp at this

end Protection

section Excluded

theorem idHasPrefix_congr {id id' : Text} (h : canonicalId id = canonicalId id') (pfx : Text) :
    idHasPrefix id pfx = idHasPrefix id' pfx := by
  have hlower : Text.lower id = Text.lower id' := h
  simp [idHasPrefix, hlower]

theorem excludes_congr {id id' : Text} (h : canonicalId id = canonicalId id')
    (policy : RetentionPolicy) : policy.excludes id = policy.excludes id' := by
  unfold RetentionPolicy.excludes
  exact congrArg policy.excludeIdPrefixes.any (funext (idHasPrefix_congr h))

variable {versions : List Candidate} {policy : RetentionPolicy} {now : Instant}

/-- The versions of one package under the names that differ in case at most. -/
def OnePackage (versions : List Candidate) : Prop :=
  ∀ c ∈ versions, ∀ d ∈ versions, c.package.lowerId = d.package.lowerId

theorem mem_prunePlan (hid : OnePackage versions) {p : Pruned} :
    p ∈ prunePlan versions policy now ↔ (∀ c ∈ versions, policy.excludes c.package.id = false) ∧
      policy.hasLimits = true ∧ ∃ pre, p ∈ pruneChannel versions policy now pre := by
  cases versions with
  | nil =>
    have hnone (pre : Bool) : pruneChannel [] policy now pre = [] := rfl
    simp [prunePlan, hnone]
  | cons first rest =>
    have hall : (∀ c ∈ first :: rest, policy.excludes c.package.id = false) ↔
        policy.excludes first.package.id = false := by
      constructor
      · exact fun h => h first List.mem_cons_self
      · intro h c hc
        rw [← h]
        exact excludes_congr (hid c hc first List.mem_cons_self) policy
    rw [hall]
    unfold prunePlan
    cases hlimits : policy.hasLimits with
    | false => simp
    | true =>
      cases hexcluded : policy.excludes first.package.id <;> simp [hexcluded]

end Excluded

section Exact

variable {versions : List Candidate} {policy : RetentionPolicy} {now : Instant} {c : Candidate}

theorem mem_ranked {pre : Bool} : c ∈ ranked versions pre ↔
    c ∈ versions ∧ c.servable = true ∧ c.pinned = false ∧ c.isPrerelease = pre := by
  simp [ranked, and_assoc]

theorem mem_channel {pre : Bool} : c ∈ channel versions pre ↔ c ∈ ranked versions pre := mem_sortBy

/-- What a plan names is a ranked version at its place in its channel, and not protected. -/
theorem mem_pruneChannel_version {pre : Bool} {v : Versions.NuGetVersion} :
    v ∈ (pruneChannel versions policy now pre).map Pruned.version ↔
      ∃ n c, (channel versions pre)[n]? = some c ∧ c.version = v ∧ isProtected versions c = false ∧
        ((∃ k ∈ policy.keep pre, k ≤ n) ∨ TooOld policy now c) := by
  rw [List.mem_map]
  constructor
  · rintro ⟨p, hp, rfl⟩
    obtain ⟨n, c, hget, hpruned⟩ := mem_pruneChannel.mp hp
    obtain ⟨hprotected, hreason, rfl⟩ := prunedAt_eq_some.mp hpruned
    rw [beyondNewest_iff, olderThanDays_iff] at hreason
    exact ⟨n, c, hget, rfl, hprotected, hreason⟩
  · rintro ⟨n, c, hget, rfl, hprotected, hreason⟩
    refine ⟨⟨c.version, reasonOf policy now pre n c⟩, ?_, rfl⟩
    rw [← beyondNewest_iff policy now pre n c, ← olderThanDays_iff policy now pre n c] at hreason
    exact mem_pruneChannel.mpr ⟨n, c, hget, prunedAt_eq_some.mpr ⟨hprotected, hreason, rfl⟩⟩

theorem isProtected_congr {d : Candidate} (h : c.version = d.version) :
    isProtected versions c = isProtected versions d := by
  unfold isProtected
  rw [h]

theorem mem_prunePlan_version (hid : OnePackage versions) {v : Versions.NuGetVersion} :
    v ∈ (prunePlan versions policy now).map Pruned.version ↔
      (∀ c ∈ versions, policy.excludes c.package.id = false) ∧ policy.hasLimits = true ∧
        ∃ pre n c, (channel versions pre)[n]? = some c ∧ c.version = v ∧
          isProtected versions c = false ∧
            ((∃ k ∈ policy.keep pre, k ≤ n) ∨ TooOld policy now c) := by
  simp only [← mem_pruneChannel_version, List.mem_map, mem_prunePlan hid]
  constructor
  · rintro ⟨p, ⟨hexcluded, hlimits, pre, hp⟩, rfl⟩
    exact ⟨hexcluded, hlimits, pre, p, hp, rfl⟩
  · rintro ⟨hexcluded, hlimits, pre, p, hp, rfl⟩
    exact ⟨p, ⟨hexcluded, hlimits, pre, hp⟩, rfl⟩

theorem pairwise_channel (h : versions.Pairwise fun c d => newestFirst c d ≠ .eq) (pre : Bool) :
    (channel versions pre).Pairwise fun c d => newestFirst c d ≠ .eq := by
  have hranked : (ranked versions pre).Pairwise fun c d => newestFirst c d ≠ .eq := h.filter _
  have hperm : (channel versions pre).Perm (ranked versions pre) := perm_sortBy _
  refine hperm.symm.pairwise hranked ?_
  intro a b hab heq
  exact hab (OrientedCmp.eq_symm heq)

theorem channel_position (h : versions.Pairwise fun c d => newestFirst c d ≠ .eq) {pre : Bool} {n : ℕ}
    (hget : (channel versions pre)[n]? = some c) : n = rank versions c := by
  have hmem := mem_ranked.mp (mem_channel.mp (List.mem_of_getElem? hget))
  rw [position_eq (sorted_sortBy _) (pairwise_channel h pre) hget]
  unfold before rank
  have hperm : (sortBy newestFirst (ranked versions pre)).Perm (ranked versions pre) :=
    perm_sortBy _
  rw [hmem.2.2.2, hperm.countP_eq]
  apply List.countP_congr
  intro d _
  have hswap : NuGetVersion.cmp d.version c.version = (NuGetVersion.cmp c.version d.version).swap :=
    OrientedCmp.eq_swap
  have hfirst : newestFirst d c = NuGetVersion.cmp c.version d.version := rfl
  rw [hfirst, hswap]
  cases NuGetVersion.cmp c.version d.version <;> simp

theorem eq_of_version (h : versions.Pairwise fun c d => newestFirst c d ≠ .eq) {d : Candidate}
    (hc : c ∈ versions) (hd : d ∈ versions) (hversion : c.version = d.version) : c = d := by
  by_contra hne
  have hsymm : Std.Symm fun c d : Candidate => newestFirst c d ≠ .eq :=
    ⟨fun _ _ hab heq => hab (OrientedCmp.eq_symm heq)⟩
  apply h.forall hc hd hne
  unfold newestFirst
  rw [hversion]
  exact ReflCmp.compare_self

theorem mem_prunePlan_iff (hid : OnePackage versions)
    (h : versions.Pairwise fun c d => newestFirst c d ≠ .eq) (hc : c ∈ versions) :
    c.version ∈ (prunePlan versions policy now).map Pruned.version ↔
      c.servable = true ∧ c.pinned = false ∧ ¬ Protected versions policy c ∧
        (BeyondNewest versions policy c ∨ TooOld policy now c) := by
  rw [mem_prunePlan_version hid]
  constructor
  · rintro ⟨hexcluded, -, pre, n, d, hget, hversion, hprotected, hreason⟩
    have hd := mem_ranked.mp (mem_channel.mp (List.mem_of_getElem? hget))
    obtain rfl := eq_of_version h hd.1 hc hversion
    refine ⟨hd.2.1, hd.2.2.1, ?_, ?_⟩
    · rintro (hexcludes | hnewest)
      · rw [hexcluded d hc] at hexcludes
        simp at hexcludes
      · rw [(isProtected_iff hc hd.2.1).mpr hnewest] at hprotected
        simp at hprotected
    · rw [channel_position h hget, ← hd.2.2.2] at hreason
      exact hreason
  · rintro ⟨hservable, hpinned, hprotected, hreason⟩
    have hmem : c ∈ channel versions c.isPrerelease :=
      mem_channel.mpr (mem_ranked.mpr ⟨hc, hservable, hpinned, rfl⟩)
    obtain ⟨n, hget⟩ := List.mem_iff_getElem?.mp hmem
    refine ⟨?_, ?_, c.isPrerelease, n, c, hget, rfl, ?_, ?_⟩
    · intro d hd
      rw [excludes_congr (hid d hd c hc) policy, ← Bool.not_eq_true]
      exact fun hexcluded => hprotected (.inl hexcluded)
    · unfold RetentionPolicy.hasLimits
      rcases hreason with ⟨k, hk, -⟩ | ⟨days, hdays, -⟩
      · cases hpre : c.isPrerelease <;> simp_all [RetentionPolicy.keep]
      · simp_all
    · rw [← Bool.not_eq_true]
      exact fun hnewest => hprotected (.inr ((isProtected_iff hc hservable).mp hnewest))
    · rw [channel_position h hget]
      exact hreason

theorem of_mem_prunePlan (hid : OnePackage versions) {v : Versions.NuGetVersion}
    (h : v ∈ (prunePlan versions policy now).map Pruned.version) :
    ∃ c ∈ versions, c.version = v ∧ isProtected versions c = false := by
  obtain ⟨-, -, pre, n, c, hget, hversion, hprotected, -⟩ := (mem_prunePlan_version hid).mp h
  have hmem := mem_ranked.mp (mem_channel.mp (List.mem_of_getElem? hget))
  exact ⟨c, hmem.1, hversion, hprotected⟩

/-- A version that clients can get is protected, if there is one. -/
theorem exists_protected (h : ∃ c ∈ versions, c.servable = true) :
    ∃ c ∈ versions, c.servable = true ∧ isProtected versions c = true := by
  obtain ⟨c, hc, hservable⟩ := h
  have hsome : protectedVersion versions ≠ none := by
    unfold protectedVersion
    intro hnone
    rw [Option.or_eq_none_iff, newest_eq_none, newest_eq_none] at hnone
    have hmem : c ∈ served versions c.isPrerelease := mem_served.mpr ⟨hc, hservable, rfl⟩
    cases hpre : c.isPrerelease <;> simp_all
  obtain ⟨v, hv⟩ := Option.ne_none_iff_exists'.mp hsome
  have hnewest : ∃ pre, newest versions pre = some v := by
    unfold protectedVersion at hv
    rw [Option.or_eq_some_iff] at hv
    rcases hv with hv | ⟨-, hv⟩
    · exact ⟨false, hv⟩
    · exact ⟨true, hv⟩
  obtain ⟨pre, hnewest⟩ := hnewest
  obtain ⟨d, hd, rfl⟩ := List.mem_map.mp (greatest_spec hnewest).1
  obtain ⟨hmem, hs, -⟩ := mem_served.mp hd
  refine ⟨d, hmem, hs, ?_⟩
  rw [isProtected, hv]
  simp [ReflCmp.compare_self]

end Exact

section Orders

variable {versions listed : List Candidate} {policy : RetentionPolicy} {now : Instant}

theorem isProtected_perm (h : listed.Perm versions) {c : Candidate} (hc : c ∈ versions)
    (hservable : c.servable = true) : isProtected listed c = isProtected versions c := by
  rw [Bool.eq_iff_iff, isProtected_iff (h.mem_iff.mpr hc) hservable, isProtected_iff hc hservable]
  simp only [NewestServed, h.mem_iff]

theorem pruneChannel_congr {pre : Bool} (hchannel : channel listed pre = channel versions pre)
    (hprotected : ∀ c ∈ ranked versions pre, isProtected listed c = isProtected versions c) :
    pruneChannel listed policy now pre = pruneChannel versions policy now pre := by
  unfold pruneChannel
  rw [hchannel]
  apply List.filterMap_congr
  rintro ⟨c, n⟩ hmem
  have hc : c ∈ ranked versions pre :=
    mem_channel.mp (List.mem_of_getElem? (List.mem_zipIdx_iff_getElem?.mp hmem))
  unfold prunedAt
  rw [hprotected c hc]

theorem prunePlan_congr (hid : OnePackage versions) (hperm : listed.Perm versions)
    (hchannel : ∀ pre, channel listed pre = channel versions pre) :
    prunePlan listed policy now = prunePlan versions policy now := by
  have hsame (pre : Bool) : pruneChannel listed policy now pre = pruneChannel versions policy now pre := by
    apply pruneChannel_congr (hchannel pre)
    intro c hc
    obtain ⟨hmem, hservable, -⟩ := mem_ranked.mp hc
    exact isProtected_perm hperm hmem hservable
  cases versions with
  | nil =>
    obtain rfl := hperm.eq_nil
    rfl
  | cons first rest =>
    cases listed with
    | nil => simp at hperm
    | cons first' rest' =>
      have hfirst' : first' ∈ first :: rest := hperm.mem_iff.mp List.mem_cons_self
      have hexcludes := excludes_congr (hid first' hfirst' first List.mem_cons_self) policy
      simp only [prunePlan, hexcludes, hsame]

end Orders

/-- The plan of a package names what its policy says, however the versions are listed. It names
nothing without a limit, and not the version that is protected. -/
theorem prunePlan_exact {versions : List Candidate} {policy : RetentionPolicy} {now : Instant}
    (hid : ∀ c ∈ versions, ∀ d ∈ versions, c.package.lowerId = d.package.lowerId)
    (hdistinct : versions.Pairwise fun c d => NuGetVersion.cmp c.version d.version ≠ .eq) :
    (∀ c ∈ versions, c.version ∈ (prunePlan versions policy now).map Pruned.version ↔
      c.servable = true ∧ c.pinned = false ∧ ¬ Protected versions policy c ∧
        (BeyondNewest versions policy c ∨ TooOld policy now c)) ∧
    (∀ v ∈ (prunePlan versions policy now).map Pruned.version, ∃ c ∈ versions, c.version = v) ∧
    (∀ listed : List Candidate, listed.Perm versions →
      prunePlan listed policy now = prunePlan versions policy now) ∧
    (policy.keepLatestStable = none → policy.keepLatestPrerelease = none →
      policy.maxAgeDays = none → prunePlan versions policy now = []) ∧
    ((∃ c ∈ versions, c.servable = true) → ∃ c ∈ versions, c.servable = true ∧
      c.version ∉ (prunePlan versions policy now).map Pruned.version) := by
  have hfirst : versions.Pairwise fun c d => newestFirst c d ≠ .eq := by
    apply hdistinct.imp
    intro c d hne heq
    have heq' : NuGetVersion.cmp d.version c.version = .eq := heq
    exact hne (OrientedCmp.eq_symm heq')
  refine ⟨fun c hc => mem_prunePlan_iff hid hfirst hc, ?_, ?_, ?_, ?_⟩
  · intro v hv
    obtain ⟨c, hc, hversion, -⟩ := of_mem_prunePlan hid hv
    exact ⟨c, hc, hversion⟩
  · intro listed hperm
    apply prunePlan_congr hid hperm
    intro pre
    have hranked : (ranked versions pre).Pairwise fun c d => newestFirst c d ≠ .eq := hfirst.filter _
    exact (sortBy_perm (hperm.symm.filter _) hranked).symm
  · intro hstable hprerelease hage
    cases versions with
    | nil => rfl
    | cons first rest =>
      simp [prunePlan, RetentionPolicy.hasLimits, hstable, hprerelease, hage]
  · intro hserved
    obtain ⟨c, hc, hservable, hprotected⟩ := exists_protected hserved
    refine ⟨c, hc, hservable, fun hmem => ?_⟩
    obtain ⟨d, -, hversion, hd⟩ := of_mem_prunePlan hid hmem
    rw [isProtected_congr hversion, hprotected] at hd
    simp at hd

/-- Stable version `major` of a sample package, added at the epoch. -/
def sampleCandidate (major : ℕ) : Candidate :=
  ⟨⟨"Sample.Package".toList, ⟨major, 0, 0, 0, [], none, []⟩⟩, false, true, .epoch⟩

def sampleVersions : List Candidate := [sampleCandidate 2, sampleCandidate 1, sampleCandidate 3]

def samplePolicy : RetentionPolicy := ⟨some 2, none, none, []⟩

theorem prunePlan_exact_sample : ∃ c ∈ sampleVersions, c.servable = true ∧
    c.version ∉ (prunePlan sampleVersions samplePolicy .epoch).map Pruned.version :=
  (prunePlan_exact (by decide +kernel) (by decide +kernel)).2.2.2.2
    ⟨sampleCandidate 1, by decide +kernel, rfl⟩

example : (prunePlan sampleVersions samplePolicy .epoch).map Pruned.version =
    [(sampleCandidate 1).version] := by decide +kernel

end YaNuget.Retention
