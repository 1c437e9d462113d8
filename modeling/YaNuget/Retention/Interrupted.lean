import YaNuget.Retention.PlanPolicy

/-!
# Interrupted runs

A run may end after it has deleted only some of the versions it planned to. The
next plan is made from those that are left: ranks have only become smaller, and
the version that is protected is still there.
-/
namespace YaNuget.Retention

open Std Versions Orderings Sorting

/-- A list without some of its items keeps the others no further back. -/
theorem getElem?_of_filter {α : Type} {p : α → Bool} {l : List α} {n : ℕ} {a : α}
    (h : (l.filter p)[n]? = some a) : ∃ m, n ≤ m ∧ l[m]? = some a := by
  induction l generalizing n with
  | nil => simp at h
  | cons b l ih =>
    by_cases hb : p b
    · rw [List.filter_cons_of_pos hb] at h
      cases n with
      | zero => exact ⟨0, le_rfl, h⟩
      | succ n =>
        obtain ⟨m, hle, hget⟩ := ih (by simpa using h)
        exact ⟨m + 1, by omega, by simpa using hget⟩
    · rw [List.filter_cons_of_neg hb] at h
      obtain ⟨m, hle, hget⟩ := ih h
      exact ⟨m + 1, by omega, by simpa using hget⟩

/-- What is left of the versions without the ones deleted. -/
def without (deleted : List Versions.NuGetVersion) (versions : List Candidate) : List Candidate :=
  versions.filter fun c => c.version ∉ deleted

section Interrupted

variable {versions left : List Candidate} {deleted : List Versions.NuGetVersion}
variable {policy : RetentionPolicy} {now : Instant} {c : Candidate}

theorem mem_without : c ∈ without deleted versions ↔ c ∈ versions ∧ c.version ∉ deleted := by
  simp [without]

theorem channel_without
    (hties : ∀ c, ties newestFirst c left = ties newestFirst c (without deleted versions))
    (pre : Bool) :
    channel left pre = (channel versions pre).filter fun c => c.version ∉ deleted := by
  have hranked : ranked (without deleted versions) pre =
      (ranked versions pre).filter fun c => c.version ∉ deleted := by
    simp only [ranked, without]
    rw [List.filter_comm]
  unfold channel
  rw [filter_sortBy, ← hranked]
  apply sortBy_congr
  intro c
  have hc := congrArg (List.filter fun c => c.servable && !c.pinned && c.isPrerelease = pre) (hties c)
  simp only [ties, ranked] at hc ⊢
  rw [List.filter_comm, hc, List.filter_comm]

/-- The version that is protected is not deleted, and is protected among those left. -/
theorem isProtected_without (hid : OnePackage versions) (hperm : left.Perm (without deleted versions))
    (hdeleted : ∀ v ∈ deleted, v ∈ (prunePlan versions policy now).map Pruned.version)
    (hc : c ∈ left) (hservable : c.servable = true) :
    isProtected left c = isProtected versions c := by
  have hleft {d : Candidate} : d ∈ left ↔ d ∈ versions ∧ d.version ∉ deleted :=
    hperm.mem_iff.trans mem_without
  have hmem := (hleft.mp hc).1
  rw [Bool.eq_iff_iff, isProtected_iff hc hservable, isProtected_iff hmem hservable]
  constructor
  · rintro ⟨-, hnewest⟩
    obtain ⟨e, he, hes, hprotected⟩ := exists_protected ⟨c, hmem, hservable⟩
    have hkept : e ∈ left := by
      refine hleft.mpr ⟨he, fun hgone => ?_⟩
      obtain ⟨d, -, hversion, hd⟩ := of_mem_prunePlan hid (hdeleted e.version hgone)
      rw [isProtected_congr hversion, hprotected] at hd
      simp at hd
    obtain ⟨-, hgreatest⟩ := (isProtected_iff he hes).mp hprotected
    have hchannel : c.isPrerelease = e.isPrerelease := by
      have hforth := (hnewest e hkept hes).1
      have hback := (hgreatest c hmem hservable).1
      cases hpre : c.isPrerelease <;> cases hpre' : e.isPrerelease <;> simp_all
    refine ⟨hservable, fun d hd hds => ⟨?_, ?_⟩⟩
    · rw [hchannel]
      exact (hgreatest d hd hds).1
    · intro hsame
      have hle := (hgreatest d hd hds).2 (hchannel.symm.trans hsame)
      exact TransCmp.isLE_trans hle ((hnewest e hkept hes).2 hchannel)
  · rintro ⟨-, hnewest⟩
    exact ⟨hservable, fun d hd hds => hnewest d (hleft.mp hd).1 hds⟩

/-- Whatever part of a plan has been carried out, the next plan names only what the first one
named, and nothing once all of it has. Versions that compare equal are listed as before. -/
theorem interrupted_harmless (hid : ∀ c ∈ versions, ∀ d ∈ versions, c.package.lowerId = d.package.lowerId)
    (hdeleted : ∀ v ∈ deleted, v ∈ (prunePlan versions policy now).map Pruned.version)
    (hperm : left.Perm (without deleted versions))
    (hties : ∀ c, ties newestFirst c left = ties newestFirst c (without deleted versions)) :
    (∀ v ∈ (prunePlan left policy now).map Pruned.version,
      v ∈ (prunePlan versions policy now).map Pruned.version) ∧
    ((∀ v ∈ (prunePlan versions policy now).map Pruned.version, v ∈ deleted) →
      prunePlan left policy now = []) := by
  have hleft {d : Candidate} : d ∈ left ↔ d ∈ versions ∧ d.version ∉ deleted :=
    hperm.mem_iff.trans mem_without
  have hid' : OnePackage left := fun c hc d hd => hid c (hleft.mp hc).1 d (hleft.mp hd).1
  -- what the next plan names is left, and the first plan names it too
  have hnamed : ∀ v ∈ (prunePlan left policy now).map Pruned.version,
      v ∉ deleted ∧ v ∈ (prunePlan versions policy now).map Pruned.version := by
    intro v hv
    obtain ⟨hexcluded, hlimits, pre, n, c, hget, rfl, hprotected, hreason⟩ :=
      (mem_prunePlan_version hid').mp hv
    obtain ⟨hc, hservable, -⟩ := mem_ranked.mp (mem_channel.mp (List.mem_of_getElem? hget))
    obtain ⟨hmem, hkept⟩ := hleft.mp hc
    refine ⟨hkept, (mem_prunePlan_version hid).mpr ⟨?_, hlimits, pre, ?_⟩⟩
    · intro d hd
      rw [excludes_congr (hid d hd c hmem) policy]
      exact hexcluded c hc
    · rw [channel_without hties] at hget
      obtain ⟨m, hle, hget⟩ := getElem?_of_filter hget
      rw [isProtected_without hid hperm hdeleted hc hservable] at hprotected
      refine ⟨m, c, hget, rfl, hprotected, ?_⟩
      rcases hreason with ⟨k, hk, hkn⟩ | hold
      · exact .inl ⟨k, hk, hkn.trans hle⟩
      · exact .inr hold
  constructor
  · exact fun v hv => (hnamed v hv).2
  · intro hall
    rw [← List.map_eq_nil_iff (f := Pruned.version), List.eq_nil_iff_forall_not_mem]
    intro v hv
    exact (hnamed v hv).1 (hall v (hnamed v hv).2)

theorem interrupted_harmless_sample :
    prunePlan (without [(sampleCandidate 1).version] sampleVersions) samplePolicy
      .epoch = [] :=
  (interrupted_harmless
    (by decide +kernel :
      ∀ c ∈ sampleVersions, ∀ d ∈ sampleVersions, c.package.lowerId = d.package.lowerId)
    (by decide +kernel) (List.Perm.refl _) fun _ => rfl).2 (by decide +kernel)

end Interrupted

end YaNuget.Retention
