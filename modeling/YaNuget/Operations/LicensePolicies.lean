import YaNuget.Operations.LicenseVerdicts
import YaNuget.Operations.PayloadAgreement

/-!
# License policies hold

Each way of putting a build in, of replacing one and of passing one on to
another feed keeps the verdicts sound, and so does every run of the server.
-/
namespace YaNuget

open Concurrency Op Fallible Policy

section Rules

variable {T : Type} [DecidableEq T] {site : Site} {known : Content → Prop}
variable {policies : FeedName → Option LicensePolicyConfig} {k : VersionKey} {α β : Type}
variable {v : Verdicts}

/-- Run by the holder of the lock, `x` keeps the verdicts sound and ends in `Q`. -/
abbrev Judging (T : Type) [DecidableEq T] (site : Site) (known : Content → Prop)
    (policies : FeedName → Option LicensePolicyConfig) (k : VersionKey) (x : Op α)
    (Q : Except Error α → Verdicts → Prop) (v : Verdicts) : Prop :=
  x.run.Ensures (Records T k) (fun _ v => v.Sound site known policies) Q v

theorem judging_upkeep {x : Op α} (hx : x.run.Calls (Call.upkeep k))
    (hv : v.Sound site known policies) :
    Judging T site known policies k x (fun _ v' => v' = v) v := by
  refine Program.Ensures.of_calls hx (fun c hc v₁ r v₂ hv₁ h => ?_) rfl
  rw [h.upkeep hc, hv₁]
  exact ⟨hv, rfl⟩

theorem ensures_onlyIf {S : Type} {step : S → (c : Call) → c.Answer → S → Prop} {ok : S → S → Prop}
    {p : Prop} [Decidable p] {x : Op Unit} {Q : Except Error Unit → S → Prop} {s : S}
    (h : p → x.run.Ensures step ok Q s) (h' : ¬ p → Q (.ok ()) s) :
    (onlyIf p x).run.Ensures step ok Q s := by
  unfold onlyIf
  split_ifs with hp
  · exact h hp
  · exact h' hp

theorem judging_after_upkeep {x : Op α} {f : α → Op β} {Q : Except Error β → Verdicts → Prop}
    (hx : x.run.Calls (Call.upkeep k)) (hv : v.Sound site known policies)
    (herr : ∀ e, Q (.error e) v) (h : ∀ a, Judging T site known policies k (f a) Q v) :
    Judging T site known policies k (x >>= f) Q v := by
  refine ensures_bind ((judging_upkeep hx hv).mono fun r v' hv' => ?_)
  subst hv'
  cases r with
  | ok a => exact h a
  | error e => exact herr e

theorem keeps_withdraws {x : Op α} (hx : x.run.Calls (Call.withdraws k)) :
    KeepsSlice (fun s : Store T => s.db.verdicts k) (fun v => v.Sound site known policies) x :=
  Preserves.of_calls hx fun _ hc _ _ _ hv h =>
    have hv' := hv.withdraws (Records.withdraws h hc)
    ⟨hv', hv'⟩

theorem Verdicts.Sound.write {p : Package} {f : FeedName} {b : Bool}
    (hp : site.Builds known p) (hown : ∀ policy, policies f = some policy → Judges policy p b)
    (hothers : ∀ g policy b, g ≠ f → policies g = some policy → v.flagged g = some b →
      Judges policy p b) : (v.write p f b).Sound site known policies := by
  refine ⟨fun q hq => ?_, fun g policy b' hg hb => ⟨p, rfl, ?_⟩⟩
  · rwa [← Option.some.inj hq]
  · by_cases hgf : g = f
    · subst hgf
      obtain rfl : b = b' := by simpa [Verdicts.write] using hb
      exact hown policy hg
    · exact hothers g policy b' hgf hg (by simpa [Verdicts.write, hgf] using hb)

theorem Verdicts.Sound.join {p : Package} {f : FeedName} {b : Bool}
    (hv : v.Sound site known policies) (hp : v.package = some p)
    (hown : ∀ policy, policies f = some policy → Judges policy p b) :
    (v.write p f b).Sound site known policies := by
  refine .write (hv.built p hp) hown fun g policy b' _ hg hb => ?_
  obtain ⟨q, hq, hjudges⟩ := hv.judged g policy b' hg hb
  rwa [Option.some.inj (hp.symm.trans hq)]

end Rules

section Index

variable {T : Type} [DecidableEq T] {site : Site} {known : Content → Prop}
variable {policies : FeedName → Option LicensePolicyConfig} (feed : FeedName)
variable (incoming : Incoming site.sha512) (options : IndexOptions) {v : Verdicts}

/-- The push was judged by the policy of its feed, and knows those of the others
where it may replace what they hold. -/
structure Entitled (site : Site) (known : Content → Prop)
    (policies : FeedName → Option LicensePolicyConfig) (feed : FeedName)
    (incoming : Incoming site.sha512) (options : IndexOptions) : Prop where
  distinguishes : site.Distinguishes known
  builds : site.Builds known incoming.package
  judges : ∀ policy, policies feed = some policy →
    Judges policy incoming.package incoming.violation.isSome
  others : options.overwrite = .pendingOnly → ∀ g, g ≠ feed →
    options.otherLicensePolicies.lookup g = policies g

variable (hpush : Entitled site known policies feed incoming options)

include hpush

theorem judging_indexNew (hv : v.Sound site known policies) (hnone : v.package = none) :
    Judging T site known policies incoming.package.key (indexNew site feed incoming options)
      (fun _ v => v.Sound site known policies) v := by
  refine judging_after_upkeep (calls_storePayload _ _ _) hv (fun _ => hv) fun _ => ?_
  refine ensures_bind (ensures_attempt fun r v' h => ?_)
  rcases h.addVersion rfl with ⟨rfl, e, rfl⟩ | ⟨⟨inserted, rfl⟩, rfl⟩
  · refine ⟨hv, keeps_withdraws ?_ _ hv⟩
    refine calls_bind (calls_unwrapOr (calls_query trivial)) fun holders => ?_
    refine calls_bind (calls_onlyIf ?_) fun _ => calls_throw e
    exact calls_bind (calls_ignore (calls_query rfl)) fun _ => calls_ignore (calls_file rfl)
  · have hv' : (v.write (v.package.getD incoming.package) feed
        (newMembership site incoming options).flagged).Sound site known policies := by
      rw [hnone]
      refine .write hpush.builds hpush.judges fun g policy b _ hg hb => ?_
      obtain ⟨p, hp, -⟩ := hv.judged g policy b hg hb
      simp [hnone] at hp
    exact ⟨hv', hv'⟩

theorem judging_indexJoin (existing : PackageAt incoming.package.key) (payloadPresent : Bool)
    (hv : v.Sound site known policies) (hrow : v.package = some existing.1) :
    Judging T site known policies incoming.package.key
      (indexJoin site feed incoming options existing payloadPresent)
      (fun _ v => v.Sound site known policies) v := by
  refine ensures_bind (ensures_onlyIf (fun _ => hv) fun hsame => ?_)
  obtain hsame : existing.1.packageHash = incoming.package.packageHash := not_not.mp hsame
  have hlicense := (hv.built _ hrow).evaluateLicense_eq hpush.distinguishes hpush.builds hsame
  refine judging_after_upkeep (calls_onlyIf (calls_storePayload _ _ _)) hv (fun _ => hv) fun _ => ?_
  refine ensures_bind fun r v' h => ?_
  rcases h.addVersion existing.2 with ⟨rfl, e, rfl⟩ | ⟨⟨inserted, rfl⟩, rfl⟩
  · exact ⟨hv, hv⟩
  · have hv' : (v.write (v.package.getD existing.1) feed
        (newMembership site incoming options).flagged).Sound site known policies := by
      rw [hrow]
      refine hv.join hrow fun policy hpolicy => ?_
      rw [Option.getD_some, Judges, hlicense]
      exact hpush.judges policy hpolicy
    exact ⟨hv', hv'⟩

omit hpush

def Swap.Judged (policies : FeedName → Option LicensePolicyConfig) (swap : Swap) (p : Package)
    (feed : FeedName) (v : Verdicts) : Prop :=
  ∀ g policy b, g ≠ feed → policies g = some policy → v.flagged g = some b →
    swap.verdict g = some (evaluateLicense policy p) ∨
      swap.verdict g = none ∧ Judges policy p b

theorem Verdicts.Sound.swapped {swap : Swap} {p : Package} {b : Bool}
    (hp : site.Builds known p) (hown : ∀ policy, policies feed = some policy → Judges policy p b)
    (hothers : swap.Judged policies p feed v)
    (hallowed : ∀ g, g ≠ feed → (v.flagged g).isSome → ∀ o, swap.verdict g = some o →
      o.allowed = true) : (v.swapped swap p feed b).Sound site known policies := by
  refine ⟨fun q hq => ?_, fun g policy b' hg hb => ⟨p, rfl, ?_⟩⟩
  · rwa [← Option.some.inj hq]
  · by_cases hgf : g = feed
    · subst hgf
      obtain rfl : b = b' := by simpa [Verdicts.swapped] using hb
      exact hown policy hg
    · simp only [Verdicts.swapped, if_neg hgf] at hb
      obtain ⟨old, hold, hb⟩ := Option.map_eq_some_iff.mp hb
      rcases hothers g policy old hgf hg hold with hverdict | ⟨hverdict, hjudges⟩
      · rw [hverdict] at hb
        exact ⟨hallowed g hgf (by simp [hold]) _ hverdict, hb.symm⟩
      · rw [hverdict] at hb
        rwa [← show old = b' from hb]

theorem judging_swap {k : VersionKey} (swap : Swap) {p : Package} (hk : p.key = k) (m : Membership)
    (hv : v.Sound site known policies) (hp : site.Builds known p)
    (hown : ∀ policy, policies feed = some policy → Judges policy p m.flagged)
    (hothers : swap.Judged policies p feed v) :
    Judging T site known policies k (swap.replace p feed m)
      (fun _ v => v.Sound site known policies) v := by
  cases swap with
  | any =>
    refine ensures_bind fun r v' h => ?_
    rcases h.replaceVersion hk with ⟨rfl, e, rfl⟩ | ⟨rfl, rfl⟩
    · exact ⟨hv, hv⟩
    · have hv' := Verdicts.Sound.swapped feed hp hown hothers (by simp [Swap.verdict])
      exact ⟨hv', hv'⟩
  | pendingOnly dropFiles others =>
    intro r v' h
    rcases h.replacePendingVersion hk with ⟨rfl, e, rfl⟩ | ⟨⟨dropped, rfl⟩, rfl, hallowed⟩
    · exact ⟨hv, hv⟩
    · have hv' := Verdicts.Sound.swapped feed hp hown hothers hallowed
      exact ⟨hv', hv'⟩

theorem judging_overwrite (bytes : Content) (p existing : Package) (m : Membership)
    (sidecars : Sidecars) (swap : Swap) (hv : v.Sound site known policies)
    (hp : site.Builds known p)
    (hown : ∀ policy, policies feed = some policy → Judges policy p m.flagged)
    (hothers : swap.Judged policies p feed v) :
    Judging T site known policies p.key (overwrite feed bytes p existing m sidecars swap)
      (fun _ v => v.Sound site known policies) v := by
  have sidecar (kind : AuxFile) (present : Bool) :=
    (calls_readSidecar p.key kind present).mono fun _ => Call.upkeep_of_quiet
  refine judging_after_upkeep (calls_keepAside _) hv (fun _ => hv) fun backup => ?_
  refine judging_after_upkeep (sidecar _ _) hv (fun _ => hv) fun oldNuspec => ?_
  refine judging_after_upkeep (sidecar _ _) hv (fun _ => hv) fun oldReadme => ?_
  refine judging_after_upkeep (sidecar _ _) hv (fun _ => hv) fun oldIcon => ?_
  refine judging_after_upkeep (calls_file rfl) hv (fun _ => hv) fun _ => ?_
  have swapped : Judging T site known policies p.key
      (do storeSidecars p.key sidecars; swap.replace p feed m)
      (fun _ v => v.Sound site known policies) v :=
    judging_after_upkeep (calls_storeSidecars _ _) hv (fun _ => hv) fun _ =>
      judging_swap feed swap rfl m hv hp hown hothers
  refine ensures_bind (ensures_attempt (swapped.mono fun r v' hv' => ?_))
  cases r with
  | ok dropped => exact hv'
  | error e =>
    exact judging_after_upkeep (calls_putBack _ _ _ _ _) hv' (fun _ => hv') fun _ => hv'

theorem judging_checkUnshared (sameContent : Bool) (hv : v.Sound site known policies)
    (hheld : (v.flagged feed).isSome) :
    Judging T site known policies incoming.package.key
      (checkUnshared site incoming options sameContent)
      (fun r v' => v' = v ∧ (r = .ok () → sameContent = false → options.overwrite ≠ .pendingOnly →
        ∀ g, (v.flagged g).isSome → g = feed)) v := by
  refine ensures_onlyIf (fun _ => ensures_bind fun r v' h => ?_) fun hskip => ?_
  · obtain ⟨rfl, ⟨e, rfl⟩ | ⟨n, rfl, hone⟩⟩ := h.feedCount
    · exact ⟨hv, rfl, by simp⟩
    · refine ⟨hv, ensures_onlyIf (fun _ => ⟨rfl, by simp⟩) fun hle => ⟨rfl, ?_⟩⟩
      exact fun _ _ _ g hg => hone (not_lt.mp hle) g feed hg hheld
  · refine ⟨rfl, fun _ hsame hmode => (hskip ?_).elim⟩
    simp [hsame, hmode]

/-- What is already recorded has been judged; the same build stays. -/
theorem chooseSwap_judged_same (hv : v.Sound site known policies) {p : Package}
    (hrow : v.package = some p) :
    (chooseSwap site feed incoming options true).Judged policies p feed v := by
  intro g policy b _ hg hb
  obtain ⟨q, hq, hjudges⟩ := hv.judged g policy b hg hb
  rw [hrow] at hq
  refine Or.inr ⟨?_, by rwa [Option.some.inj hq]⟩
  unfold chooseSwap
  split_ifs
  · rfl
  · rfl

theorem find?_otherVerdicts {g : FeedName} (hg : g ≠ feed) :
    ((otherVerdicts site feed incoming options false).find? fun o => o.1 = g).map Prod.snd =
      (options.otherLicensePolicies.lookup g).map fun policy =>
        evaluateLicense policy incoming.package := by
  simp only [otherVerdicts, Bool.false_eq_true, if_false]
  induction options.otherLicensePolicies with
  | nil => rfl
  | cons o others ih =>
    by_cases ho : o.1 = g
    · obtain ⟨name, policy⟩ := o
      obtain rfl : name = g := ho
      simp [hg]
    · have hbeq : (g == o.1) = false := by simpa using Ne.symm ho
      rw [List.lookup_cons, hbeq]
      by_cases hfeed : o.1 = feed
      · simpa [hfeed] using ih
      · simpa [hfeed, ho] using ih

include hpush

theorem chooseSwap_judged (hunshared : options.overwrite ≠ .pendingOnly →
      ∀ g, (v.flagged g).isSome → g = feed) :
    (chooseSwap site feed incoming options false).Judged policies incoming.package feed v := by
  intro g policy b hgf hg hb
  unfold chooseSwap
  split_ifs with hmode
  · have hlookup : options.otherLicensePolicies.lookup g = some policy := by
      rw [hpush.others hmode g hgf, hg]
    left
    simp [Swap.verdict, find?_otherVerdicts feed incoming options hgf, hlookup]
  · exact (hgf (hunshared hmode g (by simp [hb]))).elim

theorem judging_indexOverwrite (existing : PackageAt incoming.package.key) (previous : Membership)
    (payloadPresent : Bool) (hv : v.Sound site known policies)
    (hrow : v.package = some existing.1) (hheld : (v.flagged feed).isSome) :
    Judging T site known policies incoming.package.key
      (indexOverwrite site feed incoming options existing previous payloadPresent)
      (fun _ v => v.Sound site known policies) v := by
  have quiet {x : Op Unit} (hx : x.run.Calls (Call.quiet incoming.package.key)) :
      x.run.Calls (Call.upkeep incoming.package.key) := hx.mono fun _ => Call.upkeep_of_quiet
  refine judging_after_upkeep (quiet (calls_checkOverwrite _ _ _ _ _)) hv (fun _ => hv) fun _ => ?_
  refine ensures_bind ((judging_checkUnshared feed incoming options _ hv hheld).mono
    fun r v' h => ?_)
  obtain ⟨rfl, hunshared⟩ := h
  cases r with
  | error e => exact hv
  | ok _ =>
  have hunshared := hunshared rfl
  have hlicense (h : existing.1.packageHash = incoming.package.packageHash) :=
    (hv.built _ hrow).evaluateLicense_eq hpush.distinguishes hpush.builds h
  dsimp only
  split_ifs with hkeep
  · obtain ⟨hhash, -⟩ : existing.1.packageHash = incoming.package.packageHash ∧
        payloadPresent = true := by simpa using hkeep
    have hswap : (chooseSwap site feed incoming options
        (existing.1.packageHash = incoming.package.packageHash)).Judged policies existing.1
        feed v' := by
      simpa [hhash] using chooseSwap_judged_same feed incoming options hv hrow
    refine ensures_bind ((judging_swap feed _ existing.2 _ hv (hv.built _ hrow) ?_ hswap).mono
      fun r v₂ hv₂ => ?_)
    · intro policy hpolicy
      rw [Judges, hlicense hhash]
      exact hpush.judges policy hpolicy
    · cases r with
      | ok _ => exact hv₂
      | error e => exact hv₂
  · have hswap : (chooseSwap site feed incoming options
        (existing.1.packageHash = incoming.package.packageHash)).Judged policies incoming.package
        feed v' := by
      by_cases hhash : existing.1.packageHash = incoming.package.packageHash
      · have hjudged := chooseSwap_judged_same feed incoming options hv hrow
        simp only [Swap.Judged, Judges, hlicense hhash] at hjudged
        simpa [hhash, Swap.Judged, Judges] using hjudged
      · simpa [hhash] using chooseSwap_judged feed incoming options hpush
          (hunshared (by simpa using hhash))
    refine ensures_bind ((judging_overwrite feed incoming.bytes incoming.package existing.1 _
      incoming.sidecars _ hv hpush.builds hpush.judges hswap).mono fun r v₂ hv₂ => ?_)
    cases r with
    | error e => exact hv₂
    | ok dropped =>
      refine judging_after_upkeep (calls_onlyIf (quiet (calls_deleteUnreferencedBlobs _ _))) hv₂
        (fun _ => hv₂) fun _ => ?_
      exact judging_after_upkeep (calls_onlyIf (quiet (calls_purgeSymbols _))) hv₂ (fun _ => hv₂)
        fun _ => hv₂

omit hpush

/-- Purged data leaves no row behind. -/
theorem judging_purgeGlobalData {k : VersionKey} (hv : v.Sound site known policies) :
    Judging T site known policies k (purgeGlobalData k)
      (fun r v' => v'.Sound site known policies ∧ (r = .ok () → v'.package = none)) v := by
  have quiet {x : Op Unit} (hx : x.run.Calls (Call.quiet k)) : x.run.Calls (Call.upkeep k) :=
    hx.mono fun _ => Call.upkeep_of_quiet
  have failed (e : Error) : v.Sound site known policies ∧
      ((.error e : Except Error Unit) = .ok () → v.package = none) := ⟨hv, by simp⟩
  refine judging_after_upkeep (quiet (calls_purgeSymbols k)) hv failed fun _ => ?_
  refine judging_after_upkeep (quiet (calls_purgeFileBlobs k)) hv failed fun _ => ?_
  refine judging_after_upkeep (calls_file rfl) hv failed fun _ => ?_
  refine ensures_bind fun r v' h => ?_
  have hv' := hv.withdraws (Records.withdraws h rfl)
  refine ⟨hv', ?_⟩
  rcases h.query with ⟨e, rfl, rfl⟩ | ⟨db, rfl, rfl, rfl⟩
  · exact failed e
  · refine ⟨hv', fun _ => ?_⟩
    simp [DbCall.run, Database.verdicts, Database.row_packages_deletePackageData]

theorem judging_dropRemains {k : VersionKey} (existing : Option (PackageAt k))
    (hv : v.Sound site known policies) (hrow : v.package = existing.map Subtype.val) :
    Judging T site known policies k (dropRemains k existing)
      (fun r v' => v'.Sound site known policies ∧ (r = .ok none → v'.package = none) ∧
        ∀ p, r = .ok (some p) → v' = v ∧ v.package = some p.1) v := by
  cases existing with
  | none => exact ⟨hv, fun _ => hrow, by simp⟩
  | some existing =>
    refine ensures_bind fun r v' h => ?_
    obtain ⟨rfl, ⟨e, rfl⟩ | ⟨n, rfl, -⟩⟩ := Records.feedCount h
    · exact ⟨hv, hv, (by simp), by simp⟩
    refine ⟨hv, ?_⟩
    change Judging T site known policies k (if n = 0 then _ else _) _ v'
    split_ifs
    · refine ensures_bind ((judging_purgeGlobalData hv).mono fun r v₂ h => ?_)
      cases r with
      | error e => exact ⟨h.1, (by simp), by simp⟩
      | ok _ => exact ⟨h.1, fun _ => h.2 rfl, by simp⟩
    · refine ⟨hv, (by simp), fun p hp => ⟨rfl, ?_⟩⟩
      rw [hrow, Option.map_some, Option.some.inj (Except.ok.inj hp)]

theorem judging_dropStray {k : VersionKey} (existing : Option (PackageAt k))
    (previous : Option Membership) (hv : v.Sound site known policies) :
    Judging T site known policies k (dropStray feed k existing previous)
      (fun r v' => v'.Sound site known policies ∧ (v.package = none → v'.package = none) ∧
        (existing.isSome → v' = v ∧ r = .ok previous)) v := by
  unfold dropStray
  split_ifs with hstray
  · obtain ⟨hnone, -⟩ := Bool.and_eq_true_iff.mp hstray
    have hnone : existing = none := by simpa using hnone
    refine ensures_bind fun r v' h => ?_
    have hwithdraws := Records.withdraws h rfl
    have hpost : v'.Sound site known policies ∧ (v.package = none → v'.package = none) := by
      refine ⟨hv.withdraws hwithdraws, fun hp => ?_⟩
      by_contra hsome
      obtain ⟨p, hp'⟩ := Option.ne_none_iff_exists'.mp hsome
      simp [hwithdraws.package p hp'] at hp
    refine ⟨hpost.1, ?_⟩
    cases r with
    | error e => exact ⟨hpost.1, hpost.2, fun h => by simp [hnone] at h⟩
    | ok _ => exact ⟨hpost.1, hpost.2, fun h => by simp [hnone] at h⟩
  · exact ⟨hv, fun h => h, fun _ => ⟨rfl, rfl⟩⟩

include hpush

theorem keeps_indexLocked :
    KeepsSlice (fun s : Store T => s.db.verdicts incoming.package.key)
      (fun v => v.Sound site known policies) (indexLocked site feed incoming options) := by
  intro v hv
  refine ensures_bind fun r v₁ h => ?_
  obtain ⟨rfl, ⟨e, rfl⟩ | ⟨existing, rfl, hrow⟩⟩ := Records.getPackageData h
  · exact ⟨hv, hv⟩
  refine ⟨hv, ensures_bind fun r v₂ h => ?_⟩
  obtain ⟨rfl, ⟨e, rfl⟩ | ⟨previous, rfl, hprevious⟩⟩ := Records.getMembership h
  · exact ⟨hv, hv⟩
  refine ⟨hv, ensures_bind ((judging_dropRemains existing hv hrow).mono ?_)⟩
  rintro r v₃ ⟨hv₃, hnone, hsome⟩
  cases r with
  | error e => exact hv₃
  | ok existing =>
  refine ensures_bind ((judging_dropStray feed existing previous hv₃).mono ?_)
  rintro r v₄ ⟨hv₄, hnone₄, hsame⟩
  cases r with
  | error e => exact hv₄
  | ok previous' =>
  cases existing with
  | none => exact judging_indexNew feed incoming options hpush hv₄ (hnone₄ (hnone rfl))
  | some existing =>
    obtain ⟨rfl, hprevious'⟩ := hsame rfl
    obtain ⟨rfl, hrow⟩ := hsome existing rfl
    cases Except.ok.inj hprevious'
    refine judging_after_upkeep (calls_call trivial) hv (fun _ => hv) fun present => ?_
    cases previous with
    | none => exact judging_indexJoin feed incoming options hpush existing present hv hrow
    | some previous =>
      exact judging_indexOverwrite feed incoming options hpush existing previous present hv hrow
        (by simp [hprevious])

end Index

section Others

variable {T : Type} [DecidableEq T] {site : Site} {known : Content → Prop}
variable {policies : FeedName → Option LicensePolicyConfig} {k : VersionKey}

theorem withdraws_purgeLocked (feed : FeedName) :
    (purgeLocked feed k).run.Calls (Call.withdraws k) := by
  refine calls_bind (calls_query rfl) fun removed => calls_bind (calls_query trivial) fun _ => ?_
  refine calls_bind (calls_onlyIf ?_) fun _ => calls_pure _
  exact (calls_purgeGlobalData k).mono fun _ => Call.withdraws_of_purges

theorem withdraws_purgePlannedLocked (feed : FeedName) :
    (purgePlannedLocked feed k).run.Calls (Call.withdraws k) := by
  refine calls_bind (calls_query rfl) fun m => ?_
  cases m with
  | none => exact calls_pure _
  | some m =>
    dsimp only
    split_ifs
    · exact calls_pure _
    · exact withdraws_purgeLocked feed

theorem withdraws_sweepLocked : (sweepLocked k).run.Calls (Call.withdraws k) := by
  refine calls_bind (calls_attempt (calls_query trivial)) fun holders => ?_
  split
  · refine calls_bind (calls_unwrapOr (calls_query trivial)) fun still => calls_onlyIf ?_
    exact (calls_purgeGlobalData k).mono fun _ => Call.withdraws_of_purges
  · exact calls_pure _

theorem keeps_transferLocked (source : FeedName) (target : FeedMeta) (mode : Transfer)
    (htarget : policies target.name = some target.licensePolicy) :
    KeepsSlice (fun s : Store T => s.db.verdicts k) (fun v => v.Sound site known policies)
      (transferLocked source target k mode) := by
  intro v hv
  refine ensures_bind fun r v₁ h => ?_
  obtain ⟨rfl, ⟨e, rfl⟩ | ⟨package, rfl, hrow⟩⟩ := Records.getPackageData h
  · exact ⟨hv, hv⟩
  refine ⟨hv, ?_⟩
  cases package with
  | none => exact hv
  | some package =>
  refine ensures_bind (ensures_onlyIf (fun _ => hv) fun hallowed => ?_)
  refine ensures_bind fun r v₂ h => ?_
  obtain ⟨rfl, ⟨e, rfl⟩ | ⟨here, rfl, -⟩⟩ := Records.getMembership h
  · exact ⟨hv, hv⟩
  refine ⟨hv, ?_⟩
  cases here with
  | none => exact hv
  | some here =>
  refine judging_after_upkeep (calls_query trivial) hv (fun _ => hv) fun stored => ?_
  refine ensures_bind (ensures_onlyIf (fun _ => hv) fun _ => ?_)
  have added : Judging T site known policies k
      (addToTarget target.name k (transferredMembership target mode
        (evaluateLicense target.licensePolicy package.1) here))
      (fun _ v => v.Sound site known policies) v₂ := by
    refine ensures_bind (ensures_attempt fun r v₃ h => ?_)
    have hv₃ : v₃.Sound site known policies := by
      rcases h.addMembership with rfl | ⟨p, hp, rfl⟩
      · exact hv
      · refine hv.join hp fun policy hpolicy => ?_
        obtain rfl : target.licensePolicy = policy := by simpa [htarget] using hpolicy
        obtain rfl : p = package.1 := Option.some.inj (hp.symm.trans hrow)
        exact ⟨by simpa using hallowed, rfl⟩
    refine ⟨hv₃, ?_⟩
    cases r with
    | ok _ => exact hv₃
    | error e => cases e <;> exact hv₃
  refine ensures_bind (added.mono fun r v₃ hv₃ => ?_)
  cases r with
  | error e => exact hv₃
  | ok arrival =>
    have removal : (do
        let _ ← query (.removeMembershipForGood source k) : Op Unit).run.Calls
          (Call.withdraws k) := calls_bind (calls_query rfl) fun _ => calls_pure _
    exact keeps_withdraws (calls_bind (calls_onlyIf removal) fun _ => calls_pure _) _ hv₃

end Others

section Runs

variable {T : Type} [DecidableEq T] {site : Site} {ops : T → Operation} {s : Store T}
variable {c : Config T Call Call.Answer Bool (Store T)} {known : Content → Prop}
variable {policies : FeedName → Option LicensePolicyConfig}

/-- What an operation knows of the feeds' policies is what is configured. -/
structure Operation.Configured (known : Content → Prop)
    (policies : FeedName → Option LicensePolicyConfig) (op : Operation) : Prop where
  known : ∀ f b o, op.indexes f b o → known b
  own : ∀ f b o, op.indexes f b o → policies f = some o.licensePolicy
  others : ∀ f b o, op.indexes f b o → o.overwrite = .pendingOnly →
    ∀ g, g ≠ f → o.otherLicensePolicies.lookup g = policies g
  target : ∀ target, op.transfersTo target → policies target.name = some target.licensePolicy

theorem sections_judge {op : Operation} (hop : op.Configured known policies)
    (hknown : site.Distinguishes known) (k : VersionKey) :
    SectionsKeep site op.indexes op.transfersTo k (fun s : Store T => s.db.verdicts k)
      fun v => v.Sound site known policies where
  purge feed := keeps_withdraws (withdraws_purgeLocked feed)
  planned feed := keeps_withdraws (withdraws_purgePlannedLocked feed)
  sweep := keeps_withdraws withdraws_sweepLocked
  index feed bytes options incoming hindexes haccept hk := by
    subst hk
    refine keeps_indexLocked feed incoming options ⟨hknown, ?_, fun policy hpolicy => ?_, ?_⟩
    · exact accept_builds (hop.known feed bytes options hindexes) haccept
    · obtain rfl : options.licensePolicy = policy :=
        Option.some.inj ((hop.own feed bytes options hindexes).symm.trans hpolicy)
      exact accept_judges haccept
    · exact hop.others feed bytes options hindexes
  approves hc h hv := hv.withdraws (Records.approves h hc)
  transfer source target mode htarget :=
    keeps_transferLocked source target mode (hop.target target htarget)

/-- In every state of every run, each configured feed's policy allows the row of
what the feed holds, and has set the flag it is held under. -/
theorem license_policies_hold (hops : ∀ t, (ops t).Configured known policies)
    (hknown : site.Distinguishes known) (hstart : ∀ k, (s.db.verdicts k).Sound site known policies)
    (h : (server T).Reaches (fun _ _ _ => True) (serving site s ops) c) {f : FeedName}
    {k : VersionKey} {m : Membership} {policy : LicensePolicyConfig}
    (hf : policies f = some policy) (hm : c.world.state.db.feedPackages.row (f, k) = some m) :
    ∃ p, c.world.state.db.packages.row k = some p ∧ (evaluateLicense policy p).allowed = true ∧
      m.flagged = (evaluateLicense policy p).violation.isSome := by
  have sound := slice_of_reaches guarded_verdicts
    (fun t => sections_judge (hops t) hknown k) (hstart k) h
  exact sound.judged f policy m.flagged hf (by simp [Database.verdicts, hm])

end Runs

/-- A policy that flags what declares no license. -/
def sampleWarning : LicensePolicyConfig := ⟨true, [], [], false, .warn⟩

def samplePolicies (f : FeedName) : Option LicensePolicyConfig :=
  if f = "a" then some default else if f = "b" then some sampleWarning else none

/-- Both feeds take the first build in, and feed `a` gives both the second one. -/
def sampleJudged : Fin 3 → Operation
  | 0 => .push "a" [1] (sampleOptions [("b", sampleWarning)]) []
  | 1 => .push "b" [1] { sampleOptions [("a", default)] with licensePolicy := sampleWarning } []
  | 2 => .push "a" [2] (sampleOptions [("b", sampleWarning)]) []

theorem sampleJudged_configured (t : Fin 3) :
    (sampleJudged t).Configured (fun b => b = [1] ∨ b = [2]) samplePolicies := by
  have others (f g : FeedName) (policy : LicensePolicyConfig)
      (h : ∀ g', g' ≠ f → samplePolicies g' = if g' = g then some policy else none) :
      ∀ g', g' ≠ f → [(g, policy)].lookup g' = samplePolicies g' := by
    intro g' hg'
    rw [h g' hg']
    by_cases hg : g' = g
    · simp [hg]
    · have hbeq : (g' == g) = false := by simpa using hg
      simp [List.lookup_cons, hbeq, hg]
  have fromA : ∀ g, g ≠ "a" → samplePolicies g = if g = "b" then some sampleWarning else none :=
    fun g hg => by simp [samplePolicies, hg]
  have fromB : ∀ g, g ≠ "b" → samplePolicies g = if g = "a" then some default else none :=
    fun g hg => by simp [samplePolicies, hg]
  obtain rfl | rfl | rfl : t = 0 ∨ t = 1 ∨ t = 2 := by omega
  all_goals
    refine ⟨?_, ?_, ?_, fun _ h => h.elim⟩
    · rintro f b o ⟨-, rfl, -⟩
      simp
    · rintro f b o ⟨rfl, -, rfl⟩
      rfl
    · rintro f b o ⟨rfl, -, rfl⟩ -
      first | exact others _ _ _ fromA | exact others _ _ _ fromB

/-- Feed `b` holds the second build, flagged by its own policy. -/
theorem license_policies_hold_sample :
    ∃ c m p, (server (Fin 3)).run (serving sampleSite (Store.empty _) sampleJudged)
        (calls 0 9 ++ calls 1 9 ++ calls 2 17) = some c ∧
      c.world.state.db.feedPackages.row ("b", sampleKey) = some m ∧ m.flagged = true ∧
      c.world.state.db.packages.row sampleKey = some p ∧ p.packageHash = "second" ∧
      (evaluateLicense sampleWarning p).violation.isSome = true := by
  have final : ((server (Fin 3)).run (serving sampleSite (Store.empty _) sampleJudged)
      (calls 0 9 ++ calls 1 9 ++ calls 2 17)).map (fun c =>
        (c.world.state.db.feedPackages.row ("b", sampleKey)).map Membership.flagged) =
      some (some true) := by decide +kernel
  have row : ((server (Fin 3)).run (serving sampleSite (Store.empty _) sampleJudged)
      (calls 0 9 ++ calls 1 9 ++ calls 2 17)).map (fun c =>
        (c.world.state.db.packages.row sampleKey).map Package.packageHash) =
      some (some "second") := by decide +kernel
  obtain ⟨c, hrun, hmember⟩ := Option.map_eq_some_iff.mp final
  obtain ⟨m, hm, hflagged⟩ := Option.map_eq_some_iff.mp hmember
  obtain ⟨p, hp, -, hflag⟩ := license_policies_hold sampleJudged_configured
    (by rintro b b' (rfl | rfl) (rfl | rfl) h <;> first | rfl | simp [sampleSite] at h)
    (fun k => ⟨fun p hp => by simp [Database.verdicts, Store.empty, Database.empty] at hp,
      fun f policy b _ hb => by simp [Database.verdicts, Store.empty, Database.empty] at hb⟩)
    (Machine.Reaches.of_run hrun) (rfl : samplePolicies "b" = some sampleWarning) hm
  rw [hrun, Option.map_some, hp] at row
  refine ⟨c, m, p, hrun, hm, hflagged, hp, by simpa using row, ?_⟩
  rw [← hflag, hflagged]

end YaNuget
