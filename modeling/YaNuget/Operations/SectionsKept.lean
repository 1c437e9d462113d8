import YaNuget.Operations.BuildKept

/-!
# The locked sections, one by one

What each section under a version's lock does to the view of the version: the
three ways of a push, the purges, a transfer and the approvals.
-/
namespace YaNuget

open Concurrency Op Fallible

variable {T : Type} [DecidableEq T] {careful : Prop}
variable {rights : FeedName → OverwriteMode → Prop}

section Index

variable (site : Site) (feed : FeedName) (incoming : Incoming site.sha512) (options : IndexOptions)
variable {v : View incoming.package.key}

theorem follows_indexNew (hv : v.package = none) :
    Follows T site.sha512 careful rights (indexNew site feed incoming options)
      (fun _ v' => v'.Sound site.sha512 careful) v := by
  have hunheld := View.unheld_of_package hv
  refine ensures_bind ((follows_storePayload _ _ hunheld.permitted).mono fun r v₁ h => ?_)
  have hv₁ : v₁.Unheld ∧ (r = .ok () → v₁.package = none ∧ v₁.payload = some incoming.bytes) := by
    rcases h with rfl | ⟨rfl, e, rfl⟩
    · exact ⟨hunheld, fun _ => ⟨hv, rfl⟩⟩
    · exact ⟨hunheld, by simp⟩
  cases r with
  | error e => exact hv₁.1.sound
  | ok _ =>
    obtain ⟨hnone, hpayload⟩ := hv₁.2 rfl
    refine ensures_bind (ensures_attempt (follows_query fun r v₂ h => ⟨hv₁.1.permitted, ?_⟩))
    rcases Step.addVersion (p := ⟨incoming.package, rfl⟩) h with
      ⟨e, rfl, rfl⟩ | ⟨⟨inserted, rfl⟩, -, hw⟩
    · refine follows_after_purges (calls_unwrapOr (calls_query trivial)) hv₁.1
        (fun _ _ h => h.sound) fun holders v hv => ?_
      refine follows_after_purges (calls_onlyIf ?_) hv (fun _ _ h => h.sound)
        fun _ v hv => hv.sound
      exact calls_bind (calls_ignore (calls_query rfl)) fun _ => calls_ignore (calls_file rfl)
    · refine View.Sound.of_match (p := ⟨incoming.package, rfl⟩) ?_ ?_ incoming.hash_eq.symm
      · rw [hw.package, hnone]
        rfl
      · rw [hw.payload, hpayload]

theorem follows_indexJoin (existing : PackageAt incoming.package.key) (payloadPresent : Bool)
    (hsound : v.Sound site.sha512 careful) (hpackage : v.package = some existing)
    {g : FeedName} (hheld : (v.pending g).isSome)
    (hlook : payloadPresent = false → v.payload = none ∨ v.lookMissed = true) :
    Follows T site.sha512 careful rights (indexJoin site feed incoming options existing payloadPresent)
      (fun _ v' => v'.Sound site.sha512 careful) v := by
  refine ensures_bind (follows_onlyIf (fun _ => follows_throw hsound) fun hsame => ?_)
  have hash : site.sha512 incoming.bytes = existing.1.packageHash := by
    rw [← incoming.hash_eq]
    exact (not_not.mp hsame).symm
  have join {v₁ : View incoming.package.key} (hp : v₁.package = some existing)
      (hmatch : careful → ∃ b, v₁.payload = some b ∧ site.sha512 b = existing.1.packageHash) :
      Follows T site.sha512 careful rights
        (do let _ ← query (.addVersion existing.1 feed (newMembership site incoming options))
            pure (newResult site incoming options))
        (fun _ v' => v'.Sound site.sha512 careful) v₁ := by
    have hsound₁ : v₁.Sound site.sha512 careful := by
      intro hcareful f _
      obtain ⟨b, hb, hash⟩ := hmatch hcareful
      exact ⟨existing, b, hp, hb, hash⟩
    refine ensures_bind (follows_query fun r v₂ h => ?_)
    rcases Step.addVersion h with ⟨e, rfl, rfl⟩ | ⟨⟨inserted, rfl⟩, hfiles, hw⟩
    · exact ⟨View.Permitted.refl _ _, hsound₁⟩
    · have hpackage₂ : v₂.package = some existing := by
        rw [hw.package, hp]
        rfl
      refine ⟨Or.inr ⟨fun _ b hb => by rw [hw.payload, hb], fun q hq => ?_, hfiles⟩, ?_⟩
      · rw [hp] at hq
        exact ⟨existing, hpackage₂, by rw [Option.some.inj hq]⟩
      · intro hcareful f _
        obtain ⟨b, hb, hash⟩ := hmatch hcareful
        exact ⟨existing, b, hpackage₂, by rw [hw.payload, hb], hash⟩
  refine ensures_bind (follows_onlyIf (fun hmissing => ?_) fun hpresent => join hpackage ?_)
  · have hmissing := hlook (by simpa using hmissing)
    have permitted : v.Permitted { v with payload := some incoming.bytes } rights := by
      refine Or.inr ⟨fun hl b hb => ?_, fun q hq => ⟨q, hq, rfl⟩, rfl⟩
      rcases hmissing with hnone | hl'
      · simp [hnone] at hb
      · simp [hl'] at hl
    refine (follows_storePayload _ _ permitted).mono fun r v₁ h => ?_
    rcases h with rfl | ⟨rfl, e, rfl⟩
    · cases r with
      | error e => exact View.Sound.of_match hpackage rfl hash
      | ok _ => exact join hpackage fun _ => ⟨incoming.bytes, rfl, hash⟩
    · exact hsound
  · intro hcareful
    obtain ⟨p, b, hp, hb, hash⟩ := hsound hcareful g hheld
    rw [hpackage] at hp
    exact ⟨b, hb, by rw [Option.some.inj hp, hash]⟩

theorem follows_checkOverwrite (existing : Package) (previous : Membership) :
    Follows T site.sha512 careful rights (checkOverwrite site incoming options existing previous)
      (fun r v' => v' = v ∧ (r = .ok () →
        if options.overwrite = .pendingOnly then ∀ f b, v.pending f = some b → b = true
        else options.overwrite.allows incoming.package.version.isPrerelease = true)) v := by
  unfold checkOverwrite
  dsimp only
  split_ifs
  · refine ensures_bind (follows_query fun r v₁ h => ?_)
    obtain ⟨rfl, ⟨e, rfl⟩ | ⟨feeds, rfl, happroved⟩⟩ := h.approvedIn
    · exact ⟨View.Permitted.refl _ _, rfl, by simp⟩
    · refine ⟨View.Permitted.refl _ _, follows_onlyIf (fun _ => ⟨rfl, by simp⟩) ?_⟩
      exact fun hnil => ⟨rfl, fun _ => happroved.mp (by simpa using hnil)⟩
  · refine follows_onlyIf (fun _ => ⟨rfl, by simp⟩) fun hallows => ⟨rfl, fun _ => ?_⟩
    simpa using hallows

theorem follows_checkUnshared (sameContent : Bool) :
    Follows T site.sha512 careful rights (checkUnshared site incoming options sameContent)
      (fun r v' => v' = v ∧ (r = .ok () → sameContent = false →
        options.overwrite ≠ .pendingOnly →
          ∀ f g, (v.pending f).isSome → (v.pending g).isSome → f = g)) v := by
  refine follows_onlyIf (fun _ => ensures_bind (follows_query fun r v₁ h => ?_)) fun hskip => ?_
  · obtain ⟨rfl, ⟨e, rfl⟩ | ⟨n, rfl, -, hone⟩⟩ := h.feedCount
    · exact ⟨View.Permitted.refl _ _, rfl, by simp⟩
    · refine ⟨View.Permitted.refl _ _, follows_onlyIf (fun _ => ⟨rfl, by simp⟩) ?_⟩
      exact fun hle => ⟨rfl, fun _ _ _ => hone (not_lt.mp hle)⟩
  · refine ⟨rfl, fun _ hsame hmode => (hskip ?_).elim⟩
    simp [hsame, hmode]

theorem chooseSwap_keepsFiles :
    (chooseSwap site feed incoming options true).keepsFiles := by
  unfold chooseSwap
  split_ifs
  · rfl
  · trivial

theorem follows_indexOverwrite (existing : PackageAt incoming.package.key) (previous : Membership)
    (payloadPresent : Bool) (hrights : rights feed options.overwrite)
    (hsound : v.Sound site.sha512 careful) (hpackage : v.package = some existing)
    (hheld : (v.pending feed).isSome)
    (hlook : payloadPresent = false → v.payload = none ∨ v.lookMissed = true) :
    Follows T site.sha512 careful rights
      (indexOverwrite site feed incoming options existing previous payloadPresent)
      (fun _ v' => v'.Sound site.sha512 careful) v := by
  refine ensures_bind ((follows_checkOverwrite site incoming options _ _).mono fun r v₁ h => ?_)
  obtain ⟨rfl, hmode⟩ := h
  cases r with
  | error e => exact hsound
  | ok _ =>
  refine ensures_bind ((follows_checkUnshared site incoming options _).mono fun r v₁ h => ?_)
  obtain ⟨rfl, hunshared⟩ := h
  cases r with
  | error e => exact hsound
  | ok _ =>
  have hmode := hmode rfl
  have hunshared := hunshared rfl
  have hmay : existing.1.packageHash ≠ incoming.package.packageHash → v₁.MayReplace rights := by
    intro hnew
    refine Or.inr ⟨feed, options.overwrite, hrights, ?_⟩
    unfold View.Replaceable
    split_ifs with hpending
    · rwa [if_pos hpending] at hmode
    · rw [if_neg hpending] at hmode
      exact ⟨⟨_, hmode⟩, fun f hf => hunshared (by simpa using hnew) hpending f feed hf hheld⟩
  dsimp only
  split_ifs with hkeep
  · obtain ⟨hsame, -⟩ : existing.1.packageHash = incoming.package.packageHash ∧ payloadPresent = true := by
      simpa using hkeep
    refine ensures_bind ((follows_swap _ existing feed _ (Or.inr ⟨?_, ?_⟩)).mono fun r v₂ h => ?_)
    · intro q hq
      rw [hpackage] at hq
      rw [Option.some.inj hq]
    · simpa [hsame] using chooseSwap_keepsFiles site feed incoming options
    · rcases h with ⟨⟨e, rfl⟩, rfl, -⟩ | ⟨⟨dropped, rfl⟩, hw⟩
      · exact hsound
      · exact hsound.congr (by rw [hw.package, hpackage]) hw.payload fun _ _ => ⟨feed, hheld⟩
  · have hstore : v₁.MayOverwrite rights existing.1 incoming.package
        (chooseSwap site feed incoming options
          (existing.1.packageHash = incoming.package.packageHash)) := by
      by_cases hsame : existing.1.packageHash = incoming.package.packageHash
      · refine Or.inr ⟨hsame, hlook (by simpa [hsame] using hkeep), ?_⟩
        simpa [hsame] using chooseSwap_keepsFiles site feed incoming options
      · exact Or.inl (hmay hsame)
    refine ensures_bind ((follows_overwrite feed incoming.bytes incoming.package existing _
      incoming.sidecars _ hsound hpackage incoming.hash_eq hstore).mono fun r v₂ hsound₂ => ?_)
    cases r with
    | error e => exact hsound₂
    | ok dropped =>
      refine follows_after_quiet (calls_onlyIf (calls_deleteUnreferencedBlobs _ _))
        (fun _ => hsound₂) fun _ => ?_
      exact follows_after_quiet (calls_onlyIf (calls_purgeSymbols _)) (fun _ => hsound₂)
        fun _ => hsound₂

/-- What is not dropped is held by some feed. -/
theorem follows_dropRemains {k : VersionKey} {v : View k} (hsound : v.Sound site.sha512 careful) :
    Follows T site.sha512 careful rights (dropRemains k v.package)
      (fun r v' => v'.Sound site.sha512 careful ∧ (r = .ok none → v'.package = none) ∧
        ∀ existing, r = .ok (some existing) → v' = v ∧ v.package = some existing ∧
          ∃ g, (v.pending g).isSome) v := by
  cases hp : v.package with
  | none => exact ⟨hsound, fun _ => hp, by simp⟩
  | some existing =>
    refine ensures_bind (follows_query fun r v₁ h => ?_)
    obtain ⟨rfl, ⟨e, rfl⟩ | ⟨n, rfl, hzero, -⟩⟩ := h.feedCount
    · exact ⟨View.Permitted.refl _ _, hsound, by simp, by simp⟩
    refine ⟨View.Permitted.refl _ _, ?_⟩
    dsimp only
    split_ifs with hn
    · have hunheld := hzero.mp hn
      refine ensures_bind ((follows_purgeGlobalData hunheld).mono fun r v₂ h => ?_)
      cases r with
      | error e => exact ⟨h.1.sound, by simp, by simp⟩
      | ok _ => exact ⟨h.1.sound, fun _ => h.2 rfl, by simp⟩
    · refine ⟨hsound, by simp, fun q hq => ⟨rfl, Except.ok.inj hq, ?_⟩⟩
      · by_contra hnone
        exact hn (hzero.mpr fun f => by simpa using fun h => hnone ⟨f, h⟩)

/-- A membership without a package row does not survive a push. -/
theorem follows_dropStray {k : VersionKey} {v : View k} (existing : Option (PackageAt k))
    (previous : Option Membership) (hnone : existing = none → v.package = none) :
    Follows T site.sha512 careful rights (dropStray feed k existing previous)
      (fun r v' => (existing = none → v'.package = none) ∧
        ((existing.isSome → v' = v ∧ r = .ok previous) ∧ (v.Sound site.sha512 careful →
          v'.Sound site.sha512 careful))) v := by
  unfold dropStray
  split_ifs with hstray
  · obtain ⟨hex, -⟩ := (Bool.and_eq_true_iff.mp hstray)
    have hex : existing = none := by simpa using hex
    have hunheld := View.unheld_of_package (hnone hex)
    refine ensures_bind (follows_query fun r v₁ h => ⟨hunheld.permitted, ?_⟩)
    have hshrinks := h.shrinks trivial
    have hp : v₁.package = none := by rw [hshrinks.package, hnone hex]
    have hsound : v.Sound site.sha512 careful → v₁.Sound site.sha512 careful :=
      fun _ => (View.unheld_of_package hp).sound
    cases r with
    | error e => exact ⟨fun _ => hp, fun h => by simp [hex] at h, hsound⟩
    | ok _ => exact ⟨fun _ => hp, fun h => by simp [hex] at h, hsound⟩
  · exact ⟨hnone, fun _ => ⟨rfl, rfl⟩, fun h => h⟩

theorem follows_indexLocked (hrights : rights feed options.overwrite)
    (hsound : v.Sound site.sha512 careful) :
    Follows T site.sha512 careful rights (indexLocked site feed incoming options)
      (fun _ v' => v'.Sound site.sha512 careful) v := by
  refine ensures_bind (follows_query fun r v₁ h => ?_)
  obtain ⟨rfl, ⟨e, rfl⟩ | rfl⟩ := h.getPackageData
  · exact ⟨View.Permitted.refl _ _, hsound⟩
  refine ⟨View.Permitted.refl _ _, ensures_bind (follows_query fun r v₂ h => ?_)⟩
  obtain ⟨rfl, ⟨e, rfl⟩ | ⟨previous, rfl, hprevious⟩⟩ := h.getMembership
  · exact ⟨View.Permitted.refl _ _, hsound⟩
  refine ⟨View.Permitted.refl _ _, ensures_bind ((follows_dropRemains site hsound).mono ?_)⟩
  rintro r v₃ ⟨hsound₃, hnone, hsome⟩
  cases r with
  | error e => exact hsound₃
  | ok existing =>
  refine ensures_bind ((follows_dropStray site feed existing previous ?_).mono ?_)
  · rintro rfl
    exact hnone rfl
  rintro r v₄ ⟨hnone₄, hsame, hsound₄⟩
  cases r with
  | error e => exact hsound₄ hsound₃
  | ok previous' =>
  cases existing with
  | none => exact follows_indexNew site feed incoming options (hnone₄ rfl)
  | some existing =>
    obtain ⟨rfl, hprevious'⟩ := hsame rfl
    obtain ⟨rfl, hpackage, g, hg⟩ := hsome existing rfl
    cases Except.ok.inj hprevious'
    refine ensures_bind (fun present v₅ h => ?_)
    obtain ⟨missed, rfl, -, hlook⟩ := Step.packageExists h
    refine ⟨Or.inr ⟨fun _ b hb => hb, fun q hq => ⟨q, hq, rfl⟩, rfl⟩, ?_⟩
    cases previous with
    | none =>
      exact follows_indexJoin site feed incoming options existing present hsound hpackage hg hlook
    | some previous =>
      refine follows_indexOverwrite site feed incoming options existing previous present hrights
        hsound hpackage ?_ hlook
      show (v₄.pending feed).isSome
      rw [hprevious]
      rfl

end Index

section Others

variable (site : Site) (feed : FeedName) {k : VersionKey} {v : View k}

theorem View.Shrinks.permitted {v' : View k} (h : v.Shrinks v') : v.Permitted v' rights :=
  Or.inr ⟨fun _ b hb => by rw [h.payload, hb], fun q hq => ⟨q, by rw [h.package, hq], rfl⟩, h.files⟩

theorem View.Shrinks.sound {v' : View k} (h : v.Shrinks v') (hv : v.Sound sha512 careful) :
    v'.Sound sha512 careful :=
  hv.congr h.package h.payload fun f hf => ⟨f, h.pending f hf⟩

theorem follows_purgeLocked (hsound : v.Sound site.sha512 careful) :
    Follows T site.sha512 careful rights (purgeLocked feed k)
      (fun _ v' => v'.Sound site.sha512 careful) v := by
  refine ensures_bind (follows_query fun r v₁ h => ?_)
  have hshrinks := h.shrinks trivial
  refine ⟨hshrinks.permitted, ?_⟩
  have hsound₁ := hshrinks.sound hsound
  cases r with
  | error e => exact hsound₁
  | ok removed =>
    refine ensures_bind (follows_query fun r v₂ h => ?_)
    obtain ⟨rfl, ⟨e, rfl⟩ | ⟨n, rfl, hzero, -⟩⟩ := h.feedCount
    · exact ⟨View.Permitted.refl _ _, hsound₁⟩
    refine ⟨View.Permitted.refl _ _, ensures_bind (follows_onlyIf (fun hn => ?_) fun _ => hsound₁)⟩
    refine (follows_purgeGlobalData (hzero.mp hn)).mono fun r v₃ h => ?_
    cases r with
    | error e => exact h.1.sound
    | ok _ => exact h.1.sound

theorem follows_purgePlannedLocked (hsound : v.Sound site.sha512 careful) :
    Follows T site.sha512 careful rights (purgePlannedLocked feed k)
      (fun _ v' => v'.Sound site.sha512 careful) v := by
  refine ensures_bind (follows_query fun r v₁ h => ?_)
  obtain ⟨rfl, ⟨e, rfl⟩ | ⟨m, rfl, -⟩⟩ := h.getMembership
  · exact ⟨View.Permitted.refl _ _, hsound⟩
  refine ⟨View.Permitted.refl _ _, ?_⟩
  cases m with
  | none => exact hsound
  | some m =>
    dsimp only
    split_ifs
    · exact hsound
    · exact follows_purgeLocked site feed hsound

theorem follows_sweepLocked (hsound : v.Sound site.sha512 careful) :
    Follows T site.sha512 careful rights (sweepLocked k)
      (fun _ v' => v'.Sound site.sha512 careful) v := by
  refine ensures_bind (ensures_attempt (follows_query fun r v₁ h => ?_))
  obtain ⟨rfl, ⟨e, rfl⟩ | ⟨n, rfl, hzero, -⟩⟩ := h.feedCount
  · exact ⟨View.Permitted.refl _ _, hsound⟩
  refine ⟨View.Permitted.refl _ _, ?_⟩
  cases n with
  | succ n => exact hsound
  | zero =>
    refine follows_after_quiet (calls_unwrapOr (calls_query trivial)) (fun _ => hsound)
      fun still => follows_onlyIf (fun _ => ?_) fun _ => hsound
    exact (follows_purgeGlobalData (hzero.mp rfl)).mono fun _ _ h => h.1.sound

theorem follows_transferLocked (target : FeedMeta) (mode : Transfer)
    (hsound : v.Sound site.sha512 careful) :
    Follows T site.sha512 careful rights (transferLocked feed target k mode)
      (fun _ v' => v'.Sound site.sha512 careful) v := by
  refine follows_after_quiet (calls_query trivial) (fun _ => hsound) fun package => ?_
  cases package with
  | none => exact hsound
  | some package =>
  refine ensures_bind (follows_onlyIf (fun _ => hsound) fun _ => ?_)
  refine ensures_bind (follows_query fun r v₁ h => ?_)
  obtain ⟨rfl, ⟨e, rfl⟩ | ⟨here, rfl, hhere⟩⟩ := h.getMembership
  · exact ⟨View.Permitted.refl _ _, hsound⟩
  refine ⟨View.Permitted.refl _ _, ?_⟩
  cases here with
  | none => exact hsound
  | some here =>
  refine follows_after_quiet (calls_query trivial) (fun _ => hsound) fun stored => ?_
  refine ensures_bind (follows_onlyIf (fun _ => hsound) fun _ => ?_)
  have added : Follows T site.sha512 careful rights
      (addToTarget target.name k (transferredMembership target mode
        (Policy.evaluateLicense target.licensePolicy package.1) here))
      (fun _ v' => v'.Sound site.sha512 careful) v₁ := by
    refine ensures_bind (ensures_attempt (follows_query fun r v₂ h => ?_))
    have hv₂ : v₁.Permitted v₂ rights ∧ v₂.Sound site.sha512 careful := by
      rcases h.addMembership with rfl | ⟨hpayload, hpackage, hfiles⟩
      · exact ⟨View.Permitted.refl _ _, hsound⟩
      · refine ⟨Or.inr ⟨fun _ b hb => by rw [hpayload, hb],
          fun q hq => ⟨q, by rw [hpackage, hq], rfl⟩, hfiles⟩, ?_⟩
        exact hsound.congr hpackage hpayload fun _ _ => ⟨feed, by rw [hhere]; rfl⟩
    refine ⟨hv₂.1, ?_⟩
    cases r with
    | ok _ => exact hv₂.2
    | error e => cases e <;> exact hv₂.2
  refine ensures_bind (added.mono fun r v₂ hsound₂ => ?_)
  cases r with
  | error e => exact hsound₂
  | ok arrival =>
  refine ensures_bind (follows_onlyIf (fun _ => ?_) fun _ => hsound₂)
  refine ensures_bind (follows_query fun r v₃ h => ⟨(h.shrinks trivial).permitted, ?_⟩)
  have hsound₃ := (h.shrinks trivial).sound hsound₂
  cases r with
  | error e => exact hsound₃
  | ok _ => exact hsound₃

end Others

end YaNuget
