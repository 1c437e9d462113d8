import YaNuget.Operations.SharedBuild

/-!
# Every operation keeps the shared build

The sections of the operations, each followed on the view of its version: they
replace the build only within their rights, and leave rows that describe the
payload behind. An overwrite is the hard case, because it has to undo the
payload it stored when a later step fails.
-/
namespace YaNuget

open Concurrency Op Fallible

section Follows

variable (T : Type) [DecidableEq T] (sha512 : Content → Digest) (careful : Prop)
variable (rights : FeedName → OverwriteMode → Prop) {k : VersionKey} {α β : Type}

/-- Run by the holder of the lock, `x` keeps to its rights and ends in `Q`. -/
abbrev Follows (x : Op α) (Q : Except Error α → View k → Prop) (v : View k) : Prop :=
  x.run.Ensures (Step T sha512 careful) (fun v v' => v.Permitted v' rights) Q v

/-- The rows describe the payload, as far as the run is careful. -/
def View.Sound (v : View k) : Prop := careful → v.Agrees sha512

variable {T sha512 careful rights}

theorem follows_query {q : DbCall} {Q : Except Error q.Answer → View k → Prop} {v : View k}
    (h : ∀ r v', Step T sha512 careful v (.db q) r v' → v.Permitted v' rights ∧ Q r v') :
    Follows T sha512 careful rights (query q) Q v := h

theorem follows_file {c : StorageCall} {Q : Except Error c.Answer → View k → Prop} {v : View k}
    (h : ∀ r v', Step T sha512 careful v (.storage c) r v' → v.Permitted v' rights ∧ Q r v') :
    Follows T sha512 careful rights (file c) Q v := h

theorem follows_throw {e : Error} {Q : Except Error α → View k → Prop} {v : View k}
    (h : Q (.error e) v) : Follows T sha512 careful rights (throw e) Q v := h

theorem follows_onlyIf {p : Prop} [Decidable p] {x : Op Unit} {Q : Except Error Unit → View k → Prop}
    {v : View k} (h : p → Follows T sha512 careful rights x Q v) (h' : ¬ p → Q (.ok ()) v) :
    Follows T sha512 careful rights (onlyIf p x) Q v := by
  unfold onlyIf
  split_ifs with hp
  · exact h hp
  · exact h' hp

theorem follows_ignore {x : Op α} {Q : Except Error Unit → View k → Prop} {v : View k}
    (h : Follows T sha512 careful rights x (fun _ v => Q (.ok ()) v) v) :
    Follows T sha512 careful rights (ignore x) Q v :=
  ensures_bind (ensures_attempt h)

theorem Step.quiet {v v' : View k} {c : Call} {r : c.Answer} (h : Step T sha512 careful v c r v')
    (hc : c.quiet k) : v' = v := by
  refine h.frame ?_ ?_
  · cases c with
    | db q => cases q <;> simp_all [Call.quiet, Call.touches, DbCall.reads]
    | storage s => cases s <;> simp_all [Call.quiet, Call.touches]
    | _ => simp_all [Call.quiet, Call.touches]
  · cases c with
    | storage s => cases s <;> simp_all [Call.quiet, Call.silent]
    | _ => simp_all [Call.quiet, Call.silent]

theorem follows_quiet {x : Op α} {v : View k} (h : x.run.Calls (Call.quiet k)) :
    Follows T sha512 careful rights x (fun _ v' => v' = v) v := by
  refine Program.Ensures.of_calls h (fun c hc v₁ r v₂ hv hstep => ?_) rfl
  rw [hstep.quiet hc]
  exact ⟨View.Permitted.refl _ _, hv⟩

theorem follows_after_quiet {x : Op α} {f : α → Op β} {Q : Except Error β → View k → Prop}
    {v : View k} (hx : x.run.Calls (Call.quiet k)) (herr : ∀ e, Q (.error e) v)
    (h : ∀ a, Follows T sha512 careful rights (f a) Q v) :
    Follows T sha512 careful rights (x >>= f) Q v := by
  refine ensures_bind ((follows_quiet hx).mono fun r v' hv => ?_)
  subst hv
  cases r with
  | ok a => exact h a
  | error e => exact herr e

end Follows

section Files

variable {T : Type} [DecidableEq T] {sha512 : Content → Digest} {careful : Prop}
variable {rights : FeedName → OverwriteMode → Prop} {k : VersionKey} {v : View k}

theorem follows_storeAux (kind : AuxFile) (bytes : Content) :
    Follows T sha512 careful rights (file (.storeAux k kind bytes))
      (fun r v' => v' = v ∧ (∀ e, r = .error e → careful → ¬ v.Exposed sha512)) v := by
  refine follows_file fun r v' h => ?_
  obtain rfl := h.frame (fun hk => hk) trivial
  exact ⟨View.Permitted.refl _ _, rfl, fun e he => h.not_exposed rfl ⟨e, he⟩⟩

theorem follows_storeSidecars (s : Sidecars) :
    Follows T sha512 careful rights (storeSidecars k s)
      (fun r v' => v' = v ∧ (∀ e, r = .error e → careful → ¬ v.Exposed sha512)) v := by
  have optional (kind : AuxFile) (x : Option Content) :
      Follows T sha512 careful rights (x.forM fun bytes => file (.storeAux k kind bytes))
        (fun r v' => v' = v ∧ (∀ e, r = .error e → careful → ¬ v.Exposed sha512)) v := by
    cases x with
    | some bytes => exact follows_storeAux kind bytes
    | none => exact ⟨rfl, by simp⟩
  refine ensures_bind ((follows_storeAux _ _).mono fun r v' h => ?_)
  obtain ⟨rfl, h⟩ := h
  cases r with
  | error e => exact ⟨rfl, fun _ _ => h e rfl⟩
  | ok _ =>
    refine ensures_bind ((optional _ _).mono fun r v'' h => ?_)
    obtain ⟨rfl, h⟩ := h
    cases r with
    | error e => exact ⟨rfl, fun _ _ => h e rfl⟩
    | ok _ => exact optional _ _

/-- The payload is in place afterwards, unless storing it failed. -/
theorem follows_storePayload (bytes : Content) (s : Sidecars)
    (hp : v.Permitted { v with payload := some bytes } rights) :
    Follows T sha512 careful rights (storePayload k bytes s)
      (fun r v' => v' = { v with payload := some bytes } ∨ v' = v ∧ ∃ e, r = .error e) v := by
  refine ensures_bind (follows_file fun r v' h => ?_)
  rcases h.storePackage with ⟨e, rfl, rfl, -⟩ | ⟨rfl, rfl⟩
  · exact ⟨View.Permitted.refl _ _, Or.inr ⟨rfl, e, rfl⟩⟩
  · exact ⟨hp, (follows_storeSidecars s).mono fun r v' h => Or.inl h.1⟩

/-- What is kept aside is the payload; if nothing is, the task knows. -/
theorem follows_keepAside :
    Follows T sha512 careful rights (keepAside k)
      (fun r v' => ∃ backup, r = .ok backup ∧
        ((backup = none ∧ v' = { v with backupMissed := true }) ∨
          ∃ bytes, backup = some (.previous bytes) ∧ v.payload = some bytes ∧
            v' = { v with backupMissed := false })) v := by
  refine ensures_bind (ensures_bind (ensures_attempt (follows_file fun r v' h => ?_)))
  have keep (b : Bool) : v.Permitted { v with backupMissed := b } rights :=
    Or.inr ⟨fun _ _ h => h, fun p h => ⟨p, h, rfl⟩, rfl⟩
  rcases h.getPackage with ⟨e, rfl, rfl⟩ | ⟨rfl, rfl⟩
  · exact ⟨keep true, none, rfl, Or.inl ⟨rfl, rfl⟩⟩
  · refine ⟨keep false, ensures_bind (ensures_attempt (follows_file fun r v' h => ?_))⟩
    rcases h.hardLink with ⟨e, rfl, rfl⟩ | ⟨bytes, rfl, hb, rfl⟩
    · exact ⟨Or.inr ⟨fun _ _ h => h, fun p h => ⟨p, h, rfl⟩, rfl⟩, none, rfl, Or.inl ⟨rfl, rfl⟩⟩
    · exact ⟨Or.inr ⟨fun _ _ h => h, fun p h => ⟨p, h, rfl⟩, rfl⟩, _, rfl,
        Or.inr ⟨bytes, rfl, hb, rfl⟩⟩

/-- A kept-aside payload is in place again afterwards, in careful runs. -/
theorem follows_putBack (backup : Option TempFile) (nuspec readme icon : Option Content)
    (hp : ∀ bytes, backup = some (.previous bytes) →
      v.Permitted { v with payload := some bytes } rights)
    (hbackup : ∀ file, backup = some file → ∃ bytes, file = .previous bytes) :
    Follows T sha512 careful rights (putBack k backup nuspec readme icon)
      (fun _ v' => v' = v ∧ (careful → backup = none) ∨
        ∃ bytes, backup = some (.previous bytes) ∧ v' = { v with payload := some bytes }) v := by
  have sidecars {Q : View k → Prop} {v : View k} (h : Q v) :
      Follows T sha512 careful rights
        (nuspec.forM fun nuspec => ignore (storeSidecars k ⟨nuspec, readme, icon⟩))
        (fun _ v' => Q v') v := by
    cases nuspec with
    | none => exact h
    | some nuspec =>
      refine follows_ignore ((follows_storeSidecars _).mono fun _ v' hv => ?_)
      rw [hv.1]
      exact h
  cases backup with
  | none => exact sidecars (Or.inl ⟨rfl, fun _ => rfl⟩)
  | some file =>
    obtain ⟨bytes, rfl⟩ := hbackup file rfl
    refine ensures_bind (follows_ignore (follows_file fun r v' h => ?_))
    rcases h.storePackage with ⟨e, rfl, rfl, hcareful⟩ | ⟨rfl, rfl⟩
    · exact ⟨View.Permitted.refl _ _,
        sidecars (Or.inl ⟨rfl, fun hc => (hcareful hc bytes rfl).elim⟩)⟩
    · exact ⟨hp bytes rfl, sidecars (Or.inr ⟨bytes, rfl, rfl⟩)⟩

end Files

section Overwrite

variable {T : Type} [DecidableEq T] {sha512 : Content → Digest} {careful : Prop}
variable {rights : FeedName → OverwriteMode → Prop} {k : VersionKey} {v v' : View k}

theorem View.MayReplace.congr (h : v.MayReplace rights) (hp : v'.pending = v.pending) :
    v'.MayReplace rights := by
  unfold View.MayReplace View.Unheld View.Replaceable at *
  rw [hp]
  exact h

theorem View.Sound.of_match {p : PackageAt k} {bytes : Content} (hp : v.package = some p)
    (hb : v.payload = some bytes) (hash : sha512 bytes = p.1.packageHash) :
    v.Sound sha512 careful :=
  fun _ _ _ => ⟨p, bytes, hp, hb, hash⟩

theorem View.Sound.congr (h : v.Sound sha512 careful) (hp : v'.package = v.package)
    (hb : v'.payload = v.payload) (hm : ∀ f, (v'.pending f).isSome → ∃ g, (v.pending g).isSome) :
    v'.Sound sha512 careful := by
  intro hcareful f hf
  obtain ⟨g, hg⟩ := hm f hf
  rw [hp, hb]
  exact h hcareful g hg

def Swap.keepsFiles : Swap → Prop
  | .any => True
  | .pendingOnly dropFiles _ => dropFiles = false

theorem follows_swap (swap : Swap) (p : PackageAt k) (feed : FeedName) (m : Membership)
    (hp : v.MayReplace rights ∨
      (∀ q, v.package = some q → p.1.packageHash = q.1.packageHash) ∧ swap.keepsFiles) :
    Follows T sha512 careful rights (swap.replace p.1 feed m)
      (fun r v' => (∃ e, r = .error e) ∧ v' = v ∧ (careful → ¬ v.Exposed sha512) ∨
        (∃ dropped, r = .ok dropped) ∧ v.Writes (some p) feed (some m.pending) v') v := by
  have permitted {v' : View k} (hw : v.Writes (some p) feed (some m.pending) v')
      (hfiles : swap.keepsFiles → v'.files = v.files) : v.Permitted v' rights := by
    rcases hp with hp | ⟨hash, hkeeps⟩
    · exact Or.inl hp
    · refine Or.inr ⟨fun _ b hb => by rw [hw.payload, hb], fun q hq => ?_, hfiles hkeeps⟩
      exact ⟨p, hw.package, hash q hq⟩
  cases swap with
  | any =>
    refine ensures_bind (follows_query fun r v' h => ?_)
    rcases h.replaceVersion with ⟨e, rfl, rfl⟩ | ⟨rfl, hfiles, hw⟩
    · exact ⟨View.Permitted.refl _ _, Or.inl ⟨⟨e, rfl⟩, rfl, h.not_exposed p.2 ⟨e, rfl⟩⟩⟩
    · exact ⟨permitted hw fun _ => hfiles, Or.inr ⟨⟨_, rfl⟩, hw⟩⟩
  | pendingOnly dropFiles others =>
    refine follows_query fun r v' h => ?_
    rcases h.replacePendingVersion with ⟨e, rfl, rfl⟩ | ⟨⟨dropped, rfl⟩, -, hfiles, hw⟩
    · exact ⟨View.Permitted.refl _ _, Or.inl ⟨⟨e, rfl⟩, rfl, h.not_exposed p.2 ⟨e, rfl⟩⟩⟩
    · exact ⟨permitted hw hfiles, Or.inr ⟨⟨dropped, rfl⟩, hw⟩⟩

/-- The overwrite may store its payload: it has the right to replace the build,
or brings the content of a payload that is missing, or was not seen. -/
def View.MayOverwrite (rights : FeedName → OverwriteMode → Prop) (v : View k)
    (existing p : Package) (swap : Swap) : Prop :=
  v.MayReplace rights ∨ existing.packageHash = p.packageHash ∧
    (v.payload = none ∨ v.lookMissed = true) ∧ swap.keepsFiles

theorem View.MayOverwrite.permitted {existing p : Package} {swap : Swap}
    (hmay : v.MayOverwrite rights existing p swap) (payload : Option Content) :
    v.Permitted { v with payload := payload } rights := by
  rcases hmay with hmay | ⟨-, hnone | hlook, -⟩
  · exact Or.inl hmay
  · exact Or.inr ⟨fun _ b hb => by simp [hnone] at hb, fun q hq => ⟨q, hq, rfl⟩, rfl⟩
  · exact Or.inr ⟨fun h => by simp [hlook] at h, fun q hq => ⟨q, hq, rfl⟩, rfl⟩

/-- The steps after the payload is stored write the rows, or change nothing. -/
theorem follows_storeAndSwap (feed : FeedName) (p : Package) {existing : PackageAt p.key}
    (m : Membership) (sidecars : Sidecars) (swap : Swap) {v : View p.key}
    (hpackage : v.package = some existing)
    (hmay : v.MayReplace rights ∨ existing.1.packageHash = p.packageHash ∧ swap.keepsFiles) :
    Follows T sha512 careful rights (do storeSidecars p.key sidecars; swap.replace p feed m)
      (fun r v' => (∃ e, r = .error e) ∧ v' = v ∧ (careful → ¬ v.Exposed sha512) ∨
        (∃ dropped, r = .ok dropped) ∧ v.Writes (some ⟨p, rfl⟩) feed (some m.pending) v') v := by
  refine ensures_bind ((follows_storeSidecars sidecars).mono fun r v₂ h => ?_)
  obtain ⟨rfl, h⟩ := h
  cases r with
  | error e => exact Or.inl ⟨⟨e, rfl⟩, rfl, h e rfl⟩
  | ok _ =>
    refine follows_swap swap ⟨p, rfl⟩ feed m (hmay.imp_right fun ⟨hsame, hkeeps⟩ => ?_)
    refine ⟨fun q hq => ?_, hkeeps⟩
    rw [← Option.some.inj (hpackage.symm.trans hq)]
    exact hsame.symm

/-- Putting the previous build back leaves the version as it was, or with the new payload if that
is the one on record. -/
theorem follows_putBackStored {existing : PackageAt k} {p : Package} {swap : Swap}
    {backup : Option TempFile} {bytes : Content} (oldNuspec oldReadme oldIcon : Option Content)
    (hsound : v.Sound sha512 careful) (hpackage : v.package = some existing)
    (hmay : v.MayOverwrite rights existing.1 p swap) (hmissed : backup = none → v.backupMissed = true)
    (hkept : ∀ file, backup = some file → ∃ old, file = .previous old ∧ v.payload = some old)
    (hexposed : careful → ¬ ({ v with payload := some bytes } : View k).Exposed sha512) :
    Follows T sha512 careful rights (putBack k backup oldNuspec oldReadme oldIcon)
      (fun _ v' => v'.Sound sha512 careful) { v with payload := some bytes } := by
  refine (follows_putBack backup oldNuspec oldReadme oldIcon ?_ ?_).mono ?_
  · intro old hold
    obtain ⟨old', hfile, hpayload⟩ := hkept _ hold
    cases hfile
    rcases hmay with hmay | ⟨-, hnone | hlook, -⟩
    · exact Or.inl (hmay.congr rfl)
    · simp [hnone] at hpayload
    · exact Or.inr ⟨fun h => by simp [hlook] at h, fun q hq => ⟨q, hq, rfl⟩, rfl⟩
  · intro file hfile
    obtain ⟨old, rfl, -⟩ := hkept _ hfile
    exact ⟨old, rfl⟩
  · rintro r v₃ (⟨rfl, hnone⟩ | ⟨old, rfl, rfl⟩)
    · intro hcareful
      have hagrees := hexposed hcareful
      simp only [View.Exposed, hmissed (hnone hcareful), true_and, not_exists, not_and,
        not_not] at hagrees
      exact fun f _ => ⟨existing, bytes, hpackage, rfl, hagrees existing bytes hpackage rfl⟩
    · obtain ⟨old', hfile, hpayload⟩ := hkept _ rfl
      cases hfile
      exact hsound.congr rfl hpayload.symm fun f hf => ⟨f, hf⟩

theorem follows_overwrite (feed : FeedName) (bytes : Content) (p : Package)
    (existing : PackageAt p.key) (m : Membership) (sidecars : Sidecars) (swap : Swap)
    {v : View p.key} (hsound : v.Sound sha512 careful) (hpackage : v.package = some existing)
    (hbytes : p.packageHash = sha512 bytes)
    (hmay : v.MayOverwrite rights existing.1 p swap) :
    Follows T sha512 careful rights (overwrite feed bytes p existing.1 m sidecars swap)
      (fun _ v' => v'.Sound sha512 careful) v := by
  refine ensures_bind (follows_keepAside.mono ?_)
  rintro _ v₁ ⟨backup, rfl, hbackup⟩
  have hv₁ : v₁.Sound sha512 careful ∧ v₁.package = some existing ∧
      v₁.MayOverwrite rights existing.1 p swap ∧ (backup = none → v₁.backupMissed = true) ∧
      ∀ file, backup = some file → ∃ old, file = .previous old ∧ v₁.payload = some old := by
    rcases hbackup with ⟨rfl, rfl⟩ | ⟨old, rfl, hold, rfl⟩
    · exact ⟨hsound, hpackage, hmay, fun _ => rfl, by simp⟩
    · refine ⟨hsound, hpackage, hmay, by simp, ?_⟩
      rintro file hfile
      exact ⟨old, (Option.some.inj hfile).symm, hold⟩
  clear hsound hpackage hmay hbackup
  obtain ⟨hsound, hpackage, hmay, hmissed, hkept⟩ := hv₁
  refine follows_after_quiet (calls_readSidecar _ _ _) (fun _ => hsound) fun oldNuspec => ?_
  refine follows_after_quiet (calls_readSidecar _ _ _) (fun _ => hsound) fun oldReadme => ?_
  refine follows_after_quiet (calls_readSidecar _ _ _) (fun _ => hsound) fun oldIcon => ?_
  refine ensures_bind (follows_file fun r v₂ h => ?_)
  rcases h.storePackage with ⟨e, rfl, rfl, -⟩ | ⟨rfl, rfl⟩
  · exact ⟨View.Permitted.refl _ _, hsound⟩
  refine ⟨hmay.permitted (some bytes), ?_⟩
  have hreplace : ({ v₁ with payload := some bytes } : View p.key).MayReplace rights ∨
      existing.1.packageHash = p.packageHash ∧ swap.keepsFiles := by
    rcases hmay with hmay | ⟨hsame, -, hkeeps⟩
    · exact Or.inl (hmay.congr rfl)
    · exact Or.inr ⟨hsame, hkeeps⟩
  have hswap : Follows T sha512 careful rights _ _ { v₁ with payload := some bytes } :=
    follows_storeAndSwap feed p m sidecars swap hpackage hreplace
  refine ensures_bind (ensures_attempt (hswap.mono fun r v₂ h => ?_))
  rcases h with ⟨⟨e, rfl⟩, rfl, hexposed⟩ | ⟨⟨dropped, rfl⟩, hw⟩
  · refine ensures_bind ((follows_putBackStored oldNuspec oldReadme oldIcon hsound hpackage hmay
      hmissed hkept hexposed).mono fun r v₃ hsound₃ => ?_)
    cases r with
    | ok _ => exact hsound₃
    | error _ => exact hsound₃
  · exact View.Sound.of_match hw.package hw.payload hbytes.symm

end Overwrite

section Unheld

variable {T : Type} [DecidableEq T] {sha512 : Content → Digest} {careful : Prop}
variable {rights : FeedName → OverwriteMode → Prop} {k : VersionKey} {v v' : View k}

theorem View.Unheld.permitted (h : v.Unheld) : v.Permitted v' rights := Or.inl (Or.inl h)

theorem View.Unheld.sound (h : v.Unheld) : v.Sound sha512 careful := fun _ => h.agrees sha512

theorem View.unheld_of_package (h : v.package = none) : v.Unheld := by
  intro f
  by_contra hf
  have := v.package_of_member (Option.isSome_iff_ne_none.mpr hf)
  simp [h] at this

theorem Step.unheld {c : Call} {r : c.Answer} (h : Step T sha512 careful v c r v')
    (hc : c.purges k) (hv : v.Unheld) : v'.Unheld := by
  by_cases hframe : ¬ c.touches k ∧ c.silent k
  · rw [h.frame hframe.1 hframe.2]
    exact hv
  unfold Call.purges at hc
  split at hc
  · subst hc
    rcases h.deletePackageData with ⟨_, -, rfl⟩ | ⟨hv', -⟩
    · exact hv
    · exact hv'
  unfold Call.upkeep at hc
  split at hc
  · exact (hframe ⟨id, trivial⟩).elim
  · next q _ _ => exact (hframe ⟨by cases q <;> simp_all [Call.touches, DbCall.reads], trivial⟩).elim
  · subst hc
    rcases h.storePackage with ⟨_, -, rfl, -⟩ | ⟨-, rfl⟩
    · exact hv
    · exact hv
  · subst hc
    rcases h.getPackage with ⟨_, -, rfl⟩ | ⟨-, rfl⟩
    · exact hv
    · exact hv
  · subst hc
    rcases h.hardLink with ⟨_, -, rfl⟩ | ⟨_, -, -, rfl⟩
    · exact hv
    · exact hv
  · exact (hframe ⟨id, trivial⟩).elim
  · exact (hframe ⟨id, trivial⟩).elim
  · subst hc
    rcases h.delete with rfl | rfl
    · exact hv
    · exact hv
  · exact (hframe ⟨id, trivial⟩).elim
  · exact (hframe ⟨id, trivial⟩).elim
  · exact (hframe ⟨id, trivial⟩).elim
  · exact (hframe ⟨id, trivial⟩).elim
  · next k' _ =>
    by_cases hk : k' = k
    · subst hk
      obtain ⟨missed, rfl, -⟩ := h.packageExists
      exact hv
    · exact (hframe ⟨id, hk⟩).elim
  · exact hc.elim

theorem follows_purges {α : Type} {x : Op α} (hx : x.run.Calls (Call.purges k)) (hv : v.Unheld) :
    Follows T sha512 careful rights x (fun _ v' => v'.Unheld) v :=
  Program.Ensures.of_calls hx (fun _ hc _ _ _ hv h => ⟨hv.permitted, h.unheld hc hv⟩) hv

/-- The rest of an operation after a part of the removal of what no feed holds. -/
theorem follows_after_purges {α β : Type} {x : Op α} {f : α → Op β}
    {Q : Except Error β → View k → Prop} (hx : x.run.Calls (Call.purges k)) (hv : v.Unheld)
    (herr : ∀ e (v : View k), v.Unheld → Q (.error e) v)
    (h : ∀ a (v : View k), v.Unheld → Follows T sha512 careful rights (f a) Q v) :
    Follows T sha512 careful rights (x >>= f) Q v := by
  refine ensures_bind ((follows_purges hx hv).mono fun r v' hv' => ?_)
  cases r with
  | ok a => exact h a v' hv'
  | error e => exact herr e v' hv'

/-- Once it has gone through, there is no package row. -/
theorem follows_purgeGlobalData (hv : v.Unheld) :
    Follows T sha512 careful rights (purgeGlobalData k)
      (fun r v' => v'.Unheld ∧ (r = .ok () → v'.package = none)) v := by
  have quiet {α : Type} {x : Op α} (hx : x.run.Calls (Call.quiet k)) : x.run.Calls (Call.purges k) :=
    hx.mono fun _ hc => Call.purges_of_upkeep (Call.upkeep_of_quiet hc)
  refine follows_after_purges (quiet (calls_purgeSymbols k)) hv (fun e v hv => ?_) fun _ v hv => ?_
  · exact ⟨hv, by simp⟩
  refine follows_after_purges (quiet (calls_purgeFileBlobs k)) hv (fun e v hv => ?_) fun _ v hv => ?_
  · exact ⟨hv, by simp⟩
  refine follows_after_purges (calls_file rfl) hv (fun e v hv => ?_) fun _ v hv => ?_
  · exact ⟨hv, by simp⟩
  refine ensures_bind (follows_query fun r v' h => ⟨hv.permitted, ?_⟩)
  rcases h.deletePackageData with ⟨e, rfl, rfl⟩ | ⟨hv', hp⟩
  · exact ⟨hv, by simp⟩
  · cases r with
    | ok _ => exact ⟨hv', fun _ => hp⟩
    | error _ => exact ⟨hv', fun _ => hp⟩

end Unheld

end YaNuget
