import YaNuget.Operations.SharedRuns

/-!
# The rows of a version describe its payload

Every run keeps payload and package row in agreement whenever the version's
lock is free, unless an overwrite fails at a moment when it can no longer undo
what it stored. The sample run shows such a moment.
-/
namespace YaNuget

open Concurrency Machine

/-- A feed that holds version `k` has a package row and a payload for it, and
the payload's SHA-512 is the row's hash. -/
def Store.Described {T : Type} (s : Store T) (sha512 : Content → Digest) (k : VersionKey) : Prop :=
  ∀ f m, s.db.feedPackages.row (f, k) = some m →
    ∃ p b, s.db.packages.row k = some p ∧ s.storage.payload k = some b ∧ sha512 b = p.packageHash

theorem Store.described_empty (T : Type) (sha512 : Content → Digest) (k : VersionKey) :
    (Store.empty T).Described sha512 k := by
  intro f m hm
  simp [Store.empty, Database.empty] at hm

section Runs

variable {T : Type} [DecidableEq T]

theorem agrees_iff_described {sha512 : Content → Digest} (t : T) (k : VersionKey)
    (w : StoreWorld T) : (view t k w).Agrees sha512 ↔ w.state.Described sha512 k := by
  have member (f : FeedName) : ((view t k w).pending f).isSome ↔
      ∃ m, w.state.db.feedPackages.row (f, k) = some m := by
    simp [view, Database.pendingIn, Option.isSome_iff_exists]
  constructor
  · intro h f m hm
    obtain ⟨p, b, hp, hb, hash⟩ := h f ((member f).mpr ⟨m, hm⟩)
    exact ⟨p.1, b, (Database.getPackageData_eq_some _ _ _).mp hp, hb, hash⟩
  · intro h f hf
    obtain ⟨m, hm⟩ := (member f).mp hf
    obtain ⟨p, b, hp, hb, hash⟩ := h f m hm
    exact ⟨⟨p, w.state.db.key_of_row hp⟩, b, (Database.getPackageData_eq_some _ _ _).mpr hp, hb, hash⟩

variable {site : Site} {ops : T → Operation} {s : Store T}
variable {c : Config T Call Call.Answer Bool (Store T)}

/-- In a run without an unprotected failure, every version whose lock is free
has the payload that its row describes. -/
theorem payload_described (start : ∀ k, s.versionLock k = none → s.Described site.sha512 k)
    (h : (server T).Reaches (fun w e _ => Protected site.sha512 w e) (serving site s ops) c)
    {k : VersionKey} (free : c.world.state.versionLock k = none) :
    c.world.state.Described site.sha512 k := by
  have keeps : (shared site.sha512 True (rightsOf ops)).Keeps (server T) (serving site s ops) :=
    shared_start fun _ t k hfree => (agrees_iff_described t k _).mpr (start k hfree)
  have reached := keeps.reaches ((disciplined h).mono fun _ _ _ ha => ⟨ha.2, fun _ => ha.1⟩)
  intro f m hm
  by_cases htask : Nonempty T
  · obtain ⟨t⟩ := htask
    exact (agrees_iff_described t k _).mp (reached.1 trivial t k free) f m hm
  · cases h with
    | refl => exact start k free f m hm
    | @step _ t => exact (htask ⟨t⟩).elim

end Runs

/-! A sample: the builds of one version, each read from a one-byte archive. -/

def sampleArchive (bytes : Content) : Archive where
  id := "Lib"
  version := ⟨(1, 0, 0, 0), false⟩
  normalized := "1.0.0"
  licenseExpression := none
  licenseUrl := none
  nuspec := bytes
  readme := .ok none
  icon := .ok none

def sampleSite : Site where
  sha512 bytes := if bytes = [1] then "first" else if bytes = [2] then "second" else "other"
  readArchive bytes := .ok (sampleArchive bytes)
  filesFingerprint _ := ""
  today := "20240101"

def sampleKey : VersionKey := ⟨"lib", "1.0.0"⟩

/-- A push to a feed that replaces only what is pending. -/
def sampleOptions (otherLicensePolicies : List (FeedName × Policy.LicensePolicyConfig)) :
    IndexOptions where
  overwrite := .pendingOnly
  pending := true
  licensePolicy := default
  expect := none
  reservedElsewhere := []
  otherLicensePolicies := otherLicensePolicies
  unlisted := false
  now := 0

/-- Both feeds take the first build in, and feed `a` is sent the second one. -/
def samplePushes (bPolicy : Policy.LicensePolicyConfig) : Fin 3 → Operation
  | 0 => .push "a" [1] (sampleOptions []) []
  | 1 => .push "b" [1] (sampleOptions []) []
  | 2 => .push "a" [2] (sampleOptions [("b", bPolicy)]) []

/-- Task `t` makes its next `n` calls, and none of them fails. -/
def calls {T : Type} (t : T) (n : ℕ) : List (T × Bool) := List.replicate n (t, false)

/-- The call failed, as a test. -/
def Call.fails : (c : Call) → c.Answer → Bool
  | .db _, r => !r.isOk
  | .storage _, r => !r.isOk
  | _, _ => false

theorem Call.fails_of_failed {c : Call} {r : c.Answer} (h : c.failed r) : c.fails r = true := by
  cases c with
  | db q =>
    obtain ⟨e, rfl⟩ := h
    rfl
  | storage q =>
    obtain ⟨e, rfl⟩ := h
    rfl
  | _ => exact h.elim

theorem protected_of_not_fails {T : Type} [DecidableEq T] {sha512 : Content → Digest}
    {w : StoreWorld T} {e : StoreEvent T} (h : (!e.call.fails e.answer) = true) :
    Protected sha512 w e where
  swap _ _ hfailed := by simp [Call.fails_of_failed hfailed] at h
  putBack _ _ _ hfailed := by simp [Call.fails_of_failed hfailed] at h

/-- Where nothing fails, the second build replaces the first one. -/
theorem payload_described_sample :
    ∃ c, (server (Fin 3)).run (serving sampleSite (Store.empty _) (samplePushes default))
        (calls 0 9 ++ calls 1 9 ++ calls 2 17) = some c ∧
      c.world.state.storage.payload sampleKey = some [2] ∧
      c.world.state.Described sampleSite.sha512 sampleKey := by
  obtain ⟨c, hrun, hreach⟩ := Reaches.of_runs (fun _ _ _ => protected_of_not_fails)
    (show (server (Fin 3)).runs (fun _ e _ => !e.call.fails e.answer)
      (serving sampleSite (Store.empty _) (samplePushes default))
      (calls 0 9 ++ calls 1 9 ++ calls 2 17) = true by decide +kernel)
  have final : ((server (Fin 3)).run (serving sampleSite (Store.empty _) (samplePushes default))
      (calls 0 9 ++ calls 1 9 ++ calls 2 17)).map (fun c =>
        (c.world.state.storage.payload sampleKey, c.world.state.versionLock sampleKey)) =
      some (some [2], none) := by decide +kernel
  simp only [hrun, Option.map_some, Option.some.injEq, Prod.mk.injEq] at final
  exact ⟨c, hrun, final.1,
    payload_described (fun k _ => Store.described_empty _ _ k) hreach final.2⟩

/-- The call makes a hard link, or puts back what was kept aside. -/
def Call.undoes : Call → Bool
  | .storage (.hardLink _) | .storage (.storePackage _ (.previous _)) => true
  | _ => false

/-- One call fails, the look at the payload to be kept aside, and the policy of
feed `b` refuses the new build after its payload is stored: the row still
describes the first build. -/
theorem payload_not_described :
    ∃ c, (server (Fin 3)).Reaches
        (fun _ e _ => e.call.undoes = true → e.call.fails e.answer = false)
        (serving sampleSite (Store.empty _) (samplePushes ⟨true, ["MIT"], [], false, .block⟩)) c ∧
      (c.world.past.map Event.choice).count true = 1 ∧
      c.world.state.versionLock sampleKey = none ∧
      ¬ c.world.state.Described sampleSite.sha512 sampleKey := by
  let start := serving sampleSite (Store.empty (Fin 3))
    (samplePushes ⟨true, ["MIT"], [], false, .block⟩)
  let schedule : List (Fin 3 × Bool) :=
    calls 0 9 ++ calls 1 9 ++ calls 2 7 ++ [(2, true)] ++ calls 2 6
  have passed : (server (Fin 3)).runs (fun _ e _ => !e.call.undoes || !e.call.fails e.answer)
      start schedule = true := by decide +kernel
  obtain ⟨c, hrun, hreach⟩ : ∃ c, (server (Fin 3)).run start schedule = some c ∧
      (server (Fin 3)).Reaches
        (fun _ e _ => e.call.undoes = true → e.call.fails e.answer = false) start c :=
    Reaches.of_runs (fun _ _ _ h hundoes => by simpa [hundoes] using h) passed
  have final : ((server (Fin 3)).run start schedule).map (fun c =>
      ((c.world.past.map Event.choice).count true, c.world.state.versionLock sampleKey,
        (c.world.state.db.feedPackages.row ("a", sampleKey)).isSome,
        (c.world.state.db.packages.row sampleKey).map Package.packageHash,
        (c.world.state.storage.payload sampleKey).map sampleSite.sha512)) =
      some (1, none, true, some "first", some "second") := by decide +kernel
  simp only [hrun, Option.map_some, Option.some.injEq, Prod.mk.injEq] at final
  obtain ⟨hfailures, hfree, hmember, hhash, hpayload⟩ := final
  refine ⟨c, hreach, hfailures, hfree, fun described => ?_⟩
  obtain ⟨m, hm⟩ := Option.isSome_iff_exists.mp hmember
  obtain ⟨p, b, hp, hb, hash⟩ := described "a" m hm
  simp_all

end YaNuget
