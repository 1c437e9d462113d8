import YaNuget.Operations.Server

/-!
# How operations are put together

An operation is a sequence of sections under version locks and of single
queries outside them. A property of programs that sequencing keeps holds of
every operation once it holds of these.
-/
namespace YaNuget

open Concurrency Op Fallible

/-- The call changes what the lock of version `k` guards: its payload and
sidecars, its package, file and symbol rows, and which feeds hold it, pending or not. -/
def Call.changes : Call → VersionKey → Prop
  | .db (.addVersion p _ _), k | .db (.replaceVersion p _ _), k
  | .db (.replacePendingVersion p _ _ _ _), k => p.key = k
  | .db (.deletePackageData k'), k | .db (.deleteSymbols k'), k | .db (.addMembership _ k' _), k
  | .db (.removeMembership _ k'), k | .db (.removeMembershipForGood _ k'), k
  | .db (.approveMembership _ k'), k | .db (.addFile k' _), k | .db (.deleteFile k' _), k
  | .db (.addSymbol _ k'), k => k' = k
  | .db (.updateMemberships _ ks .approve), k => k ∈ ks
  | .db (.renameFeed _ _ _), _ => True
  | .storage (.storePackage k' _), k | .storage (.storeAux k' _ _), k
  | .storage (.delete k'), k => k' = k
  | _, _ => False

/-- A query that operations make under no lock. -/
def DbCall.unlocked : DbCall → Prop
  | .existsIn _ _ | .getPackageData _ | .isTombstoned _ _ | .clearTombstone _ _
  | .setListed _ _ _ | .setEnabled _ _ _ | .setPinned _ _ _ => True
  | .updateMemberships _ _ change => change ≠ .approve
  | _ => False

theorem DbCall.not_changes_of_unlocked {q : DbCall} (h : q.unlocked) (k : VersionKey) :
    ¬ (Call.db q).changes k := by
  cases q with
  | updateMemberships f ks change =>
    cases change with
    | approve => exact (h rfl).elim
    | _ => exact id
  | _ => first | exact h.elim | exact id

/-- The feeds, and the modes, under which an operation may replace a version. -/
def Operation.overwritesUnder : Operation → FeedName → OverwriteMode → Prop
  | .push feed _ options _, f, mode => f = feed ∧ mode = options.overwrite
  | .mirror feed _ _ _ _ _, f, mode => f = feed ∧ mode = .disabled
  | .migrate feed _ _ overwrite _ _, f, mode =>
    f = feed ∧ mode = if overwrite then .enabled else .disabled
  | _, _, _ => False

/-- The sections of the operations have property `J`; those that index do so
under the given rights. -/
structure Sections (site : Site) (rights : FeedName → OverwriteMode → Prop)
    (J : ∀ {α : Type}, Op α → Prop) : Prop where
  query (q : DbCall) : q.unlocked → J (query q)
  arrive (feed : FeedName) (k : VersionKey) : J (call (.arrive feed k))
  purge (feed : FeedName) (k : VersionKey) : J (withVersionLock k (purgeLocked feed k))
  planned (feed : FeedName) (k : VersionKey) : J (withVersionLock k (purgePlannedLocked feed k))
  sweep (k : VersionKey) : J (withVersionLock k (sweepLocked k))
  index (feed : FeedName) (incoming : Incoming site.sha512) (options : IndexOptions) :
    rights feed options.overwrite →
    J (withVersionLock incoming.package.key (indexLocked site feed incoming options))
  approve (feed : FeedName) (v : VersionRef) (shown : Shown) :
    J (withVersionLock v.key (approveLocked site feed v shown))
  approveMany (feed : FeedName) (id : String) (versions : List String) (shown : Shown) :
    J (withVersionLocks (approvalLocks id versions)
      (approveManyLocked site feed id versions shown))
  transfer (source : FeedName) (target : FeedMeta) (k : VersionKey) (mode : Transfer) :
    J (withVersionLock k (transferLocked source target k mode))

/-- The pushes an operation may make: into which feed, of what, and how. -/
def Operation.indexes : Operation → FeedName → Content → IndexOptions → Prop
  | .push feed bytes options _, f, b, o => f = feed ∧ b = bytes ∧ o = options
  | .mirror feed v options unlisted _ (.ok bytes), f, b, o =>
    f = feed ∧ b = bytes ∧ o = options.index .disabled v unlisted
  | .migrate feed v options overwrite _ (.ok bytes), f, b, o =>
    f = feed ∧ b = bytes ∧ o = options.index (if overwrite then .enabled else .disabled) v false
  | _, _, _, _ => False

/-- The feeds an operation may copy or move versions into. -/
def Operation.transfersTo : Operation → FeedMeta → Prop
  | .transfer _ target _ _, t | .bulk _ _ _ _ (.transfer _ target), t => t = target
  | _, _ => False

/-- The sections of the operations have property `J`: those of the pushes that
may be made, and of the transfers into feeds that may be named. -/
structure Parts (site : Site) (pushes : FeedName → Content → IndexOptions → Prop)
    (targets : FeedMeta → Prop) (J : ∀ {α : Type}, Op α → Prop) : Prop where
  query (q : DbCall) : q.unlocked → J (query q)
  arrive (feed : FeedName) (k : VersionKey) : J (call (.arrive feed k))
  purge (feed : FeedName) (k : VersionKey) : J (withVersionLock k (purgeLocked feed k))
  planned (feed : FeedName) (k : VersionKey) : J (withVersionLock k (purgePlannedLocked feed k))
  sweep (k : VersionKey) : J (withVersionLock k (sweepLocked k))
  index (feed : FeedName) (bytes : Content) (options : IndexOptions)
    (incoming : Incoming site.sha512) : pushes feed bytes options →
    accept site bytes options = .ok incoming →
    J (withVersionLock incoming.package.key (indexLocked site feed incoming options))
  approve (feed : FeedName) (v : VersionRef) (shown : Shown) :
    J (withVersionLock v.key (approveLocked site feed v shown))
  approveMany (feed : FeedName) (id : String) (versions : List String) (shown : Shown) :
    J (withVersionLocks (approvalLocks id versions)
      (approveManyLocked site feed id versions shown))
  transfer (source : FeedName) (target : FeedMeta) (k : VersionKey) (mode : Transfer) :
    targets target → J (withVersionLock k (transferLocked source target k mode))

section Closed

variable {J : ∀ {α : Type}, Op α → Prop} (hJ : Closed J) {α : Type} {x : Op α}

include hJ

theorem Op.closed_onlyIf {p : Prop} [Decidable p] {x : Op Unit} (h : J x) : J (onlyIf p x) := by
  unfold onlyIf
  split_ifs
  · exact h
  · exact hJ.result (.ok ())

theorem Op.closed_refuseIf {p : Prop} [Decidable p] (e : Error) : J (refuseIf p e) :=
  Op.closed_onlyIf hJ (hJ.result (.error e))

theorem Op.closed_unwrapOr {a : α} (h : J x) : J (unwrapOr x a) := by
  refine hJ.bind (hJ.attempt h) fun result => ?_
  cases result with
  | ok a => exact hJ.result (.ok a)
  | error e => exact hJ.result (.ok a)

theorem closed_orNotFound {update : Op Bool} (h : J update) : J (orNotFound update) :=
  hJ.bind h fun _ => Op.closed_refuseIf hJ _

end Closed

namespace Parts

variable {site : Site} {pushes : FeedName → Content → IndexOptions → Prop}
variable {targets : FeedMeta → Prop} {J : ∀ {α : Type}, Op α → Prop}
variable (hs : Parts site pushes targets J) (hJ : Closed J) (feed : FeedName)

include hs hJ

theorem applyPlan (planned : List VersionKey) : J (applyPlan feed planned) :=
  hJ.forM fun k _ => hJ.ignore (hs.planned feed k)

theorem indexPackage (bytes : Content) (options : IndexOptions) (h : pushes feed bytes options) :
    J (indexPackage site feed bytes options) := by
  unfold YaNuget.indexPackage
  cases haccept : accept site bytes options with
  | error e =>
    rw [ofResult_error_bind]
    exact hJ.result _
  | ok incoming =>
    rw [ofResult_ok_bind]
    exact hs.index feed bytes options incoming h haccept

theorem pushPackage (bytes : Content) (options : IndexOptions) (planned : List VersionKey)
    (h : pushes feed bytes options) : J (pushPackage site feed bytes options planned) := by
  refine hJ.bind (hJ.optionForM fun a => hs.arrive feed a.key) fun _ => ?_
  refine hJ.bind (hs.indexPackage hJ feed bytes options h) fun result => ?_
  refine hJ.bind (hJ.ignore (hs.query _ trivial)) fun _ => ?_
  exact hs.applyPlan hJ feed planned

theorem transferVersion (target : FeedMeta) (k : VersionKey) (mode : Transfer)
    (h : targets target) : J (transferVersion feed target k mode) := by
  refine hJ.bind (hs.arrive _ _) fun _ => ?_
  refine hJ.bind (hs.query _ trivial) fun here => ?_
  exact hJ.bind (Op.closed_refuseIf hJ _) fun _ => hs.transfer feed target k mode h

theorem adminBulk (id : String) (versions : List String) (shown : Shown) (op : BulkOp)
    (h : ∀ target, (Operation.bulk feed id versions shown op).transfersTo target → targets target) :
    J (adminBulk site feed id versions shown op) := by
  unfold YaNuget.adminBulk
  dsimp only
  split_ifs
  · exact hJ.result (.ok ())
  refine hJ.bind (hJ.forM fun k _ => hJ.bind (hs.query _ trivial) fun here =>
    Op.closed_refuseIf hJ _) fun _ => ?_
  cases op with
  | enable => exact hJ.discard (hs.query _ (by simp [DbCall.unlocked]))
  | disable => exact hJ.discard (hs.query _ (by simp [DbCall.unlocked]))
  | pin => exact hJ.discard (hs.query _ (by simp [DbCall.unlocked]))
  | unpin => exact hJ.discard (hs.query _ (by simp [DbCall.unlocked]))
  | approve => exact hs.approveMany feed id versions shown
  | delete => exact hJ.forM fun k _ => hJ.discard (hs.purge feed k)
  | transfer mode target =>
    refine hJ.bind (hJ.forM fun k _ => hJ.bind (hs.query _ trivial) fun package => ?_)
      fun _ => ?_
    · cases package with
      | none => exact hJ.result (.error _)
      | some package => exact Op.closed_refuseIf hJ _
    · exact hJ.forM fun k _ => hJ.discard (hs.transferVersion hJ feed target k mode (h _ rfl))

theorem mirrorVersion (v : VersionRef) (options : CopyOptions) (unlisted failedLately : Bool)
    (download : Except Error Content)
    (h : ∀ bytes, download = .ok bytes → pushes feed bytes (options.index .disabled v unlisted)) :
    J (mirrorVersion site feed v options unlisted failedLately download) := by
  refine hJ.bind ?_ fun fetch => ?_
  · refine hJ.bind (Op.closed_unwrapOr hJ (hs.query _ trivial)) fun here => ?_
    split_ifs
    · exact hJ.result (.ok _)
    · refine hJ.bind (Op.closed_unwrapOr hJ (hs.query _ trivial)) fun deleted => ?_
      split_ifs
      · exact hJ.result (.ok _)
      · exact hJ.result (.ok _)
  · split_ifs
    · cases download with
      | error e => exact hJ.result (.ok _)
      | ok bytes =>
        refine hJ.bind (Op.closed_unwrapOr hJ (hs.query _ trivial)) fun deleted => ?_
        split_ifs
        · exact hJ.result (.ok _)
        · refine hJ.bind (hJ.attempt (hs.indexPackage hJ feed bytes _ (h _ rfl))) fun indexed => ?_
          cases indexed with
          | ok _ => exact hJ.result (.ok _)
          | error _ => exact hJ.result (.ok _)
    · exact hJ.result (.ok _)

theorem migrateVersion (v : VersionRef) (options : CopyOptions) (overwrite unlisted : Bool)
    (download : Except Error Content)
    (h : ∀ bytes, download = .ok bytes →
      pushes feed bytes (options.index (if overwrite then .enabled else .disabled) v false)) :
    J (migrateVersion site feed v options overwrite unlisted download) := by
  refine hJ.bind (hJ.bind (Op.closed_unwrapOr hJ (hs.query _ trivial)) fun deleted => ?_)
    fun copy => Op.closed_onlyIf hJ ?_
  · refine hJ.bind ?_ fun present => hJ.result (.ok _)
    split_ifs
    · exact Op.closed_unwrapOr hJ (hs.query _ trivial)
    · exact hJ.result (.ok _)
  · cases download with
    | error e => exact hJ.result (.ok _)
    | ok bytes =>
      refine hJ.bind (hJ.attempt (hs.indexPackage hJ feed bytes _ (h _ rfl))) fun indexed => ?_
      cases indexed with
      | ok _ => exact Op.closed_onlyIf hJ (hJ.ignore (hs.query _ trivial))
      | error _ => exact hJ.result (.ok _)

/-- What holds of every section holds of every operation. -/
theorem run (op : Operation) (hpushes : ∀ f b o, op.indexes f b o → pushes f b o)
    (htargets : ∀ target, op.transfersTo target → targets target) : J (op.run site) := by
  cases op with
  | push feed bytes options planned =>
    exact hs.pushPackage hJ feed bytes options planned (hpushes _ _ _ ⟨rfl, rfl, rfl⟩)
  | purge feed k => exact closed_orNotFound hJ (hs.purge feed k)
  | delete feed k hardDeleteEnabled =>
    simp only [Operation.run, deletePackage]
    split_ifs
    · exact closed_orNotFound hJ (hs.purge feed k)
    · exact closed_orNotFound hJ (hs.query _ trivial)
  | relist feed k => exact closed_orNotFound hJ (hs.query _ trivial)
  | retention feed planned => exact hs.applyPlan hJ feed planned
  | sweep orphans => exact hJ.forM fun k _ => hJ.ignore (hs.sweep k)
  | setEnabled feed k enabled => exact closed_orNotFound hJ (hs.query _ trivial)
  | setPinned feed k pinned => exact closed_orNotFound hJ (hs.query _ trivial)
  | approve feed v shown => exact hs.approve feed v shown
  | transfer source target k mode =>
    exact hJ.discard (hs.transferVersion hJ source target k mode (htargets _ rfl))
  | bulk feed id versions shown op => exact hs.adminBulk hJ feed id versions shown op htargets
  | mirror feed v options unlisted failedLately download =>
    refine hJ.discard (hs.mirrorVersion hJ feed v options unlisted failedLately download ?_)
    rintro bytes rfl
    exact hpushes _ _ _ ⟨rfl, rfl, rfl⟩
  | migrate feed v options overwrite unlisted download =>
    refine hs.migrateVersion hJ feed v options overwrite unlisted download ?_
    rintro bytes rfl
    exact hpushes _ _ _ ⟨rfl, rfl, rfl⟩

end Parts

namespace Sections

variable {site : Site} {rights : FeedName → OverwriteMode → Prop} {J : ∀ {α : Type}, Op α → Prop}
variable (hs : Sections site rights J) (hJ : Closed J)

include hs

theorem parts : Parts site (fun f _ o => rights f o.overwrite) (fun _ => True) J where
  query := hs.query
  arrive := hs.arrive
  purge := hs.purge
  planned := hs.planned
  sweep := hs.sweep
  index feed _ options incoming h _ := hs.index feed incoming options h
  approve := hs.approve
  approveMany := hs.approveMany
  transfer source target k mode _ := hs.transfer source target k mode

include hJ

theorem applyPlan (feed : FeedName) (planned : List VersionKey) : J (applyPlan feed planned) :=
  hs.parts.applyPlan hJ feed planned

theorem run (op : Operation) (h : ∀ f mode, op.overwritesUnder f mode → rights f mode) :
    J (op.run site) := by
  refine hs.parts.run hJ op ?_ fun _ _ => trivial
  intro f bytes options hindexes
  apply h
  cases op with
  | push feed bytes' options' planned =>
    obtain ⟨rfl, -, rfl⟩ := hindexes
    exact ⟨rfl, rfl⟩
  | mirror feed v copy unlisted failedLately download =>
    cases download with
    | error e => exact hindexes.elim
    | ok bytes' =>
      obtain ⟨rfl, -, rfl⟩ := hindexes
      exact ⟨rfl, rfl⟩
  | migrate feed v copy overwrite unlisted download =>
    cases download with
    | error e => exact hindexes.elim
    | ok bytes' =>
      obtain ⟨rfl, -, rfl⟩ := hindexes
      exact ⟨rfl, rfl⟩
  | _ => exact hindexes.elim

end Sections

end YaNuget
