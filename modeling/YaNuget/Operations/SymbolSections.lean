import YaNuget.Operations.FileSections
import YaNuget.Operations.SymbolsKept

/-!
# What the sections do to symbols

The sections of the operations on packages are calls about other things, the
purge of a version's symbols, and the deletion of its rows. What these keep
every section keeps.
-/
namespace YaNuget

open Concurrency Op Fallible

theorem Call.minor_of_collects {c : Call} (h : c.collects) : c.minor := by
  cases c with
  | db q => cases q <;> first | exact h.elim | exact trivial
  | storage q => cases q <;> first | exact h.elim | exact trivial
  | lockBlob | unlockBlob => exact trivial
  | _ => exact h.elim

theorem Call.minor_of_attaches {k : VersionKey} {c : Call} (h : c.attaches k) : c.minor := by
  cases c with
  | db q => cases q <;> first | exact h.elim | exact trivial
  | storage q => cases q <;> first | exact h.elim | exact trivial
  | lockBlob | unlockBlob => exact trivial
  | _ => exact h.elim

theorem Call.minor_of_fetches {c : Call} (h : c.fetches) : c.minor := by
  cases c with
  | db q => cases q <;> first | exact h.elim | exact trivial
  | storage q => cases q <;> first | exact h.elim | exact trivial
  | respond => exact trivial
  | _ => exact h.elim

theorem Call.minor_of_unlocked {q : DbCall} (h : q.unlocked) : (Call.db q).minor := by
  cases q <;> first | exact h.elim | exact trivial

section Minor

theorem minor_deleteUnreferencedBlobs (files : List PackageFile) :
    (deleteUnreferencedBlobs files).run.Calls Call.minor := by
  refine calls_forM fun sha _ => calls_withBlobLock trivial trivial ?_
  exact (calls_collectBlob sha).mono fun _ => Call.minor_of_collects

theorem minor_purgeFileBlobs (k : VersionKey) : (purgeFileBlobs k).run.Calls Call.minor := by
  refine calls_bind (calls_query trivial) fun files => ?_
  refine calls_forM fun sha _ => calls_withBlobLock trivial trivial ?_
  exact calls_bind (calls_query trivial) fun references => calls_onlyIf (calls_file trivial)

theorem minor_swap (swap : Swap) (p : Package) (feed : FeedName) (m : Membership) :
    (swap.replace p feed m).run.Calls Call.minor := by
  cases swap with
  | any => exact calls_bind (calls_query trivial) fun _ => calls_pure _
  | pendingOnly dropFiles others => exact calls_query trivial

theorem minor_overwrite (feed : FeedName) (bytes : Content) (p existing : Package) (m : Membership)
    (sidecars : Sidecars) (swap : Swap) :
    (overwrite feed bytes p existing m sidecars swap).run.Calls Call.minor := by
  have minor {α : Type} {x : Op α} (hx : x.run.Calls Call.modest) : x.run.Calls Call.minor :=
    hx.mono fun _ h => h.2
  refine calls_bind (minor (modest_keepAside _)) fun backup => ?_
  refine calls_bind (minor (modest_readSidecar _ _ _)) fun oldNuspec => ?_
  refine calls_bind (minor (modest_readSidecar _ _ _)) fun oldReadme => ?_
  refine calls_bind (minor (modest_readSidecar _ _ _)) fun oldIcon => ?_
  refine calls_bind (calls_file trivial) fun _ => ?_
  refine calls_bind (calls_attempt (calls_bind (minor (modest_storeSidecars _ _))
    fun _ => minor_swap swap p feed m)) fun swapped => ?_
  cases swapped with
  | ok dropped => exact calls_pure _
  | error e => exact calls_bind (minor (modest_putBack _ _ _ _ _)) fun _ => calls_throw _

theorem minor_indexJoin (site : Site) (feed : FeedName) (incoming : Incoming site.sha512)
    (options : IndexOptions) (existing : PackageAt incoming.package.key) (payloadPresent : Bool) :
    (indexJoin site feed incoming options existing payloadPresent).run.Calls Call.minor := by
  refine calls_bind calls_refuseIf fun _ => ?_
  refine calls_bind (calls_onlyIf ((modest_storePayload _ _ _).mono fun _ h => h.2)) fun _ => ?_
  exact calls_bind (calls_query trivial) fun _ => calls_pure _

theorem minor_dropStray (feed : FeedName) (k : VersionKey) (existing : Option (PackageAt k))
    (previous : Option Membership) : (dropStray feed k existing previous).run.Calls Call.minor := by
  unfold dropStray
  split_ifs
  · exact calls_bind (calls_query trivial) fun _ => calls_pure _
  · exact calls_pure _

theorem minor_approveLocked (site : Site) (feed : FeedName) (v : VersionRef) (shown : Shown) :
    (approveLocked site feed v shown).run.Calls Call.minor :=
  calls_bind (calls_checkShownBuilds site _ shown (fun _ => trivial) fun _ => trivial) fun _ =>
    calls_orNotFound (calls_query trivial)

theorem minor_approveManyLocked (site : Site) (feed : FeedName) (id : String)
    (versions : List String) (shown : Shown) :
    (approveManyLocked site feed id versions shown).run.Calls Call.minor :=
  calls_bind (calls_checkShownBuilds site _ shown (fun _ => trivial) fun _ => trivial) fun _ =>
    calls_bind (calls_query trivial) fun _ => calls_pure _

theorem minor_transferLocked (source : FeedName) (target : FeedMeta) (k : VersionKey)
    (mode : Transfer) : (transferLocked source target k mode).run.Calls Call.minor := by
  refine calls_bind (calls_query trivial) fun package => ?_
  cases package with
  | none => exact calls_throw _
  | some package =>
    refine calls_bind calls_refuseIf fun _ => calls_bind (calls_query trivial) fun here => ?_
    cases here with
    | none => exact calls_throw _
    | some here =>
      refine calls_bind (calls_query trivial) fun stored => calls_bind calls_refuseIf fun _ => ?_
      refine calls_bind ?_ fun arrival => calls_bind (calls_onlyIf ?_) fun _ => calls_pure _
      · refine calls_bind (calls_attempt (calls_query trivial)) fun added => ?_
        split
        · exact calls_pure _
        · exact calls_pure _
        · exact calls_throw _
      · exact calls_bind (calls_query trivial) fun _ => calls_pure _

end Minor

/-- What calls about other things, the purge of the symbols of version `k` and
the deletion of its rows all keep. -/
structure KeepsSymbols (k : VersionKey) (J : ∀ {α : Type}, Op α → Prop) : Prop where
  closed : Closed J
  minor {α : Type} {x : Op α} : x.run.Calls Call.minor → J x
  symbols : J (purgeSymbols k)
  data : J (query (.deletePackageData k))

namespace KeepsSymbols

variable {k : VersionKey} {J : ∀ {α : Type}, Op α → Prop} (h : KeepsSymbols k J) (feed : FeedName)

include h

theorem purgeGlobalData : J (purgeGlobalData k) := by
  refine h.closed.bind h.symbols fun _ => ?_
  refine h.closed.bind (h.minor (minor_purgeFileBlobs k)) fun _ => ?_
  refine h.closed.bind (h.minor (calls_file trivial)) fun _ => ?_
  exact h.closed.discard h.data

theorem purgeLocked : J (purgeLocked feed k) := by
  refine h.closed.bind (h.minor (calls_query trivial)) fun removed => ?_
  refine h.closed.bind (h.minor (calls_query trivial)) fun holders => ?_
  refine h.closed.bind (Op.closed_onlyIf h.closed h.purgeGlobalData) fun _ => ?_
  exact h.minor (calls_pure _)

theorem purgePlannedLocked : J (purgePlannedLocked feed k) := by
  refine h.closed.bind (h.minor (calls_query trivial)) fun m => ?_
  cases m with
  | none => exact h.minor (calls_pure _)
  | some m =>
    dsimp only
    split_ifs
    · exact h.minor (calls_pure _)
    · exact h.purgeLocked feed

theorem sweepLocked : J (sweepLocked k) := by
  refine h.closed.bind (h.minor (calls_attempt (calls_query trivial))) fun holders => ?_
  split
  · refine h.closed.bind (h.minor (calls_unwrapOr (calls_query trivial))) fun still => ?_
    exact Op.closed_onlyIf h.closed h.purgeGlobalData
  · exact h.minor (calls_pure _)

theorem dropRemains (existing : Option (PackageAt k)) : J (dropRemains k existing) := by
  cases existing with
  | none => exact h.minor (calls_pure _)
  | some existing =>
    refine h.closed.bind (h.minor (calls_query trivial)) fun holders => ?_
    split_ifs
    · exact h.closed.bind h.purgeGlobalData fun _ => h.minor (calls_pure _)
    · exact h.minor (calls_pure _)

end KeepsSymbols

section Index

variable {J : ∀ {α : Type}, Op α → Prop} (site : Site) (feed : FeedName)
variable (incoming : Incoming site.sha512) (options : IndexOptions)
variable (h : KeepsSymbols incoming.package.key J)

include h

theorem KeepsSymbols.indexNew : J (indexNew site feed incoming options) := by
  refine h.closed.bind (h.minor ((modest_storePayload _ _ _).mono fun _ h => h.2)) fun _ => ?_
  refine h.closed.bind (h.minor (calls_attempt (calls_query trivial))) fun added => ?_
  cases added with
  | ok _ => exact h.minor (calls_pure _)
  | error e =>
    refine h.closed.bind (h.minor (calls_unwrapOr (calls_query trivial))) fun holders => ?_
    refine h.closed.bind (Op.closed_onlyIf h.closed ?_) fun _ => h.minor (calls_throw e)
    exact h.closed.bind (h.closed.ignore h.data) fun _ => h.minor (calls_ignore (calls_file trivial))

theorem KeepsSymbols.indexOverwrite (existing : PackageAt incoming.package.key)
    (previous : Membership) (payloadPresent : Bool) :
    J (indexOverwrite site feed incoming options existing previous payloadPresent) := by
  refine h.closed.bind (h.minor ((modest_checkOverwrite _ _ _ _ _).mono fun _ h => h.2)) fun _ => ?_
  refine h.closed.bind (h.minor ((modest_checkUnshared _ _ _ _).mono fun _ h => h.2)) fun _ => ?_
  dsimp only
  split_ifs
  · exact h.minor (calls_bind (minor_swap _ _ _ _) fun _ => calls_pure _)
  · refine h.closed.bind (h.minor (minor_overwrite _ _ _ _ _ _ _)) fun dropped => ?_
    refine h.closed.bind (h.minor (calls_onlyIf (minor_deleteUnreferencedBlobs _))) fun _ => ?_
    exact h.closed.bind (Op.closed_onlyIf h.closed h.symbols) fun _ => h.minor (calls_pure _)

theorem KeepsSymbols.indexLocked : J (indexLocked site feed incoming options) := by
  refine h.closed.bind (h.minor (calls_query trivial)) fun existing => ?_
  refine h.closed.bind (h.minor (calls_query trivial)) fun previous => ?_
  refine h.closed.bind (h.dropRemains _) fun existing => ?_
  refine h.closed.bind (h.minor (minor_dropStray _ _ _ _)) fun previous => ?_
  cases existing with
  | none => exact h.indexNew site feed incoming options
  | some existing =>
    refine h.closed.bind (h.minor (calls_call trivial)) fun payloadPresent => ?_
    cases previous with
    | none => exact h.minor (minor_indexJoin site feed incoming options existing payloadPresent)
    | some previous =>
      exact h.indexOverwrite site feed incoming options existing previous payloadPresent

end Index

namespace SymbolRun

variable {T : Type} [DecidableEq T] {host : Host} {R : SymbolRun T host} {t : T} {α : Type}

theorem symbols_locked {k : VersionKey} {x : Op α}
    (h : R.Symbols t (Holding t k (R.Rows k [])) x (fun _ => Holding t k (R.Rows k []))
      (Holding t k (R.Rows k []))) :
    R.protocol.Maintains (server T) t (R.Locked t [k]) x := by
  refine Protocol.Triple.maintains (h.mono (fun w hw => hw k List.mem_cons_self) ?_ ?_)
  · rintro _ w hw k' hk'
    rw [List.mem_singleton.mp hk']
    exact hw
  · rintro w hw k' hk'
    rw [List.mem_singleton.mp hk']
    exact hw

theorem keepsSymbols (R : SymbolRun T host) (t : T) (k : VersionKey) :
    KeepsSymbols k fun {α : Type} (x : Op α) =>
      R.protocol.Maintains (server T) t (R.Locked t [k]) x where
  closed := Protocol.closed_maintains (server T) R.protocol t _
  minor := maintains_minor
  symbols := symbols_locked symbols_purgeSymbols
  data := symbols_locked symbols_deletePackageData

theorem symbols_parts (R : SymbolRun T host) (t : T) :
    Parts host.toSite (fun _ _ _ => True) (fun _ => True) fun {α : Type} (x : Op α) =>
      R.protocol.Maintains (server T) t (R.Locked t []) x where
  query _ hq := maintains_minor (calls_query (Call.minor_of_unlocked hq))
  arrive _ _ := maintains_minor (calls_call trivial)
  purge feed k := symbols_withVersionLock ((keepsSymbols R t k).purgeLocked feed)
  planned feed k := symbols_withVersionLock ((keepsSymbols R t k).purgePlannedLocked feed)
  sweep k := symbols_withVersionLock (keepsSymbols R t k).sweepLocked
  index feed _ options incoming _ _ := symbols_withVersionLock
    ((keepsSymbols R t _).indexLocked host.toSite feed incoming options)
  approve feed v shown := symbols_withVersionLock
    (maintains_minor (minor_approveLocked host.toSite feed v shown))
  approveMany feed id versions shown := symbols_withVersionLocks
    (maintains_minor (minor_approveManyLocked host.toSite feed id versions shown))
  transfer source target k mode _ := symbols_withVersionLock
    (maintains_minor (minor_transferLocked source target k mode))

end SymbolRun

end YaNuget
