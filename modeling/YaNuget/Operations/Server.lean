import YaNuget.Operations.Mirror

/-!
# The operations of the server

Each task of the server runs one operation. The operations of any number of
tasks interleave call by call.
-/
namespace YaNuget

open Concurrency

inductive Operation where
  | push (feed : FeedName) (bytes : Content) (options : IndexOptions) (planned : List VersionKey)
  | purge (feed : FeedName) (k : VersionKey)
  | delete (feed : FeedName) (k : VersionKey) (hardDeleteEnabled : Bool)
  | relist (feed : FeedName) (k : VersionKey)
  | retention (feed : FeedName) (planned : List VersionKey)
  | sweep (orphans : List VersionKey)
  | setEnabled (feed : FeedName) (k : VersionKey) (enabled : Bool)
  | setPinned (feed : FeedName) (k : VersionKey) (pinned : Bool)
  | approve (feed : FeedName) (v : VersionRef) (shown : Shown)
  | transfer (source : FeedName) (target : FeedMeta) (k : VersionKey) (mode : Transfer)
  | bulk (feed : FeedName) (id : String) (versions : List String) (shown : Shown) (op : BulkOp)
  | mirror (feed : FeedName) (v : VersionRef) (options : CopyOptions) (unlisted failedLately : Bool)
      (download : Except Error Content)
  | migrate (feed : FeedName) (v : VersionRef) (options : CopyOptions) (overwrite unlisted : Bool)
      (download : Except Error Content)

namespace Operation

variable (site : Site)

def run : Operation → Op Unit
  | push feed bytes options planned => pushPackage site feed bytes options planned
  | purge feed k => adminDelete feed k
  | delete feed k hardDeleteEnabled => deletePackage feed k hardDeleteEnabled
  | relist feed k => relistPackage feed k
  | retention feed planned => applyPlan feed planned
  | sweep orphans => sweepOrphans orphans
  | setEnabled feed k enabled => adminSetEnabled feed k enabled
  | setPinned feed k pinned => adminSetPinned feed k pinned
  | approve feed v shown => adminApprove site feed v shown
  | transfer source target k mode => do
    let _ ← transferVersion source target k mode
  | bulk feed id versions shown op => adminBulk site feed id versions shown op
  | mirror feed v options unlisted failedLately download => do
    let _ ← mirrorVersion site feed v options unlisted failedLately download
  | migrate feed v options overwrite unlisted download =>
    migrateVersion site feed v options overwrite unlisted download

def program (op : Operation) : Program Call Call.Answer Unit := (op.run site).run >>= fun _ => .done ()

end Operation

/-- The tasks `T` of a server, each about to run its operation. -/
def serving {T : Type} (site : Site) (s : Store T) (ops : T → Operation) :
    Config T Call Call.Answer Bool (Store T) :=
  ⟨⟨s, []⟩, fun t => (ops t).program site⟩

end YaNuget
