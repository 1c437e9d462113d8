import YaNuget.Operations.Attachments
import YaNuget.Operations.Downloads
import YaNuget.Operations.Server
import YaNuget.Operations.SymbolPushes

/-!
# The tasks of the server

Besides the operations on packages, the server attaches files, takes in
symbols, sweeps blobs and answers downloads, all on the same store. A task runs
one of these, and the tasks of the server interleave call by call.
-/
namespace YaNuget

open Concurrency Op

/-- A site with its configured feeds, and what the other tasks use that is not
part of the store. -/
structure Host extends Site where
  feeds : List FeedSettings
  feeds_nodup : (feeds.map FeedSettings.name).Nodup
  symbols : SymbolReader
  httpDate : ℕ → String

/-- Who asks for a change to a version's files. -/
inductive Requester (host : Host) where
  /-- A request on a configured feed, with the admin keys it presents. -/
  | request (own : {m : FeedSettings // m ∈ host.feeds}) (presents : FeedName → Bool)
  /-- The inbox, which holds no credentials. -/
  | inbox (target : {m : FeedSettings // m ∈ host.feeds})

namespace Requester

variable {host : Host}

def settings : Requester host → FeedSettings
  | request own _ => own
  | inbox target => target

def feed (r : Requester host) : FeedName := r.settings.name

def guard : Requester host → ApprovalGuard
  | request own presents => .forRequest host.feeds own presents
  | inbox target => .withoutCredentials (target.1.allowOverwrite = .pendingOnly)
      ((host.feeds.filter FeedSettings.reviews).map FeedSettings.name)

/-- The requester presents the admin key of feed `f`. -/
def presentsAdmin : Requester host → FeedName → Bool
  | request _ presents, f => presents f
  | inbox _, _ => false

end Requester

inductive Task (host : Host) where
  | operate (op : Operation)
  | attach (requester : Requester host) (v : VersionRef) (name : String) (upload : Finished)
  | detach (requester : Requester host) (v : VersionRef) (name : String)
  | sweepBlobs (blobs : List Digest)
  | pushSymbols (feed : FeedName) (bytes : Content)
  | download (d : DownloadRequest)
  | icon (d : IconRequest)

namespace Task

variable {host : Host}

def run : Task host → Op Unit
  | operate op => op.run host.toSite
  | attach requester v name upload => do
    let _ ← attachGuarded requester.feed requester.guard v name upload
  | detach requester v name => YaNuget.detach requester.feed requester.guard v name
  | sweepBlobs blobs => sweepUnreferencedBlobs blobs
  | pushSymbols feed bytes => indexSymbolPackage host.symbols feed bytes
  | download d => downloadPackage host.toSite host.httpDate d
  | icon d => packageIcon d

def program (task : Task host) : Program Call Call.Answer Unit := task.run.run >>= fun _ => .done ()

end Task

/-- The tasks `T` of a server, each about to run. -/
def working {T : Type} {host : Host} (s : Store T) (tasks : T → Task host) :
    Config T Call Call.Answer Bool (Store T) :=
  ⟨⟨s, []⟩, fun t => (tasks t).program⟩

end YaNuget
