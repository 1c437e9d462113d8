import YaNuget.Listings.PageUrls
import YaNuget.Operations.CopySections
import YaNuget.Upstreams.Enumerated
import YaNuget.Versions.NuGetVersion

/-!
# Migration runs

A run discovers the packages of a source, lists the versions that the target
lacks, and copies each in two steps: the version is indexed, and unlisted where
the source has it unlisted. The tasks of a run go on in any order, and a run may
be stopped anywhere. Sizes, counts and progress are left out.
-/
namespace YaNuget.Migrating

open Concurrency Op Policy Discovery

/-- What a source holds: by lower-cased id the versions of a package, and those it has unlisted. -/
structure Source where
  url : String
  redactUrl : String → String
  resolveId : String → String → Option String
  toLowercase : String → String
  feed : Discovery.Feed toLowercase
  versions : String → List String
  unlisted : String → List String

/-- What the requests of one run are answered with, and which looks at the database fail. -/
structure Answers where
  resources : Except String MirrorResources
  getSearchPage : String → Except String (Option SearchPage)
  getCatalogIndex : String → Except String (Option (Catalog × String))
  getCatalogPage : String → Except String (Option Catalog)
  upstreamVersions : String → Except String (List String)
  upstreamUnlisted : String → Except String (List String)
  /-- Whether the looks at the tombstone and the membership of a listed version fail. -/
  looks : String → String → Bool × Bool

/-- Where versions are copied to, and how. -/
structure Target where
  site : Site
  feed : FeedName
  options : CopyOptions
  includePrerelease : Bool
  /-- How an error reads. -/
  describe : Error → String

/-- One source version to download and index. -/
structure WorkItem where
  id : String
  lowerId : String
  version : Versions.NuGetVersion
  unlisted : Bool
  deriving DecidableEq, Repr

def WorkItem.ref (item : WorkItem) : VersionRef :=
  ⟨item.lowerId, String.ofList item.version.normalized⟩

def WorkItem.key (item : WorkItem) : VersionKey := item.ref.key

/-- Lower-cased, normalized version: the form used in the flat-container path. -/
def Source.pathVersion (source : Source) (version : Versions.NuGetVersion) : String :=
  source.toLowercase (String.ofList version.normalized)

/-- Whether the source has the version unlisted. -/
def Source.unlists (source : Source) (item : WorkItem) : Bool :=
  (source.unlisted item.lowerId).contains (source.pathVersion item.version)

structure MigrateFailure where
  id : String
  version : Option String
  error : String
  deriving DecidableEq, Repr

inductive OutcomeKind where
  | imported (unlisted : Bool)
  | skipped
  | failed (failure : MigrateFailure)
  deriving DecidableEq, Repr

/-- How far the copy of a version has come. -/
inductive Stage where
  | waiting
  /-- Indexed, and to be unlisted as in the source. -/
  | unlisting
  /-- Refused as existing: whether it is in the feed is to be looked up. -/
  | refused (e : Error)
  /-- Cut off while it was indexed. -/
  | cut
  | done (outcome : OutcomeKind)
  deriving DecidableEq, Repr

structure Task where
  item : WorkItem
  stage : Stage
  deriving DecidableEq, Repr

def Stage.ended : Stage → Bool
  | .done _ => true
  | _ => false

def Task.failure? (task : Task) : Option MigrateFailure :=
  match task.stage with
  | .done (.failed failure) => some failure
  | _ => none

/-- A run in its second phase. -/
structure Run where
  tasks : List Task
  /-- What could not be read in the first phase. -/
  failures : List MigrateFailure

section Listing

variable (source : Source) (target : Target) (a : Answers) (s : Store Unit)

abbrev Answers.upstream : Upstream where
  url := source.url
  resources := a.resources
  getSearchPage := a.getSearchPage
  getCatalogIndex := a.getCatalogIndex
  getCatalogPage := a.getCatalogPage
  resolveId := source.resolveId
  redactUrl := source.redactUrl
  toLowercase := source.toLowercase

/-- One listed version: left out unless it parses, passes the filter, and is neither deleted from
the target nor there already. -/
def listVersion (id lower raw : String) : Option WorkItem :=
  match Versions.NuGetVersion.parse raw.toList with
  | .error _ => none
  | .ok version =>
    if !target.includePrerelease && version.isPrerelease then none
    else
      let item : WorkItem := ⟨id, lower, version, false⟩
      let looks := [(a.looks id raw).1, (a.looks id raw).2]
      match ((listItem target.feed item.key true).run.play (server Unit) () looks s).1 with
      | some (.ok true) => some item
      | _ => none

/-- The versions of one package to copy. -/
def list (id : String) : Except MigrateFailure (List WorkItem) :=
  match target.options.reservedElsewhere.find? fun r => r.covers id with
  | some reserved => .error ⟨id, none, "under the prefix " ++ quoted reserved.pfx ++
      ", reserved for feed " ++ quoted reserved.feed⟩
  | none =>
    let lower := source.toLowercase id
    match a.upstreamVersions lower with
    | .error e => .error ⟨id, none, e⟩
    | .ok versions =>
      let items := versions.filterMap (listVersion target a s id lower)
      if items.isEmpty then .ok []
      else
        match a.upstreamUnlisted lower with
        | .ok unlisted => .ok (items.map fun item =>
            { item with unlisted := unlisted.contains (source.pathVersion item.version) })
        | .error e =>
          .error ⟨id, none, "could not read which versions are unlisted: " ++ e⟩

/-- The first phase: what to copy, and what could not be read. -/
def plan : Except String Run :=
  match (a.upstream source).enumeratePackageIds with
  | .error e => .error e
  | .ok found =>
    let ids := found.ids.filter fun id => (Listings.validatePackageId id.toList).isOk
    let results := ids.map (list source target a s)
    let work := results.flatMap fun r => r.toOption.getD []
    .ok {
      tasks := work.map fun item => ⟨item, .waiting⟩
      failures := (found.failures.map fun f => ⟨f.1, none, f.2⟩) ++ results.filterMap fun r =>
        match r with
        | .ok _ => none
        | .error failure => some failure }

end Listing

section Copying

variable (target : Target) (item : WorkItem)

def failed (error : String) : Stage :=
  .done (.failed ⟨item.id, some (String.ofList item.version.normalized), error⟩)

/-- The indexing of what was downloaded for a version. -/
def indexItem (bytes : Content) : Op IndexResult :=
  indexPackage target.site target.feed bytes (target.options.index .disabled item.ref false)

def afterIndexing : Except Error IndexResult → Stage
  | .ok _ => if item.unlisted then .unlisting else .done (.imported false)
  | .error .packageAlreadyExists => .refused .packageAlreadyExists
  | .error (.versionExists message) => .refused (.versionExists message)
  | .error e => failed item (target.describe e)

def afterUnlisting : Except Error Bool → Stage
  | .ok _ => .done (.imported true)
  | .error e =>
    failed item ("imported, but could not unlist it as the source has: " ++ target.describe e)

def afterRefusal (e : Error) (present : Bool) : Stage :=
  if present then .done .skipped
  else if e = .packageAlreadyExists then
    failed item "another feed on this server holds this id and version with different content"
  else failed item (target.describe e)

end Copying

/-- The state of a target while migration runs come and go. -/
structure Migration where
  store : Store Unit
  /-- The run in its second phase, if there is one. -/
  run : Option Run
  /-- The versions that runs have brought into the feed. -/
  imported : List WorkItem
  /-- The failures that the run that ended last reported; none unless it came to its end. -/
  report : Option (List MigrateFailure)

inductive Action where
  /-- The first phase of a run. It writes nothing. -/
  | start (a : Answers)
  /-- Task `i` indexes its download. Which of the calls fail is chosen; where the choices run out,
  it is cut off. -/
  | index (i : ℕ) (download : Except String Content) (calls : List Bool)
  /-- Task `i` makes the query that follows the indexing. -/
  | settle (i : ℕ) (fails : Bool)
  /-- The run has come to its end. -/
  | finish
  /-- The run is interrupted. -/
  | stop

namespace Migration

variable (source : Source) (target : Target)

def setStage (s : Migration) (run : Run) (i : ℕ) (item : WorkItem) (stage : Stage) : Migration :=
  { s with run := some { run with tasks := run.tasks.set i ⟨item, stage⟩ } }

def index (s : Migration) (run : Run) (i : ℕ) (item : WorkItem) (bytes : Content)
    (calls : List Bool) : Migration :=
  let (result, store) := (indexItem target item bytes).run.play (server Unit) () calls s.store
  let brought := !s.store.db.existsIn target.feed item.key && store.db.existsIn target.feed item.key
  let s := { s with store := store, imported := if brought then item :: s.imported else s.imported }
  s.setStage run i item (result.elim .cut (afterIndexing target item))

def unlist (s : Migration) (run : Run) (i : ℕ) (item : WorkItem) (fails : Bool) : Migration :=
  let (result, store) :=
    (query (.setListed target.feed item.key false)).run.play (server Unit) () [fails] s.store
  { s with store := store }.setStage run i item (result.elim .cut (afterUnlisting target item))

def lookUp (s : Migration) (run : Run) (i : ℕ) (item : WorkItem) (e : Error) (fails : Bool) :
    Migration :=
  let look := unwrapOr (query (.existsIn target.feed item.key)) false
  let present := (look.run.play (server Unit) () [fails] s.store).1
  s.setStage run i item
    (afterRefusal target item e ((present.bind Except.toOption).getD false))

def step (s : Migration) : Action → Option Migration
  | .start a =>
    match s.run with
    | some _ => none
    | none =>
      match plan source target a s.store with
      | .error _ => some { s with report := none }
      | .ok run => some { s with run := some run, report := none }
  | .index i download calls => do
    let run ← s.run
    let task ← run.tasks[i]?
    if task.stage = .waiting then
      match download with
      | .error e => some (s.setStage run i task.item (failed task.item e))
      | .ok bytes => some (s.index target run i task.item bytes calls)
    else none
  | .settle i fails => do
    let run ← s.run
    let task ← run.tasks[i]?
    match task.stage with
    | .unlisting => some (s.unlist target run i task.item fails)
    | .refused e => some (s.lookUp target run i task.item e fails)
    | _ => none
  | .finish => do
    let run ← s.run
    if run.tasks.all fun task => task.stage.ended then
      some { s with
        run := none
        report := some (run.failures ++ run.tasks.filterMap Task.failure?) }
    else none
  | .stop => do
    let _ ← s.run
    -- The locks are those of the process.
    some { s with
      run := none
      report := none
      store := { Store.empty Unit with db := s.store.db, storage := s.store.storage } }

end Migration

end YaNuget.Migrating
