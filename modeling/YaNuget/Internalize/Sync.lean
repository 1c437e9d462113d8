import Mathlib.Data.List.Sort
import YaNuget.Versions.VersionRange
import YaNuget.Internalize.Assess

/-!
# Keeping feeds current

A sync internalizes the newest upstream version of each watched package, and
records in its state file what became of each version. The next sync goes by
that file.
-/
namespace YaNuget.Internalize

open Versions Orderings

/-- One package to keep current. -/
structure Watch where
  id : Text
  /-- The versions it follows, all when none is given. -/
  versions : Option VersionRange
  deriving DecidableEq, Repr

namespace Watch

variable (w : Watch)

/-- The entry follows the version, as a candidate for the newest. -/
def follows (version : Versions.NuGetVersion) : Bool :=
  match w.versions with
  | some range =>
    range.contains version && (!version.isPrerelease || range.hasPrereleaseBound)
  | none => !version.isPrerelease

def newest (versions : List PackageInfo) : Option PackageInfo :=
  versions.reverse.find? fun i => i.listed && w.follows i.version

end Watch

/-- Whether an override skips a package, in a range of its versions. -/
structure SkipRule where
  /-- The id of the package in lower case. -/
  id : Text
  versions : Option VersionRange
  skip : Option String

/-- The overrides of the packages, one for an id, and the hash of them all. -/
structure Overrides where
  all : List SkipRule
  fingerprint : Text

def Overrides.get (o : Overrides) (id : Text) (version : Versions.NuGetVersion) :
    Option SkipRule :=
  (o.all.find? (·.id = Text.lower id)).filter (·.versions.all (·.contains version))

def Overrides.skips (o : Overrides) (id : Text) (version : Versions.NuGetVersion) :
    Option String :=
  (o.get id version).bind (·.skip)

inductive SyncStatus where
  | pending
  | approved
  | needsOverride
  | failed
  deriving DecidableEq, Repr

/-- A version of a package, by its id in lower case. -/
abbrev Key := Text × Versions.NuGetVersion

def SameKey (a b : Key) : Prop := a.1 = b.1 ∧ a.2.cmp b.2 = .eq

instance (a b : Key) : Decidable (SameKey a b) := inferInstanceAs (Decidable (_ ∧ _))

def keyOf (id : Text) (version : Versions.NuGetVersion) : Key := (Text.lower id, version)

/-- One version in the state file. -/
structure Entry where
  id : Text
  version : Versions.NuGetVersion
  status : SyncStatus
  since : Text
  /-- How often a sync internalized it. -/
  attempts : ℕ
  /-- The fingerprint of the overrides when it was last tried. -/
  overrides : Option Text
  reasons : List String
  deriving DecidableEq, Repr

def Entry.key (e : Entry) : Key := keyOf e.id e.version

/-- What earlier syncs did: at most one entry for a key. -/
abbrev State := List Entry

namespace State

variable (s : State)

def get (id : Text) (version : Versions.NuGetVersion) : Option Entry :=
  s.find? fun e => SameKey e.key (keyOf id version)

def insert (e : Entry) : State := e :: s.filter fun other => ¬SameKey other.key e.key

/-- What the feed serves is approved, whatever a sync made of it. -/
def approve (id : Text) (served : List Versions.NuGetVersion) (now : Text) : State :=
  s.map fun e =>
    if Text.lower e.id = Text.lower id ∧ e.status ≠ .approved ∧
        served.any (·.cmp e.version = .eq) then
      { e with status := .approved, since := now, reasons := [] }
    else e

end State

/-- What became of one package of a run. -/
structure Report where
  id : Text
  version : Text
  status : Status
  reasons : List String

inductive Outcome where
  | done
  | needsAttention
  | failed
  deriving DecidableEq, Repr

namespace Outcome

def of : Status → Outcome
  | .internalized | .unchanged => done
  | .needsOverride => needsAttention
  | .failed => failed

def worst : Outcome → Outcome → Outcome
  | failed, _ | _, failed => failed
  | needsAttention, _ | _, needsAttention => needsAttention
  | done, done => done

def ofAll (statuses : List Status) : Outcome := statuses.foldl (fun o s => worst o (of s)) done

end Outcome

/-- What a sync did about one watch entry. -/
inductive Action where
  | internalized
  | wouldInternalize
  | pending (since : Text)
  | approved
  | needsOverride
  | failed
  | skipped (why : String)
  | noVersion
  | error (message : String)
  deriving DecidableEq, Repr

/-- One line of a sync's summary. -/
structure Line where
  watch : Watch
  version : Option Versions.NuGetVersion
  action : Action
  reasons : List String

/-- The versions of a package that the upstream has, oldest first. It leaves out what it has under
another id. -/
structure Listing (id : Text) where
  versions : List PackageInfo
  own : ∀ info ∈ versions, Text.lower info.id = Text.lower id

/-- What one run of a sync meets. -/
structure SyncRun where
  dryRun : Bool
  now : Text
  upstream : (id : Text) → Except String (Listing id)
  /-- The versions that the feed serves, as far as it tells. -/
  feed : Option (Text → Except String (Option (List Versions.NuGetVersion)))
  /-- What the pipeline makes of its calls; the run is cut off where it makes nothing. -/
  internalize : ℕ → Option (Except String (List Report))
  /-- Which saves work. -/
  saves : ℕ → Bool

/-- A run that has come so far. -/
structure Progress where
  state : State
  /-- The state file. -/
  file : State
  handled : List Key := []
  lines : List Line := []
  warnings : List String := []
  unreadable : Bool := false
  /-- The versions handed to the pipeline, which pushes them. -/
  calls : List PackageInfo := []
  /-- Those that were recorded as pushed in the file. -/
  pushed : List Key := []
  /-- How often the state was saved. -/
  saved : ℕ := 0

def maxReasons : ℕ := 10

def Report.name (r : Report) : String := s!"{String.ofList r.id} {String.ofList r.version}"

def Status.asStr : Status → String
  | internalized => "internalized"
  | unchanged => "unchanged"
  | needsOverride => "needs-override"
  | failed => "failed"

/-- The reasons of every package that is not done, each named. -/
def reasonsOf (reports : List Report) : List String :=
  let out := reports.flatMap fun r =>
    if r.status = .internalized ∨ r.status = .unchanged then []
    else if r.reasons.isEmpty then [s!"{r.name}: {r.status.asStr}"]
    else r.reasons.map fun reason => s!"{r.name}: {reason}"
  if maxReasons < out.length then
    out.take (maxReasons - 1) ++
      [s!"and {out.length - (maxReasons - 1)} more; see the run's report"]
  else out

/-- What the state is to say of what the pipeline made of a version. -/
def judge (answer : Except String (List Report)) : SyncStatus × List String :=
  match answer with
  | .error err => (.failed, [err])
  | .ok reports =>
    if reports.isEmpty then (.failed, ["the run gave no report"])
    else
      let status := match Outcome.ofAll (reports.map (·.status)) with
        | .done => .pending
        | .needsAttention => .needsOverride
        | .failed => .failed
      (status, reasonsOf reports)

section Sync

variable (o : Overrides) (r : SyncRun)

def Progress.say (p : Progress) (w : Watch) (version : Option Versions.NuGetVersion)
    (action : Action) (reasons : List String) : Progress :=
  { p with lines := p.lines ++ [⟨w, version, action, reasons⟩] }

def save (p : Progress) : Except Progress Progress :=
  if r.dryRun then .ok p
  else if r.saves p.saved then .ok { p with file := p.state, saved := p.saved + 1 }
  else .error { p with saved := p.saved + 1 }

/-- A version is tried that no earlier sync handled, or one that failed, or one that needed an
override when the overrides have changed. -/
def retries (servedNow : Bool) (earlier : Option Entry) : Bool :=
  if servedNow then false
  else
    match earlier with
    | none => true
    | some e =>
      match e.status with
      | .failed => true
      | .needsOverride => e.overrides ≠ some o.fingerprint
      | .pending | .approved => false

/-- What to say of a version that is not tried; one that the feed serves is recorded. -/
def settle (w : Watch) (info : PackageInfo) (servedNow : Bool) (earlier : Option Entry)
    (p : Progress) : Progress :=
  if servedNow then
    let p := if earlier.isNone then
        { p with state := p.state.insert ⟨info.id, info.version, .approved, r.now, 0, none, []⟩ }
      else p
    p.say w (some info.version) .approved []
  else
    match earlier with
    -- a version that no sync handled is always tried
    | none => p
    | some e =>
      match e.status with
      | .pending => p.say w (some info.version) (.pending e.since) []
      | .approved => p.say w (some info.version) .approved []
      | .needsOverride => p.say w (some info.version) .needsOverride e.reasons
      | .failed => p.say w (some info.version) .failed []

/-- Hand the version to the pipeline, and record what became of it. -/
def internalizeNow (w : Watch) (info : PackageInfo) (earlier : Option Entry) (p : Progress) :
    Except Progress Progress :=
  let called := { p with calls := p.calls ++ [info] }
  match r.internalize p.calls.length with
  | none => .error called
  | some answer => do
    let (status, reasons) := judge answer
    let entry : Entry := ⟨info.id, info.version, status, r.now,
      min (((earlier.map (·.attempts)).getD 0) + 1) (2 ^ 32 - 1), some o.fingerprint, reasons⟩
    let p ← save r { called with state := called.state.insert entry }
    let p := if status = .pending then { p with pushed := p.pushed ++ [entry.key] } else p
    let action := match status with
      | .pending => Action.internalized
      | .approved => .approved
      | .needsOverride => .needsOverride
      | .failed => .failed
    pure (p.say w (some info.version) action reasons)

def syncEntry (id : Text) (versions : List PackageInfo)
    (served : Option (List Versions.NuGetVersion)) (p : Progress) (w : Watch) :
    Except Progress Progress :=
  match w.newest versions with
  | none => .ok (p.say w none .noVersion [])
  | some info =>
    let key := keyOf id info.version
    if p.handled.any fun k => SameKey k key then .ok p
    else
      let p := { p with handled := key :: p.handled }
      match o.skips info.id info.version with
      | some why => .ok (p.say w (some info.version) (.skipped why) [])
      | none =>
        let servedNow := served.any (·.any (·.cmp info.version = .eq))
        let earlier := p.state.get id info.version
        if !retries o servedNow earlier then .ok (settle r w info servedNow earlier p)
        else if r.dryRun then .ok (p.say w (some info.version) .wouldInternalize [])
        else internalizeNow o r w info earlier p

def servedOf (id : Text) (p : Progress) : Option (List Versions.NuGetVersion) × Progress :=
  match r.feed with
  | none => (none, p)
  | some feed =>
    match feed id with
    | .ok (some versions) => (some versions, p)
    | .ok none => (none, { p with unreadable := true })
    | .error err => (none, { p with
        warnings := p.warnings ++ [s!"{String.ofList id}: cannot ask the target feed: {err}"] })

def syncId (watch : List Watch) (p : Progress) (id : Text) : Except Progress Progress :=
  let entries := watch.filter fun w => Text.lower w.id = Text.lower id
  match r.upstream id with
  | .error err => .ok (entries.foldl (fun p w =>
      p.say w none (.error s!"cannot ask the upstream: {err}") []) p)
  | .ok listing =>
    let (served, p) := servedOf r id p
    let p := match served with
      | some versions => { p with state := p.state.approve id versions r.now }
      | none => p
    entries.foldlM (syncEntry o r id listing.versions served) p

/-- The ids after `last`, without those that are the same in lower case as the one before. -/
def dedupAfter (last : Text) : List Text → List Text
  | [] => []
  | id :: rest =>
    if Text.lower id = Text.lower last then dedupAfter last rest else id :: dedupAfter id rest

def idsOf (watch : List Watch) : List Text :=
  match (watch.map (·.id)).insertionSort
    fun a b => (compare (Text.lower a) (Text.lower b)).isLE = true with
  | [] => []
  | id :: rest => id :: dedupAfter id rest

def Watch.inRange (w : Watch) (e : Entry) : Bool :=
  Text.lower e.id = Text.lower w.id && w.follows e.version

/-- Drop what no entry follows, what an override skips, and in each entry's range what is older
than its newest approved version. -/
def prune (watch : List Watch) (s : State) : State :=
  let kept := s.filter fun e =>
    (o.skips e.id e.version).isNone && watch.any (·.inRange e)
  let newestApproved (w : Watch) : Option Versions.NuGetVersion :=
    greatest Versions.NuGetVersion.cmp
      ((kept.filter fun e => w.inRange e && e.status = .approved).map (·.version))
  kept.filter fun e => !watch.any fun w =>
    w.inRange e && (newestApproved w).any (e.version.cmp · = .lt)

/-- One sync from what the state file holds: how it ends, which may be early. -/
def sync (watch : List Watch) (file : State) : Except Progress Progress := do
  let p ← (idsOf watch).foldlM (syncId o r watch) { state := file, file := file }
  let p ← save r { p with state := prune o watch p.state }
  pure (if p.unreadable then { p with warnings := p.warnings ++
    ["the target feed is read-gated and the tool holds a push key only, so it cannot " ++
      "tell when a version is approved; pending versions stay pending"] } else p)

def ended (watch : List Watch) (file : State) : Progress :=
  match sync o r watch file with
  | .ok p => p
  | .error p => p

end Sync

/-- One run after the other, each from the state file that the one before leaves. -/
def syncs (o : Overrides) (watch : List Watch) : State → List SyncRun → List Progress
  | _, [] => []
  | file, r :: rest => ended o r watch file :: syncs o watch (ended o r watch file).file rest

end YaNuget.Internalize
