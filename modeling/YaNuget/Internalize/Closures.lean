import YaNuget.Internalize.Upstream
import YaNuget.Versions.VersionRange

/-!
# Dependency closures

What an install brings along is resolved before anything is downloaded. Each
dependency takes the highest version that every range on it allows, and the
search backtracks when two ranges clash. The source is asked for what the
search has to know, and the search starts over with each answer.
-/
namespace YaNuget.Internalize.Closures

open Versions

/-- The most packages one closure may hold. -/
def maxPackages : ℕ := 500

/-- The most choices one resolution may try before it gives up. -/
def maxSteps : ℕ := 100000

/-- The most version lists and manifests one resolution may ask for. -/
def maxLookups : ℕ := 2000

def cliPackage : Text := "chocolatey".toList

structure DependencyRef where
  id : Text
  range : Option Text
  deriving DecidableEq, Repr

def idKey (info : PackageInfo) : Text := Text.lower info.id

/-- The two are one version of one package. -/
def SameKey (a b : PackageInfo) : Prop :=
  idKey a = idKey b ∧ Versions.NuGetVersion.cmp a.version b.version = .eq

instance (a b : PackageInfo) : Decidable (SameKey a b) := inferInstanceAs (Decidable (_ ∧ _))

/-- Where the metadata comes from: every version of an id, oldest first, and what a version depends
on. Ids are compared ignoring case. -/
structure Source where
  versions : Text → Except UpstreamError (List PackageInfo)
  dependencies : PackageInfo → Except UpstreamError (List DependencyRef)
  versions_lower : ∀ id, versions (Text.lower id) = versions id
  versions_id : ∀ id vs, versions id = .ok vs → ∀ v ∈ vs, idKey v = Text.lower id
  dependencies_key : ∀ a b, SameKey a b → dependencies a = dependencies b

structure Edge where
  /-- The id as the dependent spells it. -/
  id : Text
  range : VersionRange
  deriving DecidableEq, Repr

def Edge.key (e : Edge) : Text := Text.lower e.id

def Edge.describe (e : Edge) : String :=
  match e.range.normalized with
  | [] => "any version"
  | r => String.ofList r

def shown (info : PackageInfo) : String :=
  s!"{String.ofList info.id} {String.ofList info.version.normalized}"

def isValidId (id : Text) : Bool :=
  !id.isEmpty && Text.byteLen id ≤ 100 &&
    (id.splitOnP fun c => c = '.' || c = '-').all fun part =>
      !part.isEmpty && part.all fun c => c.isAlphanum || c = '_'

/-- Why a root has no closure. -/
inductive Unresolvable where
  /-- No set of versions fits; the first clash explains it. -/
  | noSet (root : PackageInfo) (conflict : String)
  | tries (root : PackageInfo)
  | packages (root : PackageInfo)
  | lookups (root : PackageInfo)
  | dependency (dependent : PackageInfo) (why : String)
  deriving DecidableEq

def Unresolvable.message : Unresolvable → String
  | noSet root conflict => s!"no set of versions fits the dependencies of {shown root}: {conflict}"
  | tries root => s!"the dependencies of {shown root} need more than {maxSteps} tries to resolve"
  | packages root => s!"the closure of {shown root} holds more than {maxPackages} packages"
  | lookups root => s!"the closure of {shown root} needs more than {maxLookups} lookups"
  | dependency dependent why => s!"{shown dependent} lists a dependency {why}"

inductive ClosureError where
  | upstream (err : UpstreamError)
  | unresolvable (why : Unresolvable)

def Edge.new (dependent : PackageInfo) (dep : DependencyRef) : Except ClosureError Edge :=
  if !isValidId dep.id then
    .error (.unresolvable (.dependency dependent
      s!"{(String.ofList dep.id).quote} that is not a package id"))
  else
    match VersionRange.parse (dep.range.getD []) with
    | .error e => .error (.unresolvable (.dependency dependent
        (s!"on {String.ofList dep.id} with a range that does not parse: " ++
          s!"invalid NuGet version range {(String.ofList e.input).quote}: {e.reason}")))
    | .ok range => .ok ⟨dep.id, range⟩

def pins (range : VersionRange) (version : Versions.NuGetVersion) : Bool :=
  match range.min, range.max with
  | some lo, some hi => lo.inclusive && hi.inclusive &&
      Versions.NuGetVersion.cmp lo.version version = .eq && Versions.NuGetVersion.cmp hi.version version = .eq
  | _, _ => false

structure Known where
  /-- By lower-case id. -/
  versions : Text → Option (List PackageInfo)
  /-- By lower-case id and version. -/
  dependencies : PackageInfo → Option (List Edge)

namespace Known

def empty : Known := ⟨fun _ => none, fun _ => none⟩

def learnVersions (known : Known) (id : Text) (versions : List PackageInfo) : Known :=
  { known with versions := fun key =>
      if key = Text.lower id then some versions else known.versions key }

def learnDependencies (known : Known) (info : PackageInfo) (edges : List Edge) : Known :=
  { known with dependencies := fun other =>
      if SameKey other info then some edges else known.dependencies other }

end Known

/-- What the source has to be asked. -/
inductive Need where
  | versions (id : Text)
  | dependencies (info : PackageInfo)

inductive Stop where
  | need (need : Need)
  | fail (why : Unresolvable)

structure State where
  steps : ℕ
  /-- The first clash met, to explain a failure. -/
  conflict : Option String

def State.clash (st : State) (why : String) : State :=
  { st with conflict := st.conflict.or (some why) }

/-- A dependency with the package that has it. -/
abbrev Asked := PackageInfo × Edge

/-- The dependencies of what is chosen, without those on the CLI. -/
def edgesOf (known : Known) : List PackageInfo → Except Stop (List Asked)
  | [] => .ok []
  | parent :: rest =>
    match known.dependencies parent with
    | none => .error (.need (.dependencies parent))
    | some deps =>
      (edgesOf known rest).map ((deps.filter (·.key ≠ cliPackage)).map (parent, ·) ++ ·)

def chosenAs (chosen : List PackageInfo) (key : Text) : Option PackageInfo :=
  chosen.find? (idKey · = key)

def firstClash (chosen : List PackageInfo) (edges : List Asked) : Option String :=
  edges.findSome? fun (parent, edge) =>
    match chosenAs chosen edge.key with
    | some c =>
      if edge.range.contains c.version then none
      else some (s!"{shown parent} needs {String.ofList edge.id} {edge.describe}, not " ++
        String.ofList c.version.normalized)
    | none => none

def nextEdge (chosen : List PackageInfo) (edges : List Asked) : Option Asked :=
  edges.find? fun asked => (chosenAs chosen asked.2.key).isNone

/-- The versions that every range holds and the pre-release rule allows. -/
def fitting (prerelease : Bool) (onIt : List Asked) (versions : List PackageInfo) :
    List PackageInfo :=
  versions.reverse.filter fun v =>
    onIt.all (·.2.range.contains v.version) &&
      (onIt.any (pins ·.2.range v.version) || prerelease || !v.version.isPrerelease)

/-- Listed before unlisted, then highest first. -/
def candidates (prerelease : Bool) (onIt : List Asked) (versions : List PackageInfo) :
    List PackageInfo :=
  (fitting prerelease onIt versions).filter (·.listed) ++
    (fitting prerelease onIt versions).filter (!·.listed)

/-- Why no candidate is left. -/
def noneFits (next : Edge) (onIt : List Asked) (versions : List PackageInfo) : String :=
  let wanted := ", ".intercalate (onIt.map fun (p, e) => s!"{shown p} needs {e.describe}")
  if versions.isEmpty then s!"{String.ofList next.id} is not on the upstream ({wanted})"
  else s!"no version of {String.ofList next.id} fits ({wanted})"

/-- How a search ends: what is chosen, if every dependency of it can be. -/
abbrev Searched := Except Stop (Option (List PackageInfo) × State)

/-- The first candidate that leads to an end. -/
def tryEach (search : PackageInfo → State → Searched) : List PackageInfo → State → Searched
  | [], st => .ok (none, st)
  | candidate :: rest, st =>
    match search candidate st with
    | .error stop => .error stop
    | .ok (some closure, st) => .ok (some closure, st)
    | .ok (none, st) => tryEach search rest st

/-- Extend what is chosen until every dependency of every package in it is chosen too, or report
that it cannot be. There is room for so many packages more. -/
def search (known : Known) (root : PackageInfo) : ℕ → List PackageInfo → State → Searched
  | room, chosen, st =>
    let st := { st with steps := st.steps + 1 }
    if maxSteps < st.steps then .error (.fail (.tries root))
    else
      match edgesOf known chosen with
      | .error stop => .error stop
      | .ok edges =>
        match firstClash chosen edges with
        | some why => .ok (none, st.clash why)
        | none =>
          match nextEdge chosen edges with
          | none => .ok (some chosen, st)
          | some (_, next) =>
            match room with
            | 0 => .error (.fail (.packages root))
            | room + 1 =>
              match known.versions next.key with
              | none => .error (.need (.versions next.id))
              | some versions =>
                let onIt := edges.filter (·.2.key = next.key)
                let found := candidates root.version.isPrerelease onIt versions
                if found.isEmpty then .ok (none, st.clash (noneFits next onIt versions))
                else tryEach (fun c st => search known root room (chosen ++ [c]) st) found st

/-- One package of a closure. -/
structure Resolved where
  info : PackageInfo
  /-- The packages that depend on it; empty for the root. -/
  requiredBy : List String

structure Closure where
  /-- The root first, then its dependencies in the order they were resolved. -/
  packages : List Resolved
  /-- Dependencies on the CLI, each with the dependent and the range. -/
  provided : List (String × String)

/-- Note at the package of that id who depends on it. -/
def require (packages : List Resolved) (key : Text) (name : String) : List Resolved :=
  match packages with
  | [] => []
  | p :: rest =>
    if idKey p.info = key then { p with requiredBy := p.requiredBy ++ [name] } :: rest
    else p :: require rest key name

def allEdges (known : Known) (chosen : List PackageInfo) : List Asked :=
  chosen.flatMap fun parent => ((known.dependencies parent).getD []).map (parent, ·)

def closureOf (known : Known) (chosen : List PackageInfo) : Closure where
  packages := ((allEdges known chosen).filter (·.2.key ≠ cliPackage)).foldl
    (fun packages (parent, edge) => require packages edge.key (shown parent))
    (chosen.map (⟨·, []⟩))
  provided := ((allEdges known chosen).filter (·.2.key = cliPackage)).map fun (parent, edge) =>
    (shown parent, edge.describe)

def solve (known : Known) (root : PackageInfo) : Except Stop Closure :=
  match search known root (maxPackages - 1) [root] ⟨0, none⟩ with
  | .error stop => .error stop
  | .ok (none, st) => .error (.fail (.noSet root (st.conflict.getD "")))
  | .ok (some chosen, _) => .ok (closureOf known chosen)

/-- The dependencies of a version, asked for and parsed. -/
def Source.edges (source : Source) (info : PackageInfo) : Except ClosureError (List Edge) :=
  match source.dependencies info with
  | .error err => .error (.upstream err)
  | .ok deps => deps.mapM (Edge.new info)

/-- Resolve with so many lookups left. -/
def resolveFrom (source : Source) (root : PackageInfo) : ℕ → Known → Except ClosureError Closure
  | 0, _ => .error (.unresolvable (.lookups root))
  | lookups + 1, known =>
    match solve known root with
    | .ok closure => .ok closure
    | .error (.fail why) => .error (.unresolvable why)
    | .error (.need (.versions id)) =>
      match source.versions id with
      | .error err => .error (.upstream err)
      | .ok versions => resolveFrom source root lookups (known.learnVersions id versions)
    | .error (.need (.dependencies info)) =>
      match source.edges info with
      | .error err => .error err
      | .ok edges => resolveFrom source root lookups (known.learnDependencies info edges)

def resolve (source : Source) (root : PackageInfo) : Except ClosureError Closure :=
  resolveFrom source root maxLookups Known.empty

end YaNuget.Internalize.Closures
