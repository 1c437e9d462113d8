import YaNuget.Data.Text
import YaNuget.Data.EventTrees

/-!
# Manifests

The manifest of a package is read from the events of an XML reader, with one
frame on a stack for each open element. What the reader finds in a tag (its
name, its namespace and its attributes, or why they cannot be read) comes with
the event.
-/
namespace YaNuget.Manifest

open EventTrees

structure PackageType where
  name : Text
  version : Option Text
  deriving DecidableEq, Repr

structure Dependency where
  id : Text
  versionRange : Option Text
  include_ : Option Text
  exclude : Option Text
  deriving DecidableEq, Repr

structure DependencyGroup where
  targetFramework : Option Text
  dependencies : List Dependency
  deriving DecidableEq, Repr

structure Nuspec where
  id : Text := []
  version : Text := []
  title : Option Text := none
  authors : Option Text := none
  description : Option Text := none
  summary : Option Text := none
  releaseNotes : Option Text := none
  language : Option Text := none
  tags : Option Text := none
  iconUrl : Option Text := none
  icon : Option Text := none
  readme : Option Text := none
  licenseUrl : Option Text := none
  licenseExpression : Option Text := none
  licenseFile : Option Text := none
  projectUrl : Option Text := none
  repositoryUrl : Option Text := none
  repositoryType : Option Text := none
  minClientVersion : Option Text := none
  requireLicenseAcceptance : Bool := false
  developmentDependency : Bool := false
  packageTypes : List PackageType := []
  dependencyGroups : List DependencyGroup := []
  deriving DecidableEq, Repr

def maxNuspecBytes : ℕ := 1024 * 1024
def maxElementDepth : ℕ := 64
def maxAttributes : ℕ := 64
def maxDependencyGroups : ℕ := 512
def maxDependencies : ℕ := 10000
def maxPackageTypes : ℕ := 64

/-- A text field directly under `<metadata>`. -/
inductive Field where
  | id | version | title | authors | description | summary | releaseNotes | language | tags
  | iconUrl | icon | readme | projectUrl | licenseUrl | requireLicenseAcceptance
  | developmentDependency | licenseExpression | licenseFile | licenseOther
  deriving DecidableEq, Repr

/-- The fields by the name of their element. A license is told by an attribute. -/
def fields : List (String × Field) :=
  [("id", .id), ("version", .version), ("title", .title), ("authors", .authors),
    ("description", .description), ("summary", .summary), ("releaseNotes", .releaseNotes),
    ("language", .language), ("tags", .tags), ("iconUrl", .iconUrl), ("icon", .icon),
    ("readme", .readme), ("projectUrl", .projectUrl), ("licenseUrl", .licenseUrl),
    ("requireLicenseAcceptance", .requireLicenseAcceptance),
    ("developmentDependency", .developmentDependency)]

/-- The name of the field's element, for messages. -/
def Field.name (field : Field) : String :=
  ((fields.find? (·.2 = field)).map (·.1)).getD "license"

/-- What an open element is to the manifest. -/
inductive Frame where
  | root
  | metadata
  | field (field : Field)
  | dependencies
  /-- An open group, by its index. -/
  | group (index : ℕ)
  | packageTypes
  /-- Anything else, with all that is in it. -/
  | ignored
  deriving DecidableEq, Repr

/-- The namespace that a name was resolved to. -/
inductive ResolveResult where
  | bound (ns : Text)
  | unbound
  | unknown (ns : String)
  deriving DecidableEq, Repr

/-- An attribute, with its value or why it has none. -/
structure Attribute where
  key : String
  value : Except String Text

structure Tag where
  /-- The name with its prefix, which the end tag repeats. -/
  name : String
  localName : String
  ns : ResolveResult
  /-- The default namespace in scope at the element. -/
  defaultNs : ResolveResult
  attributes : List (Except String Attribute)

/-- What stands between tags. -/
inductive Leaf where
  | text (content : Text)
  | cdata (content : Text)
  /-- A reference, with the character it stands for if it is a numeric one. -/
  | generalRef (name : String) (charRef : Option Char)
  | docType
  | other
  deriving DecidableEq, Repr

abbrev XmlEvent := Event Tag String Leaf

/-- A document as the reader reports it, up to its end or to the first error. The reader checks
that an end tag matches the open start tag, but not that all elements are closed. -/
structure Xml where
  byteLen : ℕ
  events : List XmlEvent
  malformed : Option String
  matched : (openTags Tag.name [] events).isSome

/-- Running totals, checked as elements arrive. -/
structure Counts where
  groups : ℕ := 0
  dependencies : ℕ := 0
  packageTypes : ℕ := 0
  deriving DecidableEq, Repr

def Counts.addGroup (c : Counts) : Except String Counts :=
  if c.groups + 1 > maxDependencyGroups then
    .error "nuspec declares more than 512 dependency groups"
  else .ok { c with groups := c.groups + 1 }

def Counts.addDependency (c : Counts) : Except String Counts :=
  if c.dependencies + 1 > maxDependencies then
    .error "nuspec declares more than 10000 dependencies"
  else .ok { c with dependencies := c.dependencies + 1 }

def Counts.addPackageType (c : Counts) : Except String Counts :=
  if c.packageTypes + 1 > maxPackageTypes then
    .error "nuspec declares more than 64 package types"
  else .ok { c with packageTypes := c.packageTypes + 1 }

structure State where
  nuspec : Nuspec := {}
  stack : List Frame := []
  rootClosed : Bool := false
  metadataSeen : Bool := false
  /-- The default namespace in scope at `<metadata>`. -/
  metadataNs : Option Text := none
  /-- The elements under `<metadata>` that may appear once and have. -/
  seen : List String := []
  /-- Dependencies outside of groups. -/
  ungrouped : List Dependency := []
  counts : Counts := {}
  /-- The text of the open field. -/
  text : Text := []

def namespaceOf : ResolveResult → Except String (Option Text)
  | .bound ns => .ok (if ns.isEmpty then none else some ns)
  | .unbound => .ok none
  | .unknown ns => .error s!"nuspec uses an undeclared namespace prefix {ns}"

/-- Read the attributes, all of which must be readable, from the `count`th on. -/
def readAttributes : ℕ → List (Except String Attribute) → (String → Option Text) →
    Except String (String → Option Text)
  | _, [], values => .ok values
  | count, item :: rest, values =>
    if count = maxAttributes then .error "nuspec element has more than 64 attributes"
    else
      match item with
      | .error err => .error s!"malformed nuspec attribute: {err}"
      | .ok ⟨_, .error err⟩ => .error s!"malformed nuspec attribute: {err}"
      | .ok ⟨key, .ok value⟩ =>
        readAttributes (count + 1) rest fun name => if name = key then some value else values name

/-- The values of the element's attributes, by name. -/
def attributes (e : Tag) : Except String (String → Option Text) :=
  readAttributes 0 e.attributes fun _ => none

def dependency (e : Tag) : Except String Dependency := do
  let values ← attributes e
  match values "id" with
  | none => .error "nuspec declares a <dependency> without an id"
  | some id =>
    if (trim id).isEmpty then .error "nuspec declares a <dependency> without an id"
    else .ok ⟨id, values "version", values "include", values "exclude"⟩

/-- An entity reference's character. -/
def resolveReference (name : String) (charRef : Option Char) : Option Char :=
  match charRef with
  | some ch => some ch
  | none =>
    match name with
    | "amp" => some '&'
    | "lt" => some '<'
    | "gt" => some '>'
    | "quot" => some '"'
    | "apos" => some '\''
    | _ => none

/-- Whether the open element is a text field. -/
def inField (stack : List Frame) : Bool :=
  match stack with
  | .field _ :: _ => true
  | _ => false

def once (s : State) (name : String) : Except String State :=
  if name ∈ s.seen then .error s!"nuspec declares <{name}> more than once"
  else .ok { s with seen := name :: s.seen }

/-- A direct child of `<metadata>` that is in the manifest's namespace. -/
def metadataChild (s : State) (e : Tag) : Except String (Frame × State) :=
  match fields.find? (·.1 = e.localName) with
  | some (name, field) => do
    let s ← once s name
    let _ ← attributes e
    pure (.field field, s)
  | none =>
    match e.localName with
    | "license" => do
      let s ← once s "license"
      let values ← attributes e
      let kind := (values "type").map Text.lower
      pure (if kind = some "expression".toList then .field .licenseExpression
        else if kind = some "file".toList then .field .licenseFile
        else .field .licenseOther, s)
    | "repository" => do
      let s ← once s "repository"
      let values ← attributes e
      pure (.ignored, { s with nuspec := { s.nuspec with
        repositoryType := values "type", repositoryUrl := values "url" } })
    | "dependencies" => do
      let s ← once s "dependencies"
      let _ ← attributes e
      pure (.dependencies, s)
    | "packageTypes" => do
      let s ← once s "packageTypes"
      let _ ← attributes e
      pure (.packageTypes, s)
    | _ => do
      let _ ← attributes e
      pure (.ignored, s)

/-- An element that is nothing to the manifest is still validated. -/
def ignore (s : State) (e : Tag) : Except String (Frame × State) := do
  let _ ← attributes e
  pure (.ignored, s)

/-- The frame of an element that starts, and what its tag adds to the state. -/
def frameOf (s : State) (e : Tag) (inMetadataNs : Bool) : Except String (Frame × State) :=
  match s.stack.head? with
  | none =>
    if s.rootClosed then .error "nuspec has more than one root element"
    else do
      let _ ← attributes e
      pure (.root, s)
  | some .root =>
    if e.localName = "metadata" then
      if s.metadataSeen then .error "nuspec has more than one <metadata>"
      else do
        let ns ← namespaceOf e.defaultNs
        let values ← attributes e
        pure (.metadata, { s with
          metadataSeen := true, metadataNs := ns,
          nuspec := { s.nuspec with minClientVersion := values "minClientVersion" } })
    else ignore s e
  | some .metadata => if inMetadataNs then metadataChild s e else ignore s e
  | some (.field field) => .error s!"nuspec field <{field.name}> contains an element"
  | some .dependencies =>
    if inMetadataNs && e.localName = "group" then do
      let counts ← s.counts.addGroup
      let values ← attributes e
      pure (.group s.nuspec.dependencyGroups.length, { s with
        counts := counts,
        nuspec := { s.nuspec with
          dependencyGroups := s.nuspec.dependencyGroups ++ [⟨values "targetFramework", []⟩] } })
    else if inMetadataNs && e.localName = "dependency" then do
      let counts ← s.counts.addDependency
      let dep ← dependency e
      pure (.ignored, { s with counts := counts, ungrouped := s.ungrouped ++ [dep] })
    else ignore s e
  | some (.group index) =>
    if inMetadataNs && e.localName = "dependency" then do
      let counts ← s.counts.addDependency
      let dep ← dependency e
      pure (.ignored, { s with
        counts := counts,
        nuspec := { s.nuspec with
          dependencyGroups := s.nuspec.dependencyGroups.modify index fun g =>
            { g with dependencies := g.dependencies ++ [dep] } } })
    else ignore s e
  | some .packageTypes =>
    if inMetadataNs && e.localName = "packageType" then do
      let counts ← s.counts.addPackageType
      let values ← attributes e
      pure (.ignored, { s with
        counts := counts,
        nuspec := { s.nuspec with
          packageTypes := s.nuspec.packageTypes ++
            ((values "name").map fun name => ⟨name, values "version"⟩).toList } })
    else ignore s e
  | some .ignored => ignore s e

/-- Store a field's text. -/
def assign (n : Nuspec) (field : Field) (text : Text) : Nuspec :=
  match field with
  | .id => { n with id := text }
  | .version => { n with version := text }
  | .title => { n with title := some text }
  | .authors => { n with authors := some text }
  | .description => { n with description := some text }
  | .summary => { n with summary := some text }
  | .releaseNotes => { n with releaseNotes := some text }
  | .language => { n with language := some text }
  | .tags => { n with tags := some text }
  | .iconUrl => { n with iconUrl := some text }
  | .icon => { n with icon := some text }
  | .readme => { n with readme := some text }
  | .projectUrl => { n with projectUrl := some text }
  | .licenseUrl => { n with licenseUrl := some text }
  | .requireLicenseAcceptance =>
    { n with requireLicenseAcceptance := Text.lower text = "true".toList }
  | .developmentDependency => { n with developmentDependency := Text.lower text = "true".toList }
  | .licenseExpression => { n with licenseExpression := some text }
  | .licenseFile => { n with licenseFile := some text }
  | .licenseOther => n

/-- An element that starts, checked before anything is pushed. -/
def startElement (s : State) (e : Tag) : Except String (Frame × State) :=
  if s.stack.length ≥ maxElementDepth then .error "nuspec nests deeper than 64 elements"
  else do
    let ns ← namespaceOf e.ns
    frameOf s e (ns = s.metadataNs)

/-- The innermost element ends, and its text is stored if it is a field. -/
def endElement (s : State) : State :=
  let popped :=
    match s.stack with
    | .field field :: rest =>
      let value := trim s.text
      { s with
        stack := rest, text := []
        nuspec := if value.isEmpty then s.nuspec else assign s.nuspec field value }
    | _ => { s with stack := s.stack.tail }
  if popped.stack.isEmpty then { popped with rootClosed := true } else popped

def pushText (s : State) (content : Text) : State :=
  if inField s.stack then { s with text := s.text ++ content } else s

def readLeaf (s : State) : Leaf → Except String State
  | .text content => .ok (pushText s content)
  | .cdata content => .ok (pushText s content)
  | .generalRef name charRef =>
    match resolveReference name charRef with
    | none => .error s!"nuspec uses an undefined entity &{name};"
    | some resolved => .ok (pushText s [resolved])
  | .docType => .error "nuspec must not contain a DOCTYPE"
  | .other => .ok s

def step (s : State) : XmlEvent → Except String State
  | .start e => do
    let (frame, s') ← startElement s e
    pure { s' with stack := frame :: s'.stack, text := [] }
  | .empty e => do
    let (_, s') ← startElement s e
    pure s'
  | .leaf l => readLeaf s l
  | .close _ => .ok (endElement s)

/-- The checks once the document has ended. -/
def finish (s : State) : Except String Nuspec :=
  if !s.metadataSeen then .error "nuspec has no <metadata>"
  else if !s.ungrouped.isEmpty && !s.nuspec.dependencyGroups.isEmpty then
    .error ("nuspec <dependencies> mixes <group> elements with ungrouped <dependency> " ++
      "elements; NuGet ignores the ungrouped ones")
  else
    let nuspec := if s.ungrouped.isEmpty then s.nuspec
      else { s.nuspec with dependencyGroups := [⟨none, s.ungrouped⟩] }
    if (trim nuspec.id).isEmpty then .error "nuspec is missing <id>"
    else if (trim nuspec.version).isEmpty then .error "nuspec is missing <version>"
    else .ok nuspec

def parseNuspec (xml : Xml) : Except String Nuspec :=
  if maxNuspecBytes < xml.byteLen then .error "nuspec is larger than 1024 KiB"
  else do
    let s ← xml.events.foldlM step {}
    match xml.malformed with
    | some err => .error s!"malformed nuspec: {err}"
    | none => finish s

end YaNuget.Manifest
