import YaNuget.Packages.Nuspec

/-!
# Manifests as trees

What a reader that loads the whole document finds in a manifest: the fields are
the direct children of the metadata by name, in its default namespace.
-/
namespace YaNuget.Manifest

open EventTrees

abbrev XmlNodes := Nodes Tag Leaf

abbrev Element := Tag × XmlNodes

/-- The namespace that a name was resolved to, none for no namespace. -/
def ResolveResult.uri : ResolveResult → Option Text
  | .bound ns => if ns.isEmpty then none else some ns
  | _ => none

def attributeValue : List (Except String Attribute) → String → Option Text
  | [], _ => none
  | .ok ⟨key, .ok value⟩ :: rest, name =>
    (attributeValue rest name).or (if name = key then some value else none)
  | _ :: rest, name => attributeValue rest name

def Tag.attribute (e : Tag) (name : String) : Option Text := attributeValue e.attributes name

def Leaf.content : Leaf → Text
  | .text content => content
  | .cdata content => content
  | .generalRef name charRef => (resolveReference name charRef).toList
  | _ => []

/-- All text in the nodes. -/
def content : XmlNodes → Text
  | .nil => []
  | .element _ children rest => content children ++ content rest
  | .selfClosing _ rest => content rest
  | .leaf l rest => l.content ++ content rest

def sole {α : Type} : List α → Option α
  | [a] => some a
  | _ => none

section Reading

variable (ns : Option Text)

/-- The direct children of a name, in the namespace. -/
def named (name : String) (nodes : List Element) : List Element :=
  nodes.filter fun e => e.1.ns.uri = ns ∧ e.1.localName = name

def textOf (e : Element) : Option Text :=
  let value := trim (content e.2)
  if value.isEmpty then none else some value

def fieldText (name : String) (nodes : List Element) : Option Text :=
  (sole (named ns name nodes)).bind textOf

def licenseText (kind : String) (nodes : List Element) : Option Text :=
  (sole (named ns "license" nodes)).bind fun e =>
    if (e.1.attribute "type").map Text.lower = some kind.toList then textOf e else none

def isTrue (text : Option Text) : Bool := text.map Text.lower = some "true".toList

def readDependency (e : Tag) : Dependency :=
  ⟨(e.attribute "id").getD [], e.attribute "version", e.attribute "include",
    e.attribute "exclude"⟩

def readGroup (e : Element) : DependencyGroup :=
  ⟨e.1.attribute "targetFramework", (named ns "dependency" e.2.elements).map (readDependency ·.1)⟩

def under (name : String) (nodes : List Element) : List Element :=
  ((sole (named ns name nodes)).map (·.2.elements)).getD []

def readDependencies (nodes : List Element) : List DependencyGroup :=
  let ungrouped := (named ns "dependency" nodes).map (readDependency ·.1)
  if ungrouped.isEmpty then (named ns "group" nodes).map (readGroup ns) else [⟨none, ungrouped⟩]

def readPackageTypes (nodes : List Element) : List PackageType :=
  (named ns "packageType" nodes).filterMap fun e =>
    (e.1.attribute "name").map fun name => ⟨name, e.1.attribute "version"⟩

end Reading

/-- The manifest that the metadata element with these children holds. -/
def readMetadata (m : Tag) (nodes : List Element) : Nuspec :=
  let ns := m.defaultNs.uri
  { id := (fieldText ns "id" nodes).getD []
    version := (fieldText ns "version" nodes).getD []
    title := fieldText ns "title" nodes
    authors := fieldText ns "authors" nodes
    description := fieldText ns "description" nodes
    summary := fieldText ns "summary" nodes
    releaseNotes := fieldText ns "releaseNotes" nodes
    language := fieldText ns "language" nodes
    tags := fieldText ns "tags" nodes
    iconUrl := fieldText ns "iconUrl" nodes
    icon := fieldText ns "icon" nodes
    readme := fieldText ns "readme" nodes
    licenseUrl := fieldText ns "licenseUrl" nodes
    licenseExpression := licenseText ns "expression" nodes
    licenseFile := licenseText ns "file" nodes
    projectUrl := fieldText ns "projectUrl" nodes
    repositoryUrl := (sole (named ns "repository" nodes)).bind (·.1.attribute "url")
    repositoryType := (sole (named ns "repository" nodes)).bind (·.1.attribute "type")
    minClientVersion := m.attribute "minClientVersion"
    requireLicenseAcceptance := isTrue (fieldText ns "requireLicenseAcceptance" nodes)
    developmentDependency := isTrue (fieldText ns "developmentDependency" nodes)
    packageTypes := readPackageTypes ns (under ns "packageTypes" nodes)
    dependencyGroups := readDependencies ns (under ns "dependencies" nodes) }

def metadataOf (es : List Element) : List Element := es.filter (·.1.localName = "metadata")

/-- The elements of the metadata that may appear once. -/
def onceNames : List String :=
  fields.map (·.1) ++ ["license", "repository", "dependencies", "packageTypes"]

/-- The document is the one of the manifest: its element `root` has the one metadata element `m`,
which holds the manifest. Nothing is ambiguous in it, and the bounds hold. -/
structure Reads (xml : Xml) (n : Nuspec) (nodes : XmlNodes) (root m : Element) : Prop where
  /-- All elements are closed. -/
  closed : xml.events = nodes.events Tag.name
  oneRoot : nodes.elements = [root]
  oneMetadata : metadataOf root.2.elements = [m]
  fields : n = readMetadata m.1 m.2.elements
  once : ∀ name ∈ onceNames, (named m.1.defaultNs.uri name m.2.elements).length ≤ 1
  /-- A text field has no elements in it. -/
  plain : ∀ name ∈ "license" :: Manifest.fields.map (·.1),
    ∀ e ∈ named m.1.defaultNs.uri name m.2.elements, e.2.elements = []
  /-- Dependencies are all in groups, or none is. -/
  unmixed : named m.1.defaultNs.uri "group" (under m.1.defaultNs.uri "dependencies" m.2.elements) =
      [] ∨
    named m.1.defaultNs.uri "dependency" (under m.1.defaultNs.uri "dependencies" m.2.elements) = []
  bytes : xml.byteLen ≤ maxNuspecBytes
  depth : nodes.depth ≤ maxElementDepth
  attributes : ∀ e ∈ nodes.tags, e.attributes.length ≤ maxAttributes
  groups : n.dependencyGroups.length ≤ maxDependencyGroups
  dependencies : (n.dependencyGroups.flatMap (·.dependencies)).length ≤ maxDependencies
  packageTypes : n.packageTypes.length ≤ maxPackageTypes

end YaNuget.Manifest
